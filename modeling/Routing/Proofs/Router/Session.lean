import Routing.Proofs.Router.Lookup
import Routing.Proofs.Router.Registered
import Routing.Router.Shared

/-! Sessions with a router.

A session is a list of operations of every kind, done one after another (`Router.steps`); each gives
its reply and reports its events. Only additions and removals change what a router keeps, and only
the building of URLs its drafts, so every router that a session leaves is in order
(`Router.ran_inOrder`). -/
namespace Routing
open Trie

namespace Logged
variable {α β : Type}

@[simp] theorem value_pure (a : α) : (pure a : Logged α).value = a := rfl

@[simp] theorem events_pure (a : α) : (pure a : Logged α).events = [] := rfl

@[simp] theorem value_bind (first : Logged α) (next : α → Logged β) :
    (first >>= next).value = (next first.value).value := rfl

@[simp] theorem events_bind (first : Logged α) (next : α → Logged β) :
    (first >>= next).events = first.events ++ (next first.value).events := rfl

@[simp] theorem value_emit (event : Event) : (emit event).value = () := rfl

@[simp] theorem events_emit (event : Event) : (emit event).events = [event] := rfl

end Logged

namespace Url.Drafts

/-- Nothing is left on the drafts of what was written on them. -/
def Wiped (d : Drafts) : Prop := ∀ draft ∈ d.pile, draft = []

theorem empty_wiped : empty.Wiped := fun _ hdraft => (List.not_mem_nil hdraft).elim

theorem Wiped.take {d : Drafts} (h : d.Wiped) : d.take.1 = [] ∧ d.take.2.Wiped := by
  obtain ⟨pile⟩ := d
  cases pile with
  | nil => exact ⟨rfl, h⟩
  | cons draft pile => exact List.forall_mem_cons.mp h

theorem Wiped.putBack {d : Drafts} (h : d.Wiped) (used : Draft) : (d.putBack used).Wiped := by
  unfold Drafts.putBack
  split
  · exact List.forall_mem_cons.mpr ⟨rfl, h⟩
  · exact h

end Url.Drafts

variable {H : Type}

/-- An operation on a router. -/
inductive Step (H : Type) where
  | add (name method path : String) (handler : H)
  | remove (name method path : String)
  | find (method path : String)
  | url (name : String) (values : List Url.Value)
  | list
  | routePath (name : String)
  | outline

/-- What an operation gives; a lookup gives an `F`. -/
inductive Reply (F : Type) where
  | added (result : Except Error Nat)
  | removed (result : Except Error Unit)
  | found (found : F)
  | built (url : String)
  | listed (routes : List Listed)
  | pattern (text : Option String)
  /-- The text, or nothing if the operation failed. -/
  | outlined (text : Option String)

/-- The reply with what a lookup gives put in another form. -/
def Reply.map {F G : Type} (f : F → G) : Reply F → Reply G
  | added result => added result
  | removed result => removed result
  | found x => found (f x)
  | built url => built url
  | listed routes => listed routes
  | pattern text => pattern text
  | outlined text => outlined text

namespace Router

/-- One operation on a router of one's own. -/
def step (r : Router H) : Step H → Logged (Reply (Found H) × Router H)
  | .add name method path handler => do
    let left ← r.add name method path handler
    return (.added left.1, left.2)
  | .remove name method path => do
    let left ← r.remove name method path
    return (.removed left.1, left.2)
  | .find method path => return (.found (r.find method path .empty), r)
  | .url name values => do
    let built ← r.url name values
    return (.built built.url, built.router)
  | .list => return (.listed r.list, r)
  | .routePath name => return (.pattern (r.routePath? name), r)
  | .outline => return (.outlined r.outline?, r)

/-- Operations one after another. -/
def steps (r : Router H) : List (Step H) → Logged (List (Reply (Found H)) × Router H)
  | [] => return ([], r)
  | s :: rest => do
    let (reply, r) ← r.step s
    let (replies, r) ← r.steps rest
    return (reply :: replies, r)

/-- The router that some operations leave. -/
def ran (notFound notAllowed : H) (steps : List (Step H)) : Router H :=
  ((new notFound notAllowed).steps steps).value.2

/-- What holds of every router there can be: it keeps its routes, it has the fallback handlers that
it was made with, and the drafts put back are wiped. -/
structure InOrder (notFound notAllowed : H) (r : Router H) : Prop where
  keeps : ∃ routes, r.Keeps routes
  notFound : r.notFound = notFound
  notAllowed : r.notAllowed = notAllowed
  drafts : r.drafts.Wiped

theorem new_inOrder (notFound notAllowed : H) :
    (new notFound notAllowed).InOrder notFound notAllowed where
  keeps := ⟨[], new_keeps notFound notAllowed⟩
  notFound := rfl
  notAllowed := rfl
  drafts := Url.Drafts.empty_wiped

/-! ### Additions and removals -/

theorem step_add (r : Router H) (name method path : String) (handler : H) :
    (r.step (.add name method path handler)).value.2 = r.call (.add name method path handler) := by
  rw [step, call, Logged.value_bind]
  rfl

theorem step_remove (r : Router H) (name method path : String) :
    (r.step (.remove name method path)).value.2 = r.call (.remove name method path) := by
  rw [step, call, Logged.value_bind]
  rfl

theorem Takes.drafts {r left : Router H} {routes : List (Route H)} {route : Route H}
    {method : String} (h : r.Takes routes route method left) : left.drafts = r.drafts := by
  cases h <;> rfl

theorem Keeps.call_drafts {r : Router H} {routes : List (Route H)} (h : r.Keeps routes)
    (c : Call H) : (r.call c).drafts = r.drafts := by
  cases c with
  | add name method path handler =>
    rw [Router.call]
    rcases r.add_cases name method path handler with ⟨e, herror⟩ | ⟨pattern, -, -, hadd⟩
    · rw [herror]
    · rw [hadd]
      rfl
  | remove name method path =>
    have hremoves := h.removes name method path
    rw [Router.call]
    generalize (r.remove name method path).value = result at hremoves
    cases hremoves with
    | unbound | malformed | missing => rfl
    | route _ _ _ htakes => exact htakes.drafts

theorem InOrder.call {notFound notAllowed : H} {r : Router H} (h : r.InOrder notFound notAllowed)
    (c : Call H) : (r.call c).InOrder notFound notAllowed := by
  obtain ⟨routes, hkeeps⟩ := h.keeps
  obtain ⟨hnotFound, hnotAllowed⟩ := call_fallbacks r c
  refine ⟨hkeeps.call c, hnotFound.trans h.notFound, hnotAllowed.trans h.notAllowed, ?_⟩
  rw [hkeeps.call_drafts]
  exact h.drafts

/-! ### URLs -/

/-- The building of a URL changes nothing but the drafts, of which it takes one and puts it back. -/
theorem url_router (r : Router H) (name : String) (values : List Url.Value) : ∃ drafts,
    (r.url name values).value.router = { r with drafts } ∧
      (drafts = r.drafts ∨ ∃ used, drafts = r.drafts.take.2.putBack used) := by
  unfold url
  split
  · exact ⟨r.drafts, rfl, .inl rfl⟩
  · next pattern _ =>
    refine ⟨_, ?_, .inr ⟨(Url.expand r.drafts.take.1 pattern values).text, rfl⟩⟩
    dsimp only
    split <;> rfl

/-- A URL is written as on a clean draft. -/
theorem url_named {r : Router H} (h : r.drafts.Wiped) {name pattern : String}
    (hname : r.routePath? name = some pattern) (values : List Url.Value) :
    (r.url name values).value.url =
      if (Url.expand [] pattern values).complete then
        String.ofList (Url.expand [] pattern values).text
      else "" := by
  have hdraft := h.take.1
  rw [url, hname, ← hdraft]
  dsimp only
  split <;> rfl

theorem InOrder.url {notFound notAllowed : H} {r : Router H} (h : r.InOrder notFound notAllowed)
    (name : String) (values : List Url.Value) :
    (r.url name values).value.router.InOrder notFound notAllowed := by
  obtain ⟨drafts, hrouter, hdrafts⟩ := url_router r name values
  obtain ⟨routes, hkeeps⟩ := h.keeps
  have hwiped : drafts.Wiped := by
    rcases hdrafts with rfl | ⟨used, rfl⟩
    · exact h.drafts
    · exact h.drafts.take.2.putBack used
  rw [hrouter]
  exact ⟨⟨routes, hkeeps.valid, hkeeps.table, hkeeps.agrees, hkeeps.reads⟩, h.notFound,
    h.notAllowed, hwiped⟩

/-! ### Sessions -/

theorem InOrder.step {notFound notAllowed : H} {r : Router H} (h : r.InOrder notFound notAllowed)
    (s : Step H) : (r.step s).value.2.InOrder notFound notAllowed := by
  cases s with
  | add name method path handler => exact step_add r name method path handler ▸ h.call _
  | remove name method path => exact step_remove r name method path ▸ h.call _
  | url name values => exact h.url name values
  | find | list | routePath | outline => exact h

theorem InOrder.steps {notFound notAllowed : H} {r : Router H} (h : r.InOrder notFound notAllowed)
    (steps : List (Step H)) : (r.steps steps).value.2.InOrder notFound notAllowed := by
  induction steps generalizing r with
  | nil => exact h
  | cons s rest ih => exact ih (h.step s)

/-- Whatever was done with a router, it is in order. -/
theorem ran_inOrder (notFound notAllowed : H) (steps : List (Step H)) :
    (ran notFound notAllowed steps).InOrder notFound notAllowed :=
  (new_inOrder notFound notAllowed).steps steps

/-- A lookup reads the routes that the router keeps. -/
theorem Keeps.find_eq {r : Router H} {routes : List (Route H)} (h : r.Keeps routes)
    (method path : String) (params : Params) :
    r.find method path params = lookup r.notFound r.notAllowed routes method path := by
  obtain ⟨n, hholds, hn, rfl⟩ := h.exists_tree
  rw [find, find?_eq hholds hn, Option.getD_some]

end Router

end Routing
