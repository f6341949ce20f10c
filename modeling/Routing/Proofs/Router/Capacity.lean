import Mathlib.Data.List.Induction
import Routing.Proofs.Router.Lookup
import Routing.Proofs.Router.Registered
import Routing.Proofs.Trie.Captures

/-! How many parameters there can be.

A router counts the most parameters that a pattern added to it has had (`Router.counts`). No route
has more (`Router.after_covers`), and every node has a route at it or below it, so no path down the
trie has more placeholders (`Trie.Formed.marks_le`), and no lookup captures more on its way, not
even on branches that lead nowhere (`Router.after_capacity`). -/
namespace Routing
open Trie Text
variable {H : Type}

namespace Trie

/-! ### Nodes -/

theorem Formed.fits {n : Tree H} (h : Formed n) :
    ∀ c ∈ n.all, c.content.kind.Fits c.content.text := by
  intro c hc
  cases h with
  | bare =>
    obtain rfl := List.mem_singleton.mp hc
    exact ⟨List.not_mem_nil, List.not_mem_nil⟩
  | full hsound _ => exact (hsound c hc).content.fits

/-- A node has no more placeholders than a route below it. -/
theorem Formed.marks_le {n : Tree H} (h : Formed n) {most : Nat}
    (hroutes : ∀ route ∈ n.routes, marks route.path ≤ most) : ∀ c ∈ n.all, marks c.path ≤ most := by
  intro c hc
  cases h with
  | bare =>
    obtain rfl := List.mem_singleton.mp hc
    exact Nat.zero_le most
  | full hsound htight =>
    obtain ⟨C, m, hplug, rfl⟩ := Context.exists_plug (C := .hole) hc
    have hpart : Part n C m := ⟨hplug, hsound, htight⟩
    obtain ⟨route, hroute⟩ := hpart.exists_route
    obtain ⟨tail, htail⟩ := Tree.path_of_routesAt hroute
    have hmem : route ∈ n.routes := by
      rw [show n = C.plug m from hplug, C.routes_plug]
      exact List.mem_append_left _ (List.mem_append_right _ hroute)
    calc marks (m.top C.above C.parent).path
      _ ≤ marks route.path := by
        rw [htail, marks_append, Tree.top_path]
        exact Nat.le_add_right ..
      _ ≤ most := hroutes route hmem

theorem Tree.Affords.le {n : Tree H} {slot : Slot} {count most : Nat} (h : n.Affords slot count)
    (hmost : ∀ c ∈ n.all, marks c.path ≤ most) : count ≤ most := by
  obtain ⟨c, hc, -, hcount⟩ := h
  exact hcount.trans (hmost c hc)

namespace Search
variable {n : Tree H} {most : Nat} (hmost : ∀ c ∈ n.all, Text.marks c.path ≤ most)
include hmost

theorem Within.size_le {s : Search Params} (h : s.Within n) : s.captures.size ≤ most :=
  h.captured.le hmost

theorem Turn.Within.size_le {turn : Turn Params} (h : turn.Within n) :
    turn.captures.size ≤ most :=
  match turn with
  | .going _ => Search.Within.size_le hmost h
  | .ended (some _) _ => Tree.Affords.le h hmost
  | .ended none _ => (show _ = 0 from h).trans_le (Nat.zero_le most)

end Search

end Trie

namespace Router

/-! ### Counts -/

/-- The count that a call returns, if it adds a route. -/
def counted? (r : Router H) : Call H → Option Nat
  | .add name method path handler => (r.add name method path handler).value.1.toOption
  | .remove .. => none

/-- The counts that the additions among some calls return. -/
def counts (r : Router H) : List (Call H) → List Nat
  | [] => []
  | c :: rest => (r.counted? c).toList ++ (r.call c).counts rest

theorem Takes.maxParams {r left : Router H} {routes : List (Route H)} {route : Route H}
    {method : String} (h : r.Takes routes route method left) : left.maxParams = r.maxParams := by
  cases h <;> rfl

section keeps
variable {r : Router H} {routes : List (Route H)} (h : r.Keeps routes)
include h

/-- A removal leaves the most parameters as they are. -/
theorem Keeps.remove_maxParams (name method path : String) :
    (r.call (.remove name method path)).maxParams = r.maxParams := by
  obtain ⟨routes', hcall⟩ := h.call (.remove name method path)
  have hbecomes := h.becomes hcall
  generalize r.call _ = left at hbecomes ⊢
  cases hbecomes with
  | idle => rfl
  | taken _ _ _ htakes => exact htakes.maxParams

theorem Keeps.call_maxParams (c : Call H) :
    (r.call c).maxParams = (r.counted? c).toList.foldl max r.maxParams := by
  cases c with
  | add name method path handler =>
    rw [Router.call, counted?]
    rcases r.add_cases name method path handler with ⟨e, herror⟩ | ⟨pattern, -, -, hadd⟩
    · rw [herror]
      rfl
    · rw [hadd]
      rfl
  | remove name method path => exact h.remove_maxParams name method path

/-- What the calls do to the most parameters is seen in their counts. -/
theorem Keeps.calls_maxParams (calls : List (Call H)) :
    (calls.foldl Router.call r).maxParams = (r.counts calls).foldl max r.maxParams := by
  induction calls generalizing r routes with
  | nil => rfl
  | cons c rest ih =>
    obtain ⟨routes', hcall⟩ := h.call c
    rw [List.foldl_cons, ih hcall, counts, List.foldl_append, h.call_maxParams c]

end keeps

/-! ### Routes -/

/-- No route has more parameters than the router has counted. -/
def Covers (r : Router H) (routes : List (Route H)) : Prop :=
  ∀ route ∈ routes, route.params.length ≤ r.maxParams

theorem Takes.covers {r left : Router H} {routes routes' : List (Route H)} {route : Route H}
    {method : String} (h : r.Takes routes route method left) (hcovers : r.Covers routes)
    (htable : left.trie.routes? = some routes') (hold : r.trie.routes? = some routes) :
    left.Covers routes' := by
  have hmost := h.maxParams
  cases h with
  | nothing =>
    obtain rfl := Option.some.inj (hold.symm.trans htable)
    exact hcovers
  | one hsplit _ _ _ _ _ hleft =>
    obtain rfl := Option.some.inj (hleft.symm.trans htable)
    subst hsplit
    simp only [Covers, List.forall_mem_append, List.forall_mem_cons] at hcovers ⊢
    exact hcovers
  | all hsplit _ hleft =>
    obtain rfl := Option.some.inj (hleft.symm.trans htable)
    subst hsplit
    exact fun other hother => hcovers other (Registry.mem_dropped hother)

theorem Keeps.call_covers {r : Router H} {routes routes' : List (Route H)} (h : r.Keeps routes)
    (hcovers : r.Covers routes) (c : Call H) (h' : (r.call c).Keeps routes') :
    (r.call c).Covers routes' := by
  have hbecomes := h.becomes h'
  generalize r.call c = left at hbecomes h' ⊢
  cases hbecomes with
  | refused | idle => exact hcovers
  | @entered _ _ _ _ _ _ _ old _ hparse _ hsplit hentered =>
    subst hsplit
    intro route hroute
    rcases Registry.mem_replaced old hroute with rfl | hroute
    · rw [h'.length_params (by simp), hentered.path, ← (Pattern.reads_of_parse hparse).1]
      exact Nat.le_max_right ..
    · exact (hcovers route hroute).trans (Nat.le_max_left ..)
  | taken _ _ _ htakes htable => exact htakes.covers hcovers htable h.table

theorem after_covers {notFound notAllowed : H} {calls : List (Call H)} {routes : List (Route H)}
    (h : (after notFound notAllowed calls).Keeps routes) :
    (after notFound notAllowed calls).Covers routes := by
  induction calls using List.reverseRecOn generalizing routes with
  | nil =>
    obtain rfl := (new_keeps notFound notAllowed).table_eq h.table
    exact fun route hroute => (List.not_mem_nil hroute).elim
  | append_singleton calls c ih =>
    obtain ⟨before, hbefore⟩ := after_keeps notFound notAllowed calls
    rw [after_concat] at h ⊢
    exact hbefore.call_covers (ih hbefore) c h

/-! ### Lookups -/

section lookup
variable {r : Router H} {n : Trie.Tree H} (h : r.trie.Holds n)
  (hfits : ∀ c ∈ n.all, c.content.kind.Fits c.content.text) {most : Nat}
  (hmost : ∀ c ∈ n.all, marks c.path ≤ most)
include h hfits hmost

/-- The empty text that a wildcard captures has its placeholder. -/
theorem answerAt?_size_le {slot : Slot} {params : Params} (hslot : n.Affords slot params.size)
    {method : String} {found : Found H} (hfound : r.answerAt? slot method params = some found) :
    found.params.size ≤ most := by
  have hsize : params.size ≤ most := hslot.le hmost
  obtain ⟨c, hc, rfl, hcount⟩ := hslot
  obtain ⟨C, m, rfl, rfl⟩ := Context.exists_plug (C := .hole) hc
  have hnode := h.part.node?_eq
  have hchild : r.trie.childOfKind? m.slot .wildcard =
      some ((m.child? (·.kind == Kind.wildcard)).map Tree.slot) := h.part.child?_eq _
  rw [answerAt?, Tree.top_slot, hnode] at hfound
  simp only [Option.bind_eq_bind, Option.bind_some] at hfound
  split at hfound
  · obtain rfl := Option.some.inj hfound
    exact hsize
  · rw [hchild, Option.bind_some] at hfound
    cases hfind : m.child? (·.kind == Kind.wildcard) with
    | none =>
      rw [hfind] at hfound
      obtain rfl := Option.some.inj hfound
      exact Nat.zero_le most
    | some x =>
      obtain ⟨hx, -⟩ := Tree.child?_mem hfind
      have hwildcard := (h.part.child hx).node?_eq
      simp only [hfind, Option.map_some, Option.mapM_some, hwildcard, Option.map_eq_map,
        Option.bind_some] at hfound
      split at hfound
      · obtain rfl := Option.some.inj hfound
        have haffords := affords_mark hfits hfind (by decide) hcount
        rw [← Params.size_push params []] at haffords
        exact haffords.le hmost
      · obtain rfl := Option.some.inj hfound
        exact Nat.zero_le most

theorem find_size_le (method path : String) (params : Params) :
    (r.find method path params).params.size ≤ most := by
  rw [find]
  cases hfind : r.find? method path params with
  | none => exact Nat.zero_le most
  | some result =>
    rw [Option.getD_some]
    rw [find?] at hfind
    generalize (if path = "" then ['/'] else path.toList) = text at hfind
    obtain ⟨course, found, left, -, hsearch, -, hend⟩ := h.search_within hfits text params
    rw [hsearch] at hfind
    cases hempty : r.trie.isEmpty with
    | true =>
      rw [hempty] at hfind
      obtain rfl := Option.some.inj hfind
      exact Nat.zero_le most
    | false =>
      rw [hempty] at hfind
      cases found with
      | none =>
        obtain rfl := Option.some.inj hfind
        exact (show left.size = 0 from hend).trans_le (Nat.zero_le most)
      | some slot => exact answerAt?_size_le h hfits hmost hend hfind

end lookup

end Router

/-- Whatever was added and removed, the most parameters are the greatest count that an addition
returned, and zero before the first; a removal leaves them as they are. No lookup ever holds more
captures, neither in a turn of its search, wherever that leads, nor in what it gives. -/
theorem Router.after_capacity (notFound notAllowed : H) (calls : List (Call H)) :
    (after notFound notAllowed calls).maxParams =
      ((new notFound notAllowed).counts calls).foldl max 0 ∧
    (∀ name method path,
      ((after notFound notAllowed calls).call (.remove name method path)).maxParams =
        (after notFound notAllowed calls).maxParams) ∧
    (∀ (path : List Char) (params : Params), ∃ course found left,
      Search.Course (after notFound notAllowed calls).trie (Search.start path params.clear) course
        found left ∧
      (after notFound notAllowed calls).trie.search? path params.clear = some (
        if (after notFound notAllowed calls).trie.isEmpty then (none, params.clear)
        else (found, left)) ∧
      ∀ entry ∈ course,
        entry.1.captures.size ≤ (after notFound notAllowed calls).maxParams ∧
        entry.2.captures.size ≤ (after notFound notAllowed calls).maxParams) ∧
    ∀ method path params, ((after notFound notAllowed calls).find method path params).params.size ≤
      (after notFound notAllowed calls).maxParams := by
  obtain ⟨routes, hkeeps⟩ := after_keeps notFound notAllowed calls
  have hcovers := after_covers hkeeps
  have hcounts := (new_keeps notFound notAllowed).calls_maxParams calls
  obtain ⟨n, hholds, hn, rfl⟩ := hkeeps.exists_tree
  have hmost := hn.marks_le fun route hroute =>
    (hkeeps.length_params hroute).symm.trans_le (hcovers route hroute)
  refine ⟨hcounts, hkeeps.remove_maxParams, fun path params => ?_,
    find_size_le hholds hn.fits hmost⟩
  obtain ⟨course, found, left, hcourse, hsearch, hall, -⟩ :=
    hholds.search_within hn.fits path params
  exact ⟨course, found, left, hcourse, hsearch, fun entry hentry =>
    ⟨(hall entry hentry).1.size_le hmost, (hall entry hentry).2.size_le hmost⟩⟩

end Routing
