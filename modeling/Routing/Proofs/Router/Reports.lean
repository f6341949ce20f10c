import Routing.Proofs.Router.Session

/-! What a removal reports.

A removal that is not refused reports one event, and the event tells what has become of the routes:
one of them is gone, or one method of one that stays, or all is as it was
(`Router.remove_reports`). -/
namespace Routing
open Trie
variable {H : Type}

/-! ### What may become of a table -/

/-- One route is gone, and the others are as they were. -/
def LosesRoute (routes routes' : List (Route H)) : Prop :=
  ∃ front route back, routes = front ++ route :: back ∧ routes' = front ++ back

/-- One method of one route is gone. The route has others left, and the other routes are as they
were. -/
def LosesMethod (routes routes' : List (Route H)) : Prop :=
  ∃ front route back method methods, routes = front ++ route :: back ∧
    routes' = front ++ { route with methods } :: back ∧ methods.isEmpty = false ∧
    route.methods.own? method ≠ none ∧
    ∀ other, methods.own? other = if other = method then none else route.methods.own? other

section tables
variable {routes routes' : List (Route H)}

theorem LosesRoute.length_eq (h : LosesRoute routes routes') :
    routes.length = routes'.length + 1 := by
  obtain ⟨front, route, back, rfl, rfl⟩ := h
  simp only [List.length_append, List.length_cons]
  omega

theorem LosesMethod.length_eq (h : LosesMethod routes routes') :
    routes.length = routes'.length := by
  obtain ⟨front, route, back, method, methods, rfl, rfl, -⟩ := h
  simp only [List.length_append, List.length_cons]

theorem LosesMethod.ne (h : LosesMethod routes routes') : routes' ≠ routes := by
  obtain ⟨front, route, back, method, methods, rfl, rfl, -, hown, hothers⟩ := h
  intro heq
  rw [List.append_cancel_left_eq, List.cons.injEq] at heq
  have hsame : methods = route.methods := congrArg Route.methods heq.1
  have hgone := hothers method
  rw [if_pos rfl, hsame] at hgone
  exact hown hgone

end tables

namespace Router

/-! ### What is reported of it -/

/-- What an event tells of a router and its routes before and after. -/
structure Tells (r left : Router H) (routes routes' : List (Route H)) (event : Event) : Prop where
  level : event.level = .debug
  route : event.message = "Route removed" ↔ LosesRoute routes routes'
  method : event.message = "Route method removed" ↔ LosesMethod routes routes'
  nothing : event.message ∈ ["No route registered under this name", "No route to remove",
      "Method not registered on route"] ↔
    left.trie = r.trie ∧ left.registry.names = r.registry.names ∧
      left.registry.paths = r.registry.paths

section tells
variable {r left : Router H} {routes routes' : List (Route H)}
  (htable : r.trie.routes? = some routes) (hleft : left.trie.routes? = some routes')
include htable

/-- A trie with other routes is another trie. -/
theorem trie_ne (hleft : left.trie.routes? = some routes') (hne : routes' ≠ routes) :
    left.trie ≠ r.trie := by
  intro heq
  rw [heq, htable] at hleft
  exact hne (Option.some.inj hleft).symm

omit htable in
theorem tells_nothing {event : Event} (hlevel : event.level = .debug)
    (hmessage : event.message ∈ ["No route registered under this name", "No route to remove",
      "Method not registered on route"]) : r.Tells r routes routes event := by
  have hother {message : String} (h : message ∉ ["No route registered under this name",
      "No route to remove", "Method not registered on route"]) : event.message ≠ message :=
    fun heq => h (heq ▸ hmessage)
  refine ⟨hlevel, iff_of_false (hother (by decide)) fun h => ?_,
    iff_of_false (hother (by decide)) fun h => h.ne rfl, iff_of_true hmessage ⟨rfl, rfl, rfl⟩⟩
  simpa using h.length_eq

include hleft

theorem tells_method (h : LosesMethod routes routes') (pattern method : String) :
    r.Tells left routes routes' (.methodRemoved pattern method) where
  level := rfl
  route := by
    refine iff_of_false (by simp [Event.message]) fun hroute => ?_
    have := h.length_eq.symm.trans hroute.length_eq
    omega
  method := iff_of_true rfl h
  nothing := iff_of_false (by simp [Event.message]) fun hsame => trie_ne htable hleft h.ne hsame.1

theorem tells_route (h : LosesRoute routes routes') (pattern method : String) :
    r.Tells left routes routes' (.removed pattern method) where
  level := rfl
  route := iff_of_true rfl h
  method := by
    refine iff_of_false (by simp [Event.message]) fun hmethod => ?_
    have := hmethod.length_eq.symm.trans h.length_eq
    omega
  nothing := by
    refine iff_of_false (by simp [Event.message]) fun hsame => trie_ne htable hleft ?_ hsame.1
    rintro rfl
    simpa using h.length_eq

end tells

/-- What a removal from the node of a route reports is what it does. -/
theorem Removal.tells {r left : Router H} {n : Trie.Tree H} (hholds : r.trie.Holds n)
    (hn : Formed n) {slot : Slot} {route : Route H} (hends : n.Ends slot route)
    {pattern method : String} {event : Event} (h : r.Removal slot pattern method left event) :
    ∃ routes', left.trie.routes? = some routes' ∧ r.Tells left n.routes routes' event := by
  obtain ⟨C, c, children, rfl, hfields, hsplit, hordered⟩ := exists_plug_of_ends hn hends
  have hnode : r.trie.node? slot = some ⟨c, C.parent, children.map Tree.slot⟩ := hholds.node?_eq
  have hall (hleft : r.withoutRoute? slot = some left) : ∃ routes',
      left.trie.routes? = some routes' ∧
        r.Tells left (C.plug (.node slot c children)).routes routes' (.removed pattern method) := by
    obtain ⟨trie, hwithout, hroutes⟩ := withoutRoute?_eq hholds
    obtain rfl := Option.some.inj (hwithout.symm.trans hleft)
    exact ⟨_, hroutes, tells_route hholds.routes?_eq hroutes ⟨_, route, _, hsplit, rfl⟩ _ _⟩
  cases h with
  | route _ hleft => exact hall hleft
  | last _ _ _ _ hleft => exact hall hleft
  | one _ hsame herase hmethods hleft =>
    obtain rfl := Option.some.inj (hnode.symm.trans hsame)
    obtain ⟨trie, hwith, hroutes⟩ := withMethods?_eq hholds hmethods
    obtain rfl := Option.some.inj (hwith.symm.trans hleft)
    have hown : c.methods.own? method ≠ none := by
      rw [Ne, ← Methods.erase?_eq_none_iff, herase]
      exact Option.some_ne_none _
    refine ⟨_, hroutes, tells_method hholds.routes?_eq hroutes
      ⟨_, route, _, method, _, hsplit, ?_, hmethods, ?_, ?_⟩ _ _⟩
    · rw [hfields]
    · rw [hfields]
      exact hown
    · rw [hfields]
      exact Methods.own?_erase? herase
  | missing => exact ⟨_, hholds.routes?_eq, tells_nothing rfl (by simp [Event.message])⟩

/-- A removal reports one event, which tells what it does, or it is refused and reports none. -/
theorem remove_tells {r : Router H} {n : Trie.Tree H} (hholds : r.trie.Holds n) (hn : Formed n)
    (name method path : String) :
    (∃ e, r.remove name method path = ⟨(.error e, r), []⟩) ∨
      ∃ left event routes', r.remove name method path = ⟨(.ok (), left), [event]⟩ ∧
        left.trie.routes? = some routes' ∧ r.Tells left n.routes routes' event := by
  unfold remove
  split
  · exact .inr ⟨r, _, _, rfl, hholds.routes?_eq, tells_nothing rfl (by simp [Event.message])⟩
  · next text htarget =>
    split
    · next e hmalformed => exact .inl ⟨e, rfl⟩
    · next pattern hparse =>
      obtain ⟨found, hfound, hends⟩ := meant?_eq hholds hn pattern
      rw [hfound, Option.getD_some]
      generalize meant n.routes pattern = route at hends
      cases hends with
      | none =>
        exact .inr ⟨r, _, _, rfl, hholds.routes?_eq, tells_nothing rfl (by simp [Event.message])⟩
      | some hends =>
        obtain ⟨left, event, hleft, -⟩ := removeFrom?_takes hholds hn hends pattern.text method
        obtain ⟨routes', hroutes, htells⟩ := (removeFrom?_eq_some hleft).tells hholds hn hends
        simp only [hleft]
        exact .inr ⟨left, event, routes', rfl, hroutes, htells⟩

/-- Whatever was done with a router before, a removal that is not refused reports one event, which
tells what it has done. One that is refused reports nothing and does nothing. -/
theorem remove_reports (notFound notAllowed : H) (steps : List (Step H))
    (name method path : String) :
    ∃ routes, (ran notFound notAllowed steps).trie.routes? = some routes ∧
      match (ran notFound notAllowed steps).remove name method path with
      | ⟨(.error _, left), events⟩ => events = [] ∧ left = ran notFound notAllowed steps
      | ⟨(.ok _, left), events⟩ => ∃ event routes', events = [event] ∧
        left.trie.routes? = some routes' ∧
          (ran notFound notAllowed steps).Tells left routes routes' event := by
  obtain ⟨routes, hkeeps⟩ := (ran_inOrder notFound notAllowed steps).keeps
  generalize ran notFound notAllowed steps = r at hkeeps ⊢
  refine ⟨routes, hkeeps.table, ?_⟩
  obtain ⟨n, hholds, hn, rfl⟩ := hkeeps.exists_tree
  rcases remove_tells hholds hn name method path with ⟨e, hrefused⟩ | ⟨left, event, routes', hdone⟩
  · rw [hrefused]
    exact ⟨rfl, rfl⟩
  · obtain ⟨hleft, hroutes, htells⟩ := hdone
    rw [hleft]
    exact ⟨event, routes', rfl, hroutes, htells⟩

/-- A route goes by its last method, whatever text it was meant by. -/
example : ((after 404 405 [.add "" "GET" "/a/:x" 1]).remove "" "GET" "a/1").events =
    [.removed "/a/1" "GET"] := by decide +kernel

end Router

end Routing
