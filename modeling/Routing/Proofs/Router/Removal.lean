import Routing.Proofs.Router.Meant
import Routing.Proofs.Trie.Walk

/-! What a removal does to the table of routes.

Of the route that is meant one method goes, or all of it, and no other route changes
(`Router.remove_removes`). The registry changes only where a route goes: it drops the path. -/
namespace Routing
open Trie
variable {H : Type}

namespace Router

/-- What a removal takes from a router with these routes where it means one of them. -/
inductive Takes (r : Router H) (routes : List (Route H)) (route : Route H) (method : String) :
    Router H → Prop
  /-- The route has no handler for the method itself. -/
  | nothing : method ≠ "" → route.methods.own? method = none → Takes r routes route method r
  /-- The route has the method, and others. -/
  | one {front back : List (Route H)} {other : String} {methods : Methods H} {trie : Trie H} :
    routes = front ++ route :: back → method ≠ "" → route.methods.own? method ≠ none →
    other ≠ method → route.methods.own? other ≠ none →
    (∀ m, methods.own? m = if m = method then none else route.methods.own? m) →
    trie.routes? = some (front ++ { route with methods } :: back) →
    Takes r routes route method { r with trie }
  /-- All of the route is to go, or the method is its last. -/
  | all {front back : List (Route H)} {trie : Trie H} :
    routes = front ++ route :: back →
    (method ≠ "" → route.methods.own? method ≠ none ∧
      ∀ other, other ≠ method → route.methods.own? other = none) →
    trie.routes? = some (front ++ back) →
    Takes r routes route method { r with trie, registry := r.registry.dropPath route.path }

/-- What comes of a removal from a router with these routes. -/
inductive Removes (r : Router H) (routes : List (Route H)) (name method path : String) :
    Except Error Unit × Router H → Prop
  /-- There is no path, and the name has no pattern. -/
  | unbound : path = "" → r.registry.names.lookup name = none →
    Removes r routes name method path (.ok (), r)
  | malformed {text : String} {e : Error} : r.Targets name path text →
    Pattern.parse text = .error e → Removes r routes name method path (.error e, r)
  | missing {text : String} {pattern : Pattern} : r.Targets name path text →
    Pattern.parse text = .ok pattern → meant routes pattern = none →
    Removes r routes name method path (.ok (), r)
  | route {text : String} {pattern : Pattern} {route : Route H} {left : Router H} :
    r.Targets name path text → Pattern.parse text = .ok pattern →
    meant routes pattern = some route → r.Takes routes route method left →
    Removes r routes name method path (.ok (), left)

section removes
variable {r : Router H} {routes : List (Route H)} {name method path text : String}
  {result : Except Error Unit × Router H} (h : r.Removes routes name method path result)
  (htarget : r.Targets name path text) {pattern : Pattern}
  (hparse : Pattern.parse text = .ok pattern)
include h htarget hparse

theorem Removes.takes {route : Route H} (hmeant : meant routes pattern = some route) :
    ∃ left, result = (.ok (), left) ∧ r.Takes routes route method left := by
  cases h with
  | unbound hpath hname => simp [Targets, hpath, hname] at htarget
  | malformed htext hmalformed =>
    obtain rfl := htarget.unique htext
    cases hparse.symm.trans hmalformed
  | missing htext hsame hmissing =>
    obtain rfl := htarget.unique htext
    obtain rfl := Except.ok.inj (hparse.symm.trans hsame)
    cases hmeant.symm.trans hmissing
  | route htext hsame hroute htakes =>
    obtain rfl := htarget.unique htext
    obtain rfl := Except.ok.inj (hparse.symm.trans hsame)
    obtain rfl := Option.some.inj (hmeant.symm.trans hroute)
    exact ⟨_, rfl, htakes⟩

theorem Removes.stays (hmeant : meant routes pattern = none) : result = (.ok (), r) := by
  cases h with
  | unbound => rfl
  | malformed htext hmalformed =>
    obtain rfl := htarget.unique htext
    cases hparse.symm.trans hmalformed
  | missing => rfl
  | route htext hsame hroute =>
    obtain rfl := htarget.unique htext
    obtain rfl := Except.ok.inj (hparse.symm.trans hsame)
    cases hmeant.symm.trans hroute

end removes

/-! ### At the node -/

section node
variable {r : Router H} {C : Context H} {slot : Slot} {c : Content H}
  {children : List (Trie.Tree H)}

/-- The routes that come before a node and below or behind it. -/
theorem routes_node (C : Context H) (slot : Slot) (c : Content H) (children : List (Trie.Tree H)) :
    (C.plug (.node slot c children)).routes = C.routesBefore ++
      ((c.routeAt (C.above ++ c.text)).toList ++
        (children.flatMap (Tree.routesAt (C.above ++ c.text)) ++ C.routesAfter)) := by
  simp only [C.routes_plug, Tree.routesAt_node, List.append_assoc]

theorem withoutRoute?_eq (h : r.trie.Holds (C.plug (.node slot c children))) :
    ∃ trie, r.withoutRoute? slot = some
        { r with trie, registry := r.registry.dropPath (C.above ++ c.text) } ∧
      trie.routes? = some (C.routesBefore ++
        (children.flatMap (Tree.routesAt (C.above ++ c.text)) ++ C.routesAfter)) := by
  have hnode : r.trie.node? slot = some ⟨c, C.parent, children.map Tree.slot⟩ := h.node?_eq
  have hpath : r.trie.pathOf? slot = some (C.above ++ c.text) := h.pathOf?_eq
  obtain ⟨trie, hprune, hholds⟩ := (h.setContent c.withoutRoute rfl).prune
  refine ⟨trie, ?_, ?_⟩
  · unfold withoutRoute?
    exact Option.bind_eq_some_iff.mpr ⟨_, hpath, Option.bind_eq_some_iff.mpr
      ⟨_, change?_eq hnode _, Option.bind_eq_some_iff.mpr ⟨trie, hprune, rfl⟩⟩⟩
  · rw [hholds.routes?_eq, C.prune_routes, routes_node, Content.routeAt_eq_none rfl]
    rfl

theorem withMethods?_eq (h : r.trie.Holds (C.plug (.node slot c children))) {methods : Methods H}
    (hmethods : methods.isEmpty = false) :
    ∃ trie, r.withMethods? slot methods = some { r with trie } ∧
      trie.routes? = some (C.routesBefore ++
        ⟨C.above ++ c.text, c.name, c.pattern, c.params, methods⟩ ::
          (children.flatMap (Tree.routesAt (C.above ++ c.text)) ++ C.routesAfter)) := by
  have hnode : r.trie.node? slot = some ⟨c, C.parent, children.map Tree.slot⟩ := h.node?_eq
  have hchanged := h.setContent { c with methods } rfl
  have hroute : ({ c with methods } : Content H).hasRoute = true := by
    simp [Content.hasRoute, hmethods]
  have hroutes := hchanged.routes?_eq
  rw [routes_node, Content.routeAt_of_hasRoute hroute] at hroutes
  refine ⟨_, ?_, hroutes⟩
  rw [withMethods?, change?_eq hnode]
  rfl

end node

/-- The node of a route, with the tree around it. -/
theorem exists_plug_of_ends {n : Trie.Tree H} (hn : Formed n) {slot : Slot} {route : Route H}
    (hends : n.Ends slot route) : ∃ C c children, n = Context.plug C (.node slot c children) ∧
      route = ⟨C.above ++ c.text, c.name, c.pattern, c.params, c.methods⟩ ∧
      n.routes = C.routesBefore ++
        route :: (children.flatMap (Tree.routesAt (C.above ++ c.text)) ++ C.routesAfter) ∧
      c.methods.Ordered := by
  obtain ⟨cell, hcell, rfl, hroute⟩ := hends
  obtain ⟨C, ⟨slot, c, children⟩, rfl, rfl⟩ := Context.exists_plug (C := .hole) hcell
  have hhas := (Content.routeAt_eq_some.mp hroute).1
  refine ⟨C, c, children, rfl, (Content.routeAt_eq_some.mp hroute).2, ?_, ?_⟩
  · have hat : c.routeAt (C.above ++ c.text) = some route := hroute
    have hsplit := routes_node C slot c children
    rw [hat] at hsplit
    exact hsplit
  · exact ((hn.of_route hcell hhas).1 _ hcell).content.methods

/-- A removal from the node of a route takes the method, or with the last one the route. -/
theorem removeFrom?_takes {r : Router H} {n : Trie.Tree H} (hholds : r.trie.Holds n)
    (hn : Formed n) {slot : Slot} {route : Route H} (hends : n.Ends slot route)
    (pattern method : String) : ∃ left event,
      r.removeFrom? slot pattern method = some (left, event) ∧
        r.Takes n.routes route method left := by
  obtain ⟨C, c, children, rfl, hfields, hsplit, hordered⟩ := exists_plug_of_ends hn hends
  have hnode : r.trie.node? slot = some ⟨c, C.parent, children.map Tree.slot⟩ := hholds.node?_eq
  have hmethods : route.methods = c.methods := by rw [hfields]
  obtain ⟨trie, hwithout, hleft⟩ := withoutRoute?_eq hholds
  rw [show C.above ++ c.text = route.path by rw [hfields]] at hwithout
  rw [removeFrom?]
  split
  · next hall =>
    rw [hwithout]
    exact ⟨_, _, rfl, .all hsplit (fun hne => absurd hall hne) hleft⟩
  · next hone =>
    rw [hnode]
    simp only [Option.bind_eq_bind, Option.bind_some]
    split
    · next hmissing =>
      refine ⟨_, _, rfl, .nothing hone ?_⟩
      rw [hmethods]
      exact Methods.erase?_eq_none_iff.mp hmissing
    · next methods herase =>
      have hown : route.methods.own? method ≠ none := by
        rw [hmethods, Ne, ← Methods.erase?_eq_none_iff, herase]
        exact Option.some_ne_none _
      have hothers (other : String) : methods.own? other =
          if other = method then none else route.methods.own? other := by
        rw [hmethods]
        exact Methods.own?_erase? herase other
      have hempty := (hordered.erase herase).isEmpty_iff
      split
      · next hlast =>
        rw [hwithout]
        refine ⟨_, _, rfl, .all hsplit (fun _ => ⟨hown, fun other hne => ?_⟩) hleft⟩
        have hnone := hempty.mp hlast other
        rwa [hothers, if_neg hne] at hnone
      · next hmore =>
        obtain ⟨other, hother⟩ := not_forall.mp (mt hempty.mpr hmore)
        obtain ⟨hne, hsome⟩ : other ≠ method ∧ route.methods.own? other ≠ none := by
          simpa [hothers] using hother
        obtain ⟨trie, hwith, hchanged⟩ := withMethods?_eq hholds (Bool.eq_false_iff.mpr hmore)
        rw [hwith]
        refine ⟨_, _, rfl, .one hsplit hone hown hne hsome hothers ?_⟩
        rw [hchanged, hfields]

/-- A removal touches the route that is meant, and no other. -/
theorem remove_removes {r : Router H} {n : Trie.Tree H} (hholds : r.trie.Holds n) (hn : Formed n)
    (name method path : String) :
    r.Removes n.routes name method path (r.remove name method path).value := by
  unfold remove
  split
  · next hunbound =>
    obtain ⟨hpath, hname⟩ := target?_eq_none_iff.mp hunbound
    exact .unbound hpath hname
  · next text htarget =>
    rw [target?_eq_some_iff] at htarget
    split
    · next e hmalformed => exact .malformed htarget hmalformed
    · next pattern hparse =>
      obtain ⟨found, hfound, hends⟩ := meant?_eq hholds hn pattern
      rw [hfound, Option.getD_some]
      generalize hmeant : meant n.routes pattern = route at hends
      cases hends with
      | none => exact .missing htarget hparse hmeant
      | some hends =>
        obtain ⟨left, event, hleft, htakes⟩ :=
          removeFrom?_takes hholds hn hends pattern.text method
        simp only [hleft]
        exact .route htarget hparse hmeant htakes

end Router

end Routing
