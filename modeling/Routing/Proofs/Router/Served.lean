import Routing.Proofs.Pattern.Pieces
import Routing.Proofs.Router.Removal
import Routing.Proofs.Router.Search

/-! Removing what a lookup serves.

Where no route has the path of a pattern, a removal looks the pattern's text up as if it were a
path that is asked for. For text without placeholders this is what a lookup of it does, and a route
with just this path is the first that matches anyway (`Router.remove_served`). A pattern with
placeholders is looked up in the same way, with its marks taken for text, so a route that matches
them goes in its place (`Router.remove_unknown`). -/
namespace Routing
open Text Trie
variable {H : Type}

/-- Literal text means the first of the routes that match it. -/
theorem meant_literal {routes : List (Route H)} (h : (routes.map Route.path).Nodup)
    {pattern : Pattern} (htext : pattern.text.toList = pattern.path)
    (hliteral : Literal pattern.path) :
    meant routes pattern = (best (matching routes pattern.path)).map Prod.fst := by
  rw [meant, htext]
  cases hfind : routes.find? fun route => route.path == pattern.path with
  | none => rw [Option.none_or]
  | some route =>
    obtain ⟨hroute, hpath⟩ := (find?_path_eq_some h).mp hfind
    rw [← hpath] at hliteral ⊢
    rw [best_of_path h hroute hliteral]
    rfl

/-! ### The node that a search ends at -/

/-- The route that a node stands for where a path ends at it: its own, or else that of the
wildcard below. -/
inductive Trie.StandsFor (t : Trie H) (slot : Slot) (route : Route H) : Prop
  | own : t.routeOf? slot = some (some route) → StandsFor t slot route
  | wildcard {below : Slot} : t.routeOf? slot = some none →
    t.childOfKind? slot .wildcard = some (some below) → t.routeOf? below = some (some route) →
    StandsFor t slot route

theorem Trie.Part.standsFor {t : Trie H} {whole m : Tree H} {D : Context H} (h : Part whole D m)
    (hholds : t.Holds whole) {route : Route H} {more : List (List Char)}
    (hanswers : Answers m (D.above ++ m.content.text) route more) : t.StandsFor m.slot route := by
  have hown : t.routeOf? m.slot = some (m.content.routeAt (D.above ++ m.content.text)) :=
    hholds.routeOf?_eq (h.mem_all Tree.top_mem)
  cases hanswers with
  | own hat =>
    rw [hat] at hown
    exact .own hown
  | @wildcard x _ hnone hfind hat =>
    rw [Content.routeAt_eq_none hnone] at hown
    obtain ⟨hx, -⟩ := Tree.child?_mem hfind
    obtain ⟨E, hE, habove, -⟩ := h.child hx
    have hbelow : t.routeOf? x.slot = some (x.content.routeAt (E.above ++ x.content.text)) :=
      hholds.routeOf?_eq (hE.mem_all Tree.top_mem)
    rw [habove, hat] at hbelow
    rw [h.plug] at hholds
    have hchild : t.childOfKind? m.slot .wildcard =
        some ((m.child? (·.kind == Kind.wildcard)).map Tree.slot) := hholds.part.child?_eq _
    rw [hfind] at hchild
    exact .wildcard hown hchild hbelow

namespace Router

/-! ### Text without placeholders -/

/-- What a removal leaves of a router with these routes, if the search for a text ends at this
node. -/
inductive TakesServed (r : Router H) (routes : List (Route H)) (text : List Char) :
    Option Slot → Router H → Prop
  | nothing : best (matching routes text) = none → TakesServed r routes text none r
  | route {slot : Slot} {route : Route H} {texts : List (List Char)} {front back : List (Route H)}
    {trie : Trie H} : r.trie.StandsFor slot route →
    best (matching routes text) = some (route, texts) →
    (∀ other ∈ routes, other.path = text → other = route) → routes = front ++ route :: back →
    trie.routes? = some (front ++ back) →
    TakesServed r routes text (some slot)
      { r with trie, registry := r.registry.dropPath route.path }

/-- Without a method all of the route goes. -/
theorem Takes.all_of_empty {r left : Router H} {routes : List (Route H)} {route : Route H}
    (h : r.Takes routes route "" left) : ∃ front back trie, routes = front ++ route :: back ∧
      trie.routes? = some (front ++ back) ∧
      left = { r with trie, registry := r.registry.dropPath route.path } := by
  cases h with
  | nothing hne => exact (hne rfl).elim
  | one _ hne => exact (hne rfl).elim
  | all hsplit _ hroutes => exact ⟨_, _, _, hsplit, hroutes, rfl⟩

/-- The route that goes is the one that the search has ended at. -/
theorem Takes.served {r left : Router H} {n m : Trie.Tree H} (hholds : r.trie.Holds n)
    (hn : Formed n) {text : List Char} (hliteral : Literal text) {texts : List (List Char)}
    (hsettles : Settles n n.routes [] text (some (m, texts))) {route : Route H}
    {captured : List (List Char)} (hbest : best (matching n.routes text) = some (route, captured))
    (h : r.Takes n.routes route "" left) : r.TakesServed n.routes text (some m.slot) left := by
  obtain ⟨D, first, more, hplug, hanswers, hwins⟩ := hsettles
  obtain ⟨rfl, rfl⟩ := Prod.mk.inj (Option.some.inj (hwins.best_eq.symm.trans hbest))
  obtain ⟨front, back, trie, hsplit, hroutes, rfl⟩ := h.all_of_empty
  have hpart := hn.part (List.ne_nil_of_mem hwins.mem)
  have hm : Part n D m := ⟨hplug, hpart.all_sound, hpart.all_tight⟩
  refine .route (hm.standsFor hholds hanswers) hbest (fun other hother hsame => ?_) hsplit hroutes
  subst hsame
  have hown := best_of_path hn.nodup_route_paths hother hliteral
  exact congrArg Prod.fst (Option.some.inj (hown.symm.trans hbest))

/-- A removal by text without placeholders takes the route that the search of a lookup ends at,
and nothing where that search finds none. A search that only counts its captures ends where one
that keeps them does. -/
theorem remove_served (notFound notAllowed : H) (calls : List (Call H)) (params : Params)
    {path : String} (hne : path ≠ "") (hcolon : ':' ∉ path.toList) (hstar : '*' ∉ path.toList) :
    ∃ routes found captured left,
      (after notFound notAllowed calls).trie.routes? = some routes ∧
      (after notFound notAllowed calls).trie.search? (Pattern.normalize path).toList
        params.clear = some (found, captured) ∧
      ((after notFound notAllowed calls).remove "" "" path).value = (.ok (), left) ∧
      (after notFound notAllowed calls).TakesServed routes (Pattern.normalize path).toList
        found left ∧
      ∀ text, ∃ found captured,
        (after notFound notAllowed calls).trie.search? text params.clear =
          some (found, captured) ∧
        (after notFound notAllowed calls).trie.search? text 0 =
          some (found, captured.size) := by
  obtain ⟨n, hholds, hn⟩ := after_valid notFound notAllowed calls
  generalize after notFound notAllowed calls = r at hholds ⊢
  have hclear : Sink.size params.clear = 0 := rfl
  have hcounts (text : List Char) : ∃ found captured,
      r.trie.search? text params.clear = some (found, captured) ∧
      r.trie.search? text 0 = some (found, captured.size) := by
    obtain ⟨found, captured, count, hsearch, hsearch', hcount⟩ :=
      hholds.search?_sinks hn text hclear (show Sink.size 0 = 0 from rfl)
    obtain rfl : count = captured.size := hcount
    exact ⟨found, captured, hsearch, hsearch'⟩
  obtain ⟨pattern, hparse, htext, hpath, hliteral⟩ := Pattern.parse_literal ⟨hcolon, hstar⟩
  have hmeant := meant_literal hn.nodup_route_paths (by rw [htext, hpath]) (hpath ▸ hliteral)
  rw [hpath] at hmeant
  have hremoves := remove_removes hholds hn "" "" path
  have htarget : r.Targets "" path path := .inl ⟨hne, rfl⟩
  have hsearch := hholds.search?_eq_enter hn (Pattern.normalize path).toList hclear
  have hsettles := hn.settles (Pattern.normalize path).toList
  generalize (Pattern.normalize path).toList = text at *
  cases hfound : n.enter text with
  | none =>
    rw [hfound] at hsearch hsettles
    have hbest : best (matching n.routes text) = none := by
      rw [matching_eq_nil hsettles]
      rfl
    rw [hbest] at hmeant
    exact ⟨n.routes, none, _, r, hholds.routes?_eq, hsearch,
      hremoves.stays htarget hparse hmeant, .nothing hbest, hcounts⟩
  | some found =>
    obtain ⟨m, texts⟩ := found
    rw [hfound] at hsearch hsettles
    have ⟨_, route, more, _, _, hwins⟩ := hsettles
    rw [hwins.best_eq] at hmeant
    obtain ⟨left, hleft, htakes⟩ := hremoves.takes htarget hparse hmeant
    exact ⟨n.routes, some m.slot, _, left, hholds.routes?_eq, hsearch, hleft,
      htakes.served hholds hn hliteral hsettles hwins.best_eq, hcounts⟩

/-- A path that ends right before a wildcard takes the wildcard's route. -/
theorem remove_served_wildcard : ∃ left,
    ((after 404 405 [.add "" "GET" "/files/*path" 1]).remove "" "" "files/").value =
        (.ok (), left) ∧
      left.trie.routes? = some [] := by
  obtain ⟨routes, found, captured, left, hroutes, hsearch, hleft, htakes, -⟩ :=
    remove_served 404 405 [.add "" "GET" "/files/*path" 1] .empty
      (show "files/" ≠ "" by decide) (by decide) (by decide)
  have htable : (after 404 405 [.add "" "GET" "/files/*path" 1]).trie.routes? =
      some [⟨"/files/*".toList, "", "/files/*path", ["path"], ⟨[("GET", 1)], none⟩⟩] := by
    decide +kernel
  have hfound : ((after 404 405 [.add "" "GET" "/files/*path" 1]).trie.search?
      (Pattern.normalize "files/").toList Params.empty).map (·.1.isSome) = some true := by
    decide +kernel
  obtain rfl := Option.some.inj (hroutes.symm.trans htable)
  refine ⟨left, hleft, ?_⟩
  cases htakes with
  | nothing =>
    rw [show Params.clear .empty = .empty from rfl] at hsearch
    rw [hsearch] at hfound
    cases hfound
  | route _ _ _ hsplit hgone =>
    obtain ⟨rfl, h⟩ | ⟨rest, -, h⟩ := List.cons_eq_append_iff.mp hsplit
    · obtain rfl := (List.cons.inj h).2
      exact hgone
    · cases rest <;> cases h

/-! ### Patterns that no route has -/

/-- A removal leaves the router as it was where the route has no handler for the method, and only
there. -/
theorem Takes.eq_iff {r left : Router H} {routes : List (Route H)} {route : Route H}
    {method : String} (hroutes : r.trie.routes? = some routes)
    (h : r.Takes routes route method left) :
    left = r ↔ method ≠ "" ∧ route.methods.own? method = none := by
  cases h with
  | nothing hne hown => exact ⟨fun _ => ⟨hne, hown⟩, fun _ => rfl⟩
  | @one front back other methods trie hsplit hne hown _ _ hmethods hleft =>
    refine ⟨fun heq => ?_, fun h => (hown h.2).elim⟩
    rw [show trie = r.trie from congrArg Router.trie heq, hroutes, hsplit, Option.some.injEq,
      List.append_cancel_left_eq, List.cons.injEq] at hleft
    have hsame : route.methods = methods := congrArg Route.methods hleft.1
    rw [hsame, hmethods, if_pos rfl] at hown
    exact (hown rfl).elim
  | @all front back trie hsplit hlast hleft =>
    refine ⟨fun heq => ?_, fun h => ((hlast h.1).1 h.2).elim⟩
    rw [show trie = r.trie from congrArg Router.trie heq, hroutes, hsplit, Option.some.injEq,
      List.append_cancel_left_eq] at hleft
    exact (List.cons_ne_self _ _ hleft).elim

/-- A pattern that no route has leaves the router as it was if no route matches its text either.
One that does match loses the method, or all its methods. -/
theorem remove_unknown (notFound notAllowed : H) (calls : List (Call H)) (method : String)
    {path : String} {pattern : Pattern} {routes : List (Route H)} (hne : path ≠ "")
    (hparse : Pattern.parse path = .ok pattern)
    (hroutes : (after notFound notAllowed calls).trie.routes? = some routes)
    (hunknown : ∀ route ∈ routes, route.path ≠ pattern.path) :
    ∃ left, ((after notFound notAllowed calls).remove "" method path).value = (.ok (), left) ∧
      match best (matching routes pattern.text.toList) with
      | none => left = after notFound notAllowed calls
      | some (route, _) => (after notFound notAllowed calls).Takes routes route method left ∧
        (left = after notFound notAllowed calls ↔
          method ≠ "" ∧ route.methods.own? method = none) := by
  obtain ⟨n, hholds, hn⟩ := after_valid notFound notAllowed calls
  obtain rfl := Option.some.inj (hholds.routes?_eq.symm.trans hroutes)
  have hremoves := remove_removes hholds hn "" method path
  have htarget : (after notFound notAllowed calls).Targets "" path path := .inl ⟨hne, rfl⟩
  have hnone : (n.routes.find? fun route => route.path == pattern.path) = none :=
    List.find?_eq_none.mpr fun route hroute heq => hunknown route hroute (eq_of_beq heq)
  have hmeant : meant n.routes pattern =
      (best (matching n.routes pattern.text.toList)).map Prod.fst := by
    rw [meant, hnone, Option.none_or]
  cases hbest : best (matching n.routes pattern.text.toList) with
  | none =>
    rw [hbest] at hmeant
    exact ⟨_, hremoves.stays htarget hparse hmeant, rfl⟩
  | some found =>
    rw [hbest] at hmeant
    obtain ⟨left, hleft, htakes⟩ := hremoves.takes htarget hparse hmeant
    exact ⟨left, hleft, htakes, htakes.eq_iff hroutes⟩

/-- A node in between has no route, and no other route matches. -/
theorem remove_unknown_between :
    ((after 404 405 [.add "" "GET" "/users/:id/posts" 1]).remove "" "" "/users/:id").value =
      (.ok (), after 404 405 [.add "" "GET" "/users/:id/posts" 1]) := by
  let pattern : Pattern :=
    ⟨⟨"/users/:".toList, ["id"], [⟨.static, 7⟩], .param⟩, "/users/:id"⟩
  have hparse : Pattern.parse "/users/:id" = .ok pattern := by decide +kernel
  have htable : (after 404 405 [.add "" "GET" "/users/:id/posts" 1]).trie.routes? =
      some [⟨"/users/:/posts".toList, "", "/users/:id/posts", ["id"], ⟨[("GET", 1)], none⟩⟩] := by
    decide +kernel
  have hbest : best (matching [(⟨"/users/:/posts".toList, "", "/users/:id/posts", ["id"],
      ⟨[("GET", 1)], none⟩⟩ : Route Nat)] pattern.text.toList) = none := by decide +kernel
  obtain ⟨left, hleft, hkept⟩ := remove_unknown 404 405 [.add "" "GET" "/users/:id/posts" 1] ""
    (show "/users/:id" ≠ "" by decide) hparse htable (by decide)
  rw [hbest] at hkept
  rw [hleft, hkept]

/-- A wildcard matches the text of a pattern that no route has, and goes instead. -/
theorem remove_unknown_overlap : ∃ pattern routes left,
    Pattern.parse "/users/:id" = .ok pattern ∧
      (after 404 405 [.add "" "GET" "/users/:id/posts" 1, .add "" "GET" "/*" 2]).trie.routes? =
        some routes ∧
      (∀ route ∈ routes, route.path ≠ pattern.path) ∧
      ((after 404 405 [.add "" "GET" "/users/:id/posts" 1, .add "" "GET" "/*" 2]).remove "" ""
        "/users/:id").value = (.ok (), left) ∧
      left ≠ after 404 405 [.add "" "GET" "/users/:id/posts" 1, .add "" "GET" "/*" 2] := by
  generalize hr : after 404 405 [.add "" "GET" "/users/:id/posts" 1, .add "" "GET" "/*" 2] = r
  have hparse : Pattern.parse "/users/:id" = .ok
      ⟨⟨"/users/:".toList, ["id"], [⟨.static, 7⟩], .param⟩, "/users/:id"⟩ := by
    decide +kernel
  have htable : r.trie.routes? = some
      [⟨"/users/:/posts".toList, "", "/users/:id/posts", ["id"], ⟨[("GET", 1)], none⟩⟩,
        ⟨"/*".toList, "", "/*", ["*"], ⟨[("GET", 2)], none⟩⟩] := by
    rw [← hr]
    decide +kernel
  have hok : (r.remove "" "" "/users/:id").value.1 = .ok () := by
    rw [← hr]
    decide +kernel
  have hremoved : (r.remove "" "" "/users/:id").value.2.trie.routes? = some
      [⟨"/users/:/posts".toList, "", "/users/:id/posts", ["id"], ⟨[("GET", 1)], none⟩⟩] := by
    rw [← hr]
    decide +kernel
  refine ⟨_, _, (r.remove "" "" "/users/:id").value.2, hparse, htable, by decide,
    Prod.ext hok rfl, fun heq => ?_⟩
  rw [heq] at hremoved
  cases htable.symm.trans hremoved

end Router

end Routing
