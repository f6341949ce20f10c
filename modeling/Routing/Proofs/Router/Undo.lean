import Routing.Proofs.Router.Canonical

/-! A removal undoes an addition.

A pattern that is put in where there was no route may split nodes anywhere in the trie, and takes a
new entry in the registry. Taken out again, by its text, by its method or by its name, it leaves
no trace but the most parameters seen (`Router.remove_restores`). -/
namespace Routing
open Trie
variable {H : Type}

namespace Router

/-- The removals that take back an addition of a pattern's text under a name and a method: by the
text, by the text and the method, and by the name. -/
inductive Undoes (name method text : String) : String → String → String → Prop
  | text : Undoes name method text "" "" text
  | method : method ≠ "" → Undoes name method text "" method text
  | name : name ≠ "" → Undoes name method text name "" ""

/-- The table without a route. -/
theorem filter_path_ne {front back : List (Route H)} {route : Route H}
    (h : ((front ++ route :: back).map Route.path).Nodup) :
    (front ++ route :: back).filter (·.path ≠ route.path) = front ++ back := by
  have hothers := path_ne_of_nodup h
  rw [List.forall_mem_append] at hothers
  rw [List.filter_append, List.filter_cons_of_neg (by simp),
    List.filter_eq_self.mpr fun other hother => decide_eq_true (hothers.1 other hother),
    List.filter_eq_self.mpr fun other hother => decide_eq_true (hothers.2 other hother)]

/-- A route stands in one place of a table only. -/
theorem append_eq_of_split {front back front' back' : List (Route H)} {route : Route H}
    (h : ((front ++ route :: back).map Route.path).Nodup)
    (heq : front ++ route :: back = front' ++ route :: back') :
    front' ++ back' = front ++ back := by
  rw [← filter_path_ne h, heq]
  rw [heq] at h
  exact (filter_path_ne h).symm

/-- A route with a method only goes as a whole. -/
theorem Takes.undo {r left : Router H} {front back : List (Route H)} {new : Route H}
    {name method method' : String} {pattern : Pattern} {handler : H}
    (h : r.Takes (front ++ new :: back) new method' left)
    (hnodup : ((front ++ new :: back).map Route.path).Nodup)
    (hentered : Route.Entered none new name method pattern handler)
    (hmethod : method' = "" ∨ method' = method) :
    ∃ trie, left = { r with trie, registry := r.registry.dropPath pattern.path } ∧
      trie.routes? = some (front ++ back) := by
  have hown : ∀ m, new.methods.own? m = if m = method then some handler else none :=
    hentered.methods
  cases h with
  | nothing hne hnone =>
    rw [hown, if_pos (hmethod.resolve_left hne)] at hnone
    cases hnone
  | one _ hne _ hother hsome _ _ =>
    rw [hown, if_neg fun heq => hother (heq.trans (hmethod.resolve_left hne).symm)] at hsome
    exact (hsome rfl).elim
  | all hsplit _ htable =>
    rw [hentered.path]
    exact ⟨_, rfl, by rw [htable, append_eq_of_split hnodup hsplit]⟩

section fresh
variable {r : Router H} {routes : List (Route H)} (hkeeps : r.Keeps routes)
  {name path : String} {pattern : Pattern} (hparse : Pattern.parse path = .ok pattern)
  (haccept : r.registry.accept name pattern = .ok ()) (method : String) (handler : H)
include hkeeps hparse haccept

/-- Where there was no route a new one is put in. -/
theorem Keeps.enter_fresh (hfresh : ∀ route ∈ routes, route.path ≠ pattern.path) :
    ∃ front back new, routes = front ++ back ∧
      Route.Entered none new name method pattern handler ∧
      (r.enter name method pattern handler).Keeps (front ++ new :: back) := by
  obtain ⟨front, back, old, new, rfl, hentered, hadded⟩ :=
    hkeeps.enter hparse haccept method handler
  cases old with
  | none =>
    rw [List.append_assoc, List.singleton_append] at hadded
    exact ⟨front, back, new, by simp, hentered, hadded⟩
  | some route => exact (hfresh route (by simp) (hentered.kept route rfl).1).elim

/-- What takes an addition back is aimed at its pattern. -/
theorem Keeps.target_undoes {name' method' path' : String}
    (h : Undoes name method pattern.text name' method' path') :
    (r.enter name method pattern handler).Targets name' path' pattern.text := by
  cases h with
  | text | method => exact .inl ⟨(Pattern.parse_text hparse).2, rfl⟩
  | name hname =>
    have hbound := Registry.path?_record hkeeps.agrees.toSound haccept name
    exact .inr ⟨rfl, hbound.trans (if_pos ⟨rfl, hname⟩)⟩

end fresh

end Router

/-- An addition where there was no route is undone by the removals that take it back. -/
theorem Router.remove_restores {notFound notAllowed : H} {calls : List (Call H)}
    {name method path : String} {handler : H} {count : Nat} {entered : Router H}
    {pattern : Pattern} {routes : List (Route H)} {name' method' path' : String}
    (hadd : ((after notFound notAllowed calls).add name method path handler).value =
      (.ok count, entered))
    (hparse : Pattern.parse path = .ok pattern)
    (htable : (after notFound notAllowed calls).trie.routes? = some routes)
    (hfresh : ∀ route ∈ routes, route.path ≠ pattern.path)
    (hundoes : Undoes name method pattern.text name' method' path') :
    ∃ left, (entered.remove name' method' path').value = (.ok (), left) ∧
      left.outline? = (after notFound notAllowed calls).outline? ∧
      left.list = (after notFound notAllowed calls).list ∧
      left.registry = (after notFound notAllowed calls).registry ∧
      left.isEmpty = (after notFound notAllowed calls).isEmpty ∧
      left.trie.nodeCount = (after notFound notAllowed calls).trie.nodeCount := by
  obtain ⟨kept, hkeeps⟩ := after_keeps notFound notAllowed calls
  obtain rfl := Option.some.inj (hkeeps.table.symm.trans htable)
  generalize after notFound notAllowed calls = r at *
  obtain ⟨same, hsame, haccept, rfl, rfl⟩ := add_eq_ok_iff.mp hadd
  obtain rfl := Except.ok.inj (hparse.symm.trans hsame)
  obtain ⟨htext, -⟩ := Pattern.parse_text hparse
  obtain ⟨front, back, new, rfl, hentered, hadded⟩ :=
    hkeeps.enter_fresh hparse haccept method handler hfresh
  have htarget := hkeeps.target_undoes hparse haccept method handler hundoes
  -- The new route is the one that is meant, and it goes as a whole.
  have hmeant : meant (front ++ new :: back) pattern = some new :=
    meant_of_path hadded.nodup_paths (by simp) hentered.path
  have hmethod : method' = "" ∨ method' = method := by
    cases hundoes <;> simp
  obtain ⟨left, hleft, htakes⟩ := (hadded.removes name' method' path').takes htarget htext hmeant
  have hvalid := call_valid hadded.valid (.remove name' method' path')
  rw [call, hleft] at hvalid
  obtain ⟨routes', hkept⟩ := hadded.takes hvalid htakes
  obtain ⟨trie, rfl, htable⟩ := htakes.undo hadded.nodup_paths hentered hmethod
  obtain rfl := Option.some.inj (hkept.table.symm.trans htable)
  obtain ⟨houtline, hlist, hempty, hcount⟩ := hkept.views hkeeps
  refine ⟨_, hleft, houtline, hlist, ?_, hempty, hcount⟩
  -- No pattern of that path was registered before, or there would have been a route.
  apply Registry.dropPath_record hkeeps.agrees.toSound htext haccept
  intro text entry hentry heq
  obtain ⟨route, hroute, hpath⟩ := hkeeps.agrees.live text entry hentry
  exact hfresh route hroute (hpath.trans heq)

/-- A route that splits a node, taken back by its name. -/
theorem Router.remove_restores_named : ∃ entered left,
    ((after 404 405 [.add "" "GET" "/users" 1]).add "user" "GET" "/use/:id" 2).value =
        (.ok 1, entered) ∧
      (entered.remove "user" "" "").value = (.ok (), left) ∧
      left.outline? = (after 404 405 [.add "" "GET" "/users" 1]).outline? ∧
      left.list = (after 404 405 [.add "" "GET" "/users" 1]).list ∧
      left.registry = (after 404 405 [.add "" "GET" "/users" 1]).registry := by
  let pattern : Pattern :=
    ⟨⟨"/use/:".toList, ["id"], [⟨.static, 5⟩], .param⟩, "/use/:id"⟩
  have hparse : Pattern.parse "/use/:id" = .ok pattern := by decide +kernel
  have htable : (after 404 405 [.add "" "GET" "/users" 1]).trie.routes? =
      some [⟨"/users".toList, "", "/users", [], ⟨[("GET", 1)], none⟩⟩] := by decide +kernel
  have haccept : (after 404 405 [.add "" "GET" "/users" 1]).registry.accept "user" pattern =
      .ok () := by decide +kernel
  have hadd : ((after 404 405 [.add "" "GET" "/users" 1]).add "user" "GET" "/use/:id" 2).value =
      (.ok 1, _) := add_eq_ok_iff.mpr ⟨pattern, hparse, haccept, rfl, rfl⟩
  obtain ⟨left, hleft, houtline, hlist, hregistry, -, -⟩ :=
    remove_restores hadd hparse htable (by decide) (.name (by decide))
  exact ⟨_, left, hadd, hleft, houtline, hlist, hregistry⟩

end Routing
