import Mathlib.Data.List.Induction
import Routing.Proofs.Router.Lookup
import Routing.Proofs.Router.Registered

/-! Routers built anew.

Nothing of a router's past is in its lookups: whatever was added and removed, it answers as a router
does to which its routes have been added, method by method and in any order
(`Router.Keeps.find_rebuilt`). So a removal answers for all that are left as if there had never been
another (`Router.remove_routes`). -/
namespace Routing
open Trie
variable {H : Type}

/-! ### Lookups do not depend on the order of the table -/

section order
variable {routes routes' : List (Route H)}

/-- The first of the routes that match comes before all others, if any match. -/
def Firsts (routes : List (Route H)) : Prop := ∀ path,
  (∀ route ∈ routes, route.behind? [] path = none) ∨ ∃ route texts, Wins routes [] path route texts

theorem Trie.Formed.firsts {n : Tree H} (h : Formed n) : Firsts n.routes := by
  intro path
  cases h with
  | bare => exact .inl fun route hroute => (List.not_mem_nil hroute).elim
  | full hsound htight =>
    have hsettles := Tree.settles hsound htight path
    cases hfound : n.enter path with
    | none =>
      rw [hfound] at hsettles
      exact .inl hsettles
    | some found =>
      rw [hfound] at hsettles
      obtain ⟨-, route, more, -, -, hwins⟩ := hsettles
      exact .inr ⟨route, _, hwins⟩

variable (hmem : ∀ route, route ∈ routes ↔ route ∈ routes')
include hmem

theorem best_congr (h : Firsts routes) (path : List Char) :
    best (matching routes path) = best (matching routes' path) := by
  rcases h path with hnone | ⟨route, texts, hwins⟩
  · have hnone' : ∀ route ∈ routes', route.behind? [] path = none := fun route hroute =>
      hnone route ((hmem route).mpr hroute)
    rw [matching_eq_nil hnone, matching_eq_nil hnone']
  · have hwins' : Wins routes' [] path route texts :=
      ⟨(hmem route).mp hwins.mem, hwins.captured,
        fun other hother => hwins.first other ((hmem other).mpr hother)⟩
    rw [hwins.best_eq, hwins'.best_eq]

theorem lookup_congr (h : Firsts routes) (hnodup : (routes.map Route.path).Nodup)
    (hnodup' : (routes'.map Route.path).Nodup) (notFound notAllowed : H) (method path : String) :
    lookup notFound notAllowed routes method path =
      lookup notFound notAllowed routes' method path := by
  have hfind (path : List Char) : (routes.find? fun other => other.path == path) =
      routes'.find? fun other => other.path == path := by
    ext route
    rw [find?_path_eq_some hnodup, find?_path_eq_some hnodup', hmem]
  rw [lookup, lookup, best_congr hmem h]
  simp only [hfind]

end order

/-! ### Building a router from its routes -/

/-- The additions that make a route. -/
def Trie.Route.additions (route : Route H) : List (Call H) :=
  route.methods.entries.map fun (method, handler) => .add route.name method route.pattern handler

/-- Some methods of a route. -/
structure Trie.Route.PartOf (part whole : Route H) : Prop where
  path : part.path = whole.path
  name : part.name = whole.name
  pattern : part.pattern = whole.pattern
  params : part.params = whole.params
  methods : ∀ m handler, part.methods.own? m = some handler → whole.methods.own? m = some handler

/-- A part with all methods is the whole. -/
theorem Trie.Route.PartOf.eq {part whole : Route H} (h : part.PartOf whole)
    (hmethods : part.methods = whole.methods) : part = whole := by
  obtain ⟨hpath, hname, hpattern, hparams, -⟩ := h
  cases part
  cases whole
  simp_all

/-- Nothing is lost when a method is put in, but for the handler that it had. -/
theorem Trie.Route.Entered.exists_grown {front back : List (Route H)} {old : Option (Route H)}
    {new part : Route H} {name method : String} {pattern : Pattern} {handler : H}
    (h : Route.Entered old new name method pattern handler)
    (hpart : part ∈ front ++ old.toList ++ back) :
    ∃ grown ∈ front ++ [new] ++ back, grown.path = part.path ∧
      ∀ m, grown.methods.own? m = part.methods.own? m ∨
        part.path = pattern.path ∧ m = method ∧ grown.methods.own? m = some handler := by
  simp only [List.mem_append, Option.mem_toList] at hpart
  rcases hpart with (hfront | rfl) | hback
  · exact ⟨part, by simp [hfront], rfl, fun m => .inl rfl⟩
  · have hpath := (h.kept part rfl).1
    refine ⟨new, by simp, h.path.trans hpath.symm, fun m => ?_⟩
    rw [h.methods]
    split
    · next hm => exact .inr ⟨hpath, hm, rfl⟩
    · exact .inl rfl
  · exact ⟨part, by simp [hback], rfl, fun m => .inl rfl⟩

/-- A method of a route that is put in makes a part of it. -/
theorem Trie.Route.Entered.partOf {old : Option (Route H)} {new whole : Route H} {method : String}
    {pattern : Pattern} {handler : H}
    (h : Route.Entered old new whole.name method pattern handler)
    (htext : pattern.text = whole.pattern) (hpath : pattern.path = whole.path)
    (hparams : pattern.params = whole.params) (hold : ∀ part ∈ old, part.PartOf whole)
    (hown : whole.methods.own? method = some handler) : new.PartOf whole := by
  have hmethods : ∀ m found, new.methods.own? m = some found →
      whole.methods.own? m = some found := by
    intro m found hfound
    rw [h.methods] at hfound
    split at hfound
    · next hm => rw [hm, hown, hfound]
    · obtain ⟨part, hpart, hfound⟩ := Option.bind_eq_some_iff.mp hfound
      exact (hold part hpart).methods m found hfound
  cases old with
  | none =>
    obtain ⟨hname, hpattern, hnew⟩ := h.fresh rfl
    exact ⟨h.path.trans hpath, hname, hpattern.trans htext, hnew.trans hparams, hmethods⟩
  | some part =>
    obtain ⟨-, hpattern, hnew, hname⟩ := h.kept part rfl
    have hpart := hold part rfl
    refine ⟨h.path.trans hpath, ?_, hpattern.trans hpart.pattern, hnew.trans hpart.params, hmethods⟩
    rw [hname, hpart.name, ite_self]

namespace Router

/-- What there is of some routes once some of the additions that make them have been done. -/
structure Rebuilding (all : List (Route H)) (done : List (Call H)) (r : Router H)
    (routes : List (Route H)) : Prop where
  keeps : r.Keeps routes
  parts : ∀ part ∈ routes, ∃ whole ∈ all, part.PartOf whole
  reached : ∀ whole ∈ all, ∀ method handler,
    .add whole.name method whole.pattern handler ∈ done →
    whole.methods.own? method = some handler →
    ∃ part ∈ routes, part.path = whole.path ∧ part.methods.own? method = some handler
  registered : ∀ text entry, r.registry.paths.lookup text = some entry →
    ∃ whole ∈ all, whole.pattern = text ∧ whole.name = entry.name

section rebuilding
variable {kept r : Router H} {all routes : List (Route H)} {done : List (Call H)} {whole : Route H}
  (hall : kept.Keeps all) (h : Rebuilding all done r routes) (hwhole : whole ∈ all)
include hall h hwhole

/-- The names do not get into each other's way. -/
theorem Rebuilding.accept {pattern : Pattern} (htext : pattern.text = whole.pattern) :
    r.registry.accept whole.name pattern = .ok () := by
  refine Registry.accept_eq_ok_iff.mpr fun hname => ⟨fun text hbound => ?_, fun entry hentry => ?_⟩
  · obtain ⟨entry, hentry, hlabel⟩ := (h.keeps.agrees.names _ text hname).mp hbound
    obtain ⟨other, hother, rfl, hsame⟩ := h.registered text entry hentry
    rw [hall.eq_of_name hother hwhole (hsame.trans hlabel) hname, htext]
  · obtain ⟨other, hother, hpattern, hsame⟩ := h.registered _ entry hentry
    rw [htext] at hpattern
    rw [hall.eq_of_pattern hother hwhole hpattern] at hsame
    exact .inr hsame.symm

theorem Rebuilding.recorded_name {pattern : Pattern} (htext : pattern.text = whole.pattern) :
    (r.registry.recorded whole.name pattern).name = whole.name := by
  cases hentry : r.registry.paths.lookup pattern.text with
  | none => simp [Registry.recorded, hentry]
  | some entry =>
    obtain ⟨other, hother, hpattern, hsame⟩ := h.registered _ entry hentry
    rw [htext] at hpattern
    rw [hall.eq_of_pattern hother hwhole hpattern] at hsame
    simp [Registry.recorded, hentry, ← hsame]

/-- A route that is there has come from the one with its path. -/
theorem Rebuilding.partOf {part : Route H} (hpart : part ∈ routes)
    (hpath : part.path = whole.path) : part.PartOf whole := by
  obtain ⟨other, hother, hpartOf⟩ := h.parts part hpart
  rwa [hall.eq_of_path hother hwhole (hpartOf.path.symm.trans hpath)] at hpartOf

theorem Rebuilding.registered_record {pattern : Pattern} (htext : pattern.text = whole.pattern)
    {text : String} {entry : Registry.Entry}
    (hentry : (r.registry.record whole.name pattern).paths.lookup text = some entry) :
    ∃ whole ∈ all, whole.pattern = text ∧ whole.name = entry.name := by
  rw [Registry.lookup_record] at hentry
  split at hentry
  · next hsame =>
    obtain rfl := Option.some.inj hentry
    exact ⟨whole, hwhole, htext.symm.trans hsame.symm, (h.recorded_name hall hwhole htext).symm⟩
  · exact h.registered text entry hentry

/-- One more method. -/
theorem Rebuilding.step {method : String} {handler : H}
    (hown : whole.methods.own? method = some handler) : ∃ routes',
      Rebuilding all (done ++ [.add whole.name method whole.pattern handler])
        (r.call (.add whole.name method whole.pattern handler)) routes' := by
  obtain ⟨pattern, hparse, htext, hpath, hparams⟩ := hall.pattern hwhole
  have haccept := h.accept hall hwhole htext
  obtain ⟨front, back, old, new, rfl, hentered, hkeeps⟩ :=
    h.keeps.enter hparse haccept method handler
  rw [call_add hparse haccept]
  refine ⟨_, hkeeps, fun part hpart => ?_, ?_, fun text entry hentry => ?_⟩
  · rcases Registry.mem_replaced old hpart with rfl | hpart
    · refine ⟨whole, hwhole, hentered.partOf htext hpath hparams (fun part hold => ?_) hown⟩
      exact h.partOf hall hwhole (by simp_all) ((hentered.kept part hold).1.trans hpath)
    · exact h.parts part hpart
  · intro other hother m found hdone hfound
    rw [List.mem_append, List.mem_singleton] at hdone
    rcases hdone with hbefore | hlast
    · obtain ⟨part, hpart, hsame, hpartOwn⟩ := h.reached other hother m found hbefore hfound
      obtain ⟨grown, hgrown, hgrownPath, hmethods⟩ := hentered.exists_grown hpart
      refine ⟨grown, hgrown, hgrownPath.trans hsame, ?_⟩
      rcases hmethods m with hkept | ⟨hat, rfl, hnew⟩
      · rw [hkept, hpartOwn]
      · -- The handler put in is the one that was there, for both come from one route.
        obtain rfl := hall.eq_of_path hother hwhole (hsame.symm.trans (hat.trans hpath))
        rw [hnew, ← hown, hfound]
    · obtain ⟨-, rfl, hpattern, rfl⟩ := Call.add.inj hlast
      obtain rfl := hall.eq_of_pattern hother hwhole hpattern
      exact ⟨new, by simp, hentered.path.trans hpath, by rw [hentered.methods, if_pos rfl]⟩
  · exact h.registered_record hall hwhole htext hentry

end rebuilding

theorem mem_additions {route : Route H} (h : route.methods.Ordered) {c : Call H} :
    c ∈ route.additions ↔ ∃ method handler, route.methods.own? method = some handler ∧
      c = .add route.name method route.pattern handler := by
  simp only [Route.additions, List.mem_map, Prod.exists, ← h.lookup_entries,
    Assoc.lookup_eq_some_iff h.nodup_entries, eq_comm]

/-- Additions that make some routes, one after another, make parts of them. -/
theorem rebuilding {kept : Router H} {all : List (Route H)} (hall : kept.Keeps all)
    (notFound notAllowed : H) (done : List (Call H))
    (hdone : ∀ c ∈ done, c ∈ all.flatMap Route.additions) :
    ∃ routes, Rebuilding all done (after notFound notAllowed done) routes := by
  induction done using List.reverseRecOn with
  | nil =>
    refine ⟨[], new_keeps notFound notAllowed, by simp, by simp, ?_⟩
    simp [after, new, Registry.empty]
  | append_singleton done c ih =>
    rw [List.forall_mem_append] at hdone
    obtain ⟨routes, h⟩ := ih hdone.1
    obtain ⟨whole, hwhole, hc⟩ := List.mem_flatMap.mp (hdone.2 c (List.mem_singleton_self c))
    obtain ⟨method, handler, hown, rfl⟩ := (mem_additions (hall.methods hwhole).1).mp hc
    rw [after_concat]
    exact h.step hall hwhole hown

section built
variable {kept r : Router H} {all routes : List (Route H)} {done : List (Call H)}
  (hall : kept.Keeps all) (h : Rebuilding all done r routes)
  (hdone : ∀ c ∈ all.flatMap Route.additions, c ∈ done)
include hall h hdone

/-- No method is missing once all additions have been done. -/
theorem Rebuilding.exists_part {whole : Route H} (hwhole : whole ∈ all) {method : String}
    {handler : H} (hown : whole.methods.own? method = some handler) :
    ∃ part ∈ routes, part.path = whole.path ∧ part.methods.own? method = some handler := by
  have hadded := (mem_additions (hall.methods hwhole).1).mpr ⟨method, handler, hown, rfl⟩
  exact h.reached whole hwhole method handler
    (hdone _ (List.mem_flatMap.mpr ⟨whole, hwhole, hadded⟩)) hown

theorem Rebuilding.eq_of_path {part whole : Route H} (hpart : part ∈ routes)
    (hwhole : whole ∈ all) (hpath : part.path = whole.path) : part = whole := by
  have hpartOf := h.partOf hall hwhole hpart hpath
  refine hpartOf.eq ((h.keeps.methods hpart).1.ext (hall.methods hwhole).1 fun method => ?_)
  cases hown : whole.methods.own? method with
  | none =>
    refine Option.eq_none_iff_forall_ne_some.mpr fun found hfound => ?_
    rw [hpartOf.methods method found hfound] at hown
    cases hown
  | some handler =>
    obtain ⟨same, hsame, hsamePath, hsameOwn⟩ := h.exists_part hall hdone hwhole hown
    rwa [h.keeps.eq_of_path hsame hpart (hsamePath.trans hpath.symm)] at hsameOwn

/-- All additions that make some routes make just those. -/
theorem Rebuilding.mem_iff (route : Route H) : route ∈ all ↔ route ∈ routes := by
  constructor
  · intro hroute
    obtain ⟨hordered, hsome⟩ := hall.methods hroute
    obtain ⟨method, hown⟩ := not_forall.mp (mt hordered.isEmpty_iff.mpr (by simp [hsome]))
    obtain ⟨handler, hown⟩ := Option.ne_none_iff_exists'.mp hown
    obtain ⟨part, hpart, hpath, -⟩ := h.exists_part hall hdone hroute hown
    rwa [← h.eq_of_path hall hdone hpart hroute hpath]
  · intro hroute
    obtain ⟨whole, hwhole, hpartOf⟩ := h.parts route hroute
    rwa [h.eq_of_path hall hdone hroute hwhole hpartOf.path]

end built

/-- A router answers as one that is built of its routes. -/
theorem Keeps.find_rebuilt {r : Router H} {routes : List (Route H)} (h : r.Keeps routes)
    {calls : List (Call H)} (hcalls : calls.Perm (routes.flatMap Route.additions))
    (method path : String) (params : Params) :
    r.find method path params =
      (after r.notFound r.notAllowed calls).find method path params := by
  obtain ⟨rebuilt, hrebuilt⟩ := rebuilding h r.notFound r.notAllowed calls
    fun c hc => hcalls.subset hc
  have hmem := hrebuilt.mem_iff h (fun c hc => hcalls.symm.subset hc)
  obtain ⟨n, hholds, hn, rfl⟩ := h.exists_tree
  obtain ⟨n', hholds', hn', rfl⟩ := hrebuilt.keeps.exists_tree
  rw [find, find, find?_eq hholds hn, find?_eq hholds' hn', (after_fallbacks ..).1,
    (after_fallbacks ..).2, lookup_congr hmem hn.firsts hn.nodup_route_paths hn'.nodup_route_paths]

end Router

/-- A removal changes one route at most, that at the pattern's path if there is one, and the
registry only where the route goes. The router it leaves answers every lookup as one to which the
routes left have been added and no others. -/
theorem Router.remove_routes (notFound notAllowed : H) (calls : List (Call H))
    (name method path : String) :
    ∃ routes left,
      (after notFound notAllowed calls).trie.routes? = some routes ∧
      (after notFound notAllowed calls).Removes routes name method path
        ((after notFound notAllowed calls).remove name method path).value ∧
      (∀ pattern, ∀ route ∈ routes, route.path = pattern.path →
        meant routes pattern = some route) ∧
      (∀ gone, (after notFound notAllowed calls).registry.Drops gone
        ((after notFound notAllowed calls).registry.dropPath gone)) ∧
      ((after notFound notAllowed calls).call (.remove name method path)).trie.routes? =
        some left ∧
      ∀ rebuilt, rebuilt.Perm (left.flatMap Route.additions) → ∀ method' path' params,
        ((after notFound notAllowed calls).call (.remove name method path)).find method' path'
            params =
          (after notFound notAllowed rebuilt).find method' path' params := by
  obtain ⟨routes, hkeeps⟩ := after_keeps notFound notAllowed calls
  obtain ⟨left, hleft⟩ := hkeeps.call (.remove name method path)
  refine ⟨routes, left, hkeeps.table, hkeeps.removes name method path,
    fun pattern route hroute hpath => meant_of_path hkeeps.nodup_paths hroute hpath,
    Registry.dropPath_drops hkeeps.agrees.toSound, hleft.table, fun rebuilt hrebuilt => ?_⟩
  have hfind := hleft.find_rebuilt hrebuilt
  obtain ⟨hnotFound, hnotAllowed⟩ := call_fallbacks (after notFound notAllowed calls)
    (.remove name method path)
  rw [hnotFound, hnotAllowed, (after_fallbacks ..).1, (after_fallbacks ..).2] at hfind
  exact hfind

end Routing
