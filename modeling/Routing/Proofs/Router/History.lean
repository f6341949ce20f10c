import Mathlib.Data.List.Induction
import Routing.Proofs.Router.Canonical
import Routing.Proofs.Text.Offsets

/-! What a listing has of a router's past.

A method stands at a path if it was added there and was not taken away since (`Router.Standing`).
However nodes were split and merged in between, the table of routes has the methods that stand and
no other (`Router.after_offers`): a call changes the table as it changes what stands
(`Router.Keeps.call_offers`). A listing shows each of them once, those of a route together and in
order (`Router.list_history`). -/
namespace Routing
open Trie
variable {H : Type}

/-! ### The past -/

namespace Router

/-- A call puts a method in at a path. -/
def PutsIn (r : Router H) (path : List Char) (method : String) : Call H → Prop
  | .add name method' text handler => method' = method ∧
    (∃ pattern, Pattern.parse text = .ok pattern ∧ pattern.path = path) ∧
    ∃ count, (r.add name method' text handler).value.1 = .ok count
  | .remove .. => False

/-- A call is a removal that means the route at a path, and all of it or this method. -/
def TakesAway (r : Router H) (path : List Char) (method : String) : Call H → Prop
  | .add .. => False
  | .remove name method' text => (method' = "" ∨ method' = method) ∧
    ∃ target pattern routes route, r.Targets name text target ∧
      Pattern.parse target = .ok pattern ∧ r.trie.routes? = some routes ∧
      meant routes pattern = some route ∧ route.path = path

/-- Among some calls, one started something and none ended it since. -/
def Since (notFound notAllowed : H) (starts ends : Router H → Call H → Prop)
    (calls : List (Call H)) : Prop :=
  ∃ front call back, calls = front ++ call :: back ∧
    starts (after notFound notAllowed front) call ∧
    ∀ between later rest, back = between ++ later :: rest →
      ¬ ends (after notFound notAllowed (front ++ call :: between)) later

/-- Among some calls, one put a method in at a path and none took it away since. -/
def Standing (notFound notAllowed : H) (calls : List (Call H)) (path : List Char)
    (method : String) : Prop :=
  Since notFound notAllowed (fun r => r.PutsIn path method) (fun r => r.TakesAway path method) calls

section since
variable {notFound notAllowed : H} {starts ends : Router H → Call H → Prop}

theorem not_since_nil : ¬ Since notFound notAllowed starts ends [] :=
  fun ⟨front, call, back, hcalls, _⟩ => absurd hcalls (by simp)

theorem since_concat {calls : List (Call H)} (c : Call H) :
    Since notFound notAllowed starts ends (calls ++ [c]) ↔
      starts (after notFound notAllowed calls) c ∨
        Since notFound notAllowed starts ends calls ∧
          ¬ ends (after notFound notAllowed calls) c := by
  constructor
  · rintro ⟨front, call, back, hcalls, hstarts, hstays⟩
    rcases List.eq_nil_or_concat' back with rfl | ⟨back, last, rfl⟩
    · obtain ⟨rfl, hlast⟩ := List.append_inj' hcalls rfl
      obtain rfl := List.singleton_inj.mp hlast
      exact .inl hstarts
    · rw [← List.cons_append, ← List.append_assoc] at hcalls
      obtain ⟨rfl, hlast⟩ := List.append_inj' hcalls rfl
      obtain rfl := List.singleton_inj.mp hlast
      refine .inr ⟨⟨front, call, back, rfl, hstarts, fun between later rest hback => ?_⟩,
        hstays back c [] rfl⟩
      exact hstays between later (rest ++ [c]) (by rw [hback, List.append_assoc]; rfl)
  · rintro (hstarts | ⟨⟨front, call, back, rfl, hstarts, hstays⟩, hlast⟩)
    · exact ⟨calls, c, [], rfl, hstarts, fun between later rest hback => by simp at hback⟩
    · refine ⟨front, call, back ++ [c], by simp, hstarts, fun between later rest hback => ?_⟩
      rcases List.eq_nil_or_concat' rest with rfl | ⟨rest, last, rfl⟩
      · obtain ⟨rfl, hsame⟩ := List.append_inj' hback rfl
        obtain rfl := List.singleton_inj.mp hsame
        exact hlast
      · rw [← List.cons_append, ← List.append_assoc] at hback
        exact hstays between later rest (List.append_inj' hback rfl).1

end since

end Router

/-! ### The table -/

/-- Among some routes, that at a path has a handler for a method itself. -/
def Offers (routes : List (Route H)) (path : List Char) (method : String) : Prop :=
  ∃ route ∈ routes, route.path = path ∧ route.methods.own? method ≠ none

section offers
variable {path : List Char} {method : String}

theorem offers_append {front back : List (Route H)} :
    Offers (front ++ back) path method ↔ Offers front path method ∨ Offers back path method := by
  simp only [Offers, List.mem_append, or_and_right, exists_or]

theorem offers_cons {route : Route H} {back : List (Route H)} :
    Offers (route :: back) path method ↔
      (route.path = path ∧ route.methods.own? method ≠ none) ∨ Offers back path method := by
  simp only [Offers, List.mem_cons, or_and_right, exists_or, exists_eq_left]

/-- Where no route has the path there is no method. -/
theorem not_offers {routes : List (Route H)} (h : ∀ route ∈ routes, route.path ≠ path) :
    ¬ Offers routes path method := fun ⟨route, hroute, hpath, _⟩ => h route hroute hpath

/-- A path has the methods of its route. -/
theorem offers_middle {front back : List (Route H)} {route : Route H}
    (h : ((front ++ route :: back).map Route.path).Nodup) :
    Offers (front ++ route :: back) path method ↔
      if route.path = path then route.methods.own? method ≠ none
      else Offers (front ++ back) path method := by
  rw [offers_append, offers_cons, or_left_comm, ← offers_append]
  split
  · next hpath =>
    subst hpath
    rw [or_iff_left (not_offers (path_ne_of_nodup h)), and_iff_right rfl]
  · next hpath => rw [or_iff_right fun hsame => hpath hsame.1]

/-- An addition adds its method and nothing else. -/
theorem Trie.Route.Entered.offers {old : Option (Route H)} {new : Route H}
    {name method' : String} {pattern : Pattern} {handler : H}
    (h : Route.Entered old new name method' pattern handler) (front back : List (Route H)) :
    Offers (front ++ [new] ++ back) path method ↔
      (method' = method ∧ pattern.path = path) ∨
        Offers (front ++ old.toList ++ back) path method := by
  have hold : Offers old.toList path method ↔
      pattern.path = path ∧ old.bind (·.methods.own? method) ≠ none := by
    cases old with
    | none => simp [Offers]
    | some route => simp [Offers, (h.kept route rfl).1]
  have hnew : (new.path = path ∧ new.methods.own? method ≠ none) ↔
      (method' = method ∧ pattern.path = path) ∨ Offers old.toList path method := by
    rw [h.path, h.methods, hold]
    by_cases hmethod : method' = method
    · rw [if_pos hmethod.symm]
      exact ⟨fun hpath => .inl ⟨hmethod, hpath.1⟩, fun hpath =>
        ⟨hpath.elim And.right And.left, Option.some_ne_none _⟩⟩
    · rw [if_neg (Ne.symm hmethod)]
      exact ⟨.inr, fun hpath => hpath.resolve_left fun heq => hmethod heq.1⟩
  have hone : Offers [new] path method ↔
      (method' = method ∧ pattern.path = path) ∨ Offers old.toList path method := by
    rw [offers_cons, hnew]
    exact or_iff_left (not_offers fun _ hroute => (List.not_mem_nil hroute).elim)
  rw [offers_append, offers_append, hone, or_left_comm, or_assoc, ← offers_append, ← offers_append]

/-- A removal takes its method away, or all of the route that it means. -/
theorem Router.Takes.offers {r left : Router H} {routes routes' : List (Route H)}
    {route : Route H} {method' : String} (h : r.Takes routes route method' left)
    (hnodup : (routes.map Route.path).Nodup) (hroute : route ∈ routes)
    (hold : r.trie.routes? = some routes) (hnew : left.trie.routes? = some routes') :
    Offers routes' path method ↔ Offers routes path method ∧
      ¬ ((method' = "" ∨ method' = method) ∧ route.path = path) := by
  cases h with
  | nothing hne hnone =>
    obtain rfl := Option.some.inj (hold.symm.trans hnew)
    refine (and_iff_left_of_imp ?_).symm
    rintro ⟨other, hother, hpath, hown⟩ ⟨hmethod, hsame⟩
    obtain rfl := List.inj_on_of_nodup_map hnodup hother hroute (hpath.trans hsame.symm)
    exact hown (hmethod.resolve_left hne ▸ hnone)
  | one hsplit hne _ _ _ hmethods htable =>
    obtain rfl := Option.some.inj (htable.symm.trans hnew)
    subst hsplit
    rw [offers_middle hnodup, offers_middle (by simpa using hnodup)]
    by_cases hpath : route.path = path
    · rw [if_pos hpath, if_pos hpath, hmethods]
      by_cases hmethod : method = method'
      · simp [hmethod, hpath]
      · simp [hmethod, hne, Ne.symm hmethod]
    · simp [hpath]
  | all hsplit hlast htable =>
    obtain rfl := Option.some.inj (htable.symm.trans hnew)
    subst hsplit
    rw [offers_middle hnodup]
    by_cases hpath : route.path = path
    · have hothers := path_ne_of_nodup hnodup
      rw [hpath] at hothers
      refine iff_of_false (not_offers hothers) ?_
      rw [if_pos hpath]
      rintro ⟨hown, hstays⟩
      -- The route goes by its last method, and this is not it.
      have hne : method' ≠ "" := fun hall => hstays ⟨.inl hall, hpath⟩
      exact hown ((hlast hne).2 method fun hsame => hstays ⟨.inr hsame.symm, hpath⟩)
    · simp [hpath]

end offers

namespace Router

/-! ### One call after another -/

section call
variable {r : Router H} {routes : List (Route H)} {path : List Char} {method : String}

theorem takesAway_iff (htable : r.trie.routes? = some routes) {name method' text target : String}
    {pattern : Pattern} (htarget : r.Targets name text target)
    (hparse : Pattern.parse target = .ok pattern) :
    r.TakesAway path method (.remove name method' text) ↔ (method' = "" ∨ method' = method) ∧
      ∃ route, meant routes pattern = some route ∧ route.path = path := by
  refine and_congr_right fun _ => ⟨?_, ?_⟩
  · rintro ⟨target', pattern', routes', route, htarget', hparse', htable', hmeant, hpath⟩
    obtain rfl := htarget.unique htarget'
    obtain rfl := Except.ok.inj (hparse.symm.trans hparse')
    obtain rfl := Option.some.inj (htable.symm.trans htable')
    exact ⟨route, hmeant, hpath⟩
  · rintro ⟨route, hmeant, hpath⟩
    exact ⟨target, pattern, routes, route, htarget, hparse, htable, hmeant, hpath⟩

theorem putsIn_iff {name method' text : String} {handler : H} {pattern : Pattern}
    (hparse : Pattern.parse text = .ok pattern)
    (haccept : r.registry.accept name pattern = .ok ()) :
    r.PutsIn path method (.add name method' text handler) ↔
      method' = method ∧ pattern.path = path := by
  refine and_congr_right fun _ => ⟨?_, fun hpath => ?_⟩
  · rintro ⟨⟨pattern', hparse', hpath⟩, -⟩
    obtain rfl := Except.ok.inj (hparse.symm.trans hparse')
    exact hpath
  · exact ⟨⟨pattern, hparse, hpath⟩, exists_add_iff.mpr ⟨pattern, hparse, haccept⟩⟩

/-- What a call does to the table of routes is what it puts in and what it takes away. -/
theorem Keeps.call_offers (h : r.Keeps routes) (c : Call H) {routes' : List (Route H)}
    (h' : (r.call c).Keeps routes') : Offers routes' path method ↔
      r.PutsIn path method c ∨ Offers routes path method ∧ ¬ r.TakesAway path method c := by
  have hbecomes := h.becomes h'
  generalize r.call c = left at hbecomes
  cases hbecomes with
  | refused hrefused =>
    refine Iff.symm ((or_iff_right ?_).trans (and_iff_left not_false))
    exact fun ⟨_, _, count, hcount⟩ => hrefused count hcount
  | @entered _ _ _ _ _ front back _ _ hparse haccept hsplit hentered =>
    subst hsplit
    rw [putsIn_iff hparse haccept, hentered.offers front back]
    exact or_congr_right (and_iff_left not_false).symm
  | idle hidle =>
    refine Iff.symm ((or_iff_right not_false).trans (and_iff_left ?_))
    rintro ⟨-, target, pattern, same, route, htarget, hparse, htable, hmeant, -⟩
    obtain rfl := h.table_eq htable
    rw [hidle target pattern htarget hparse] at hmeant
    cases hmeant
  | taken htarget hparse hmeant htakes htable =>
    rw [takesAway_iff h.table htarget hparse, hmeant,
      htakes.offers h.nodup_paths (mem_of_meant hmeant) h.table htable]
    refine Iff.symm ((or_iff_right not_false).trans ?_)
    simp

end call

/-- The table of routes has the methods that stand. -/
theorem after_offers {notFound notAllowed : H} {calls : List (Call H)} {path : List Char}
    {method : String} {routes : List (Route H)}
    (h : (after notFound notAllowed calls).Keeps routes) :
    Offers routes path method ↔ Standing notFound notAllowed calls path method := by
  induction calls using List.reverseRecOn generalizing routes with
  | nil =>
    obtain rfl := (new_keeps notFound notAllowed).table_eq h.table
    exact iff_of_false (not_offers (by simp)) not_since_nil
  | append_singleton calls c ih =>
    obtain ⟨before, hbefore⟩ := after_keeps notFound notAllowed calls
    rw [after_concat] at h
    rw [hbefore.call_offers c h, ih hbefore, Standing, Standing, since_concat]

end Router

/-! ### The listing -/

/-- The path of the pattern that a listing shows, and the method. -/
def Listed.shown (entry : Listed) : Option (List Char) × String :=
  (match Pattern.parse entry.pattern with
    | .ok pattern => some pattern.path
    | .error _ => none, entry.method)

/-- What a listing shows of the route at a path: its name and its pattern with each method, in the
order of their bytes, and behind them with the empty one if there is a handler for any. -/
structure ShowsRoute (path : List Char) (entries : List Listed) : Prop where
  ne_nil : entries ≠ []
  path : ∀ entry ∈ entries, entry.shown.1 = some path
  same : ∃ name pattern, ∀ entry ∈ entries, entry.name = name ∧ entry.pattern = pattern
  methods : ∃ named last, entries.map (·.method) = named ++ last ∧
    (named.map fun method => Text.utf8 method.toList).Pairwise (· < ·) ∧ "" ∉ named ∧
    (last = [] ∨ last = [""])

section listed
variable {r : Router H} {routes : List (Route H)} (h : r.Keeps routes)
include h

theorem Router.Keeps.list_eq : r.list = routes.flatMap Route.listed := by
  obtain ⟨n, hholds, -, rfl⟩ := h.exists_tree
  rw [list, list?_eq hholds, Option.getD_some]

theorem Router.Keeps.shown {route : Route H} (hroute : route ∈ routes) :
    route.listed.map Listed.shown = route.methods.names.map (some route.path, ·) := by
  obtain ⟨pattern, hparse, -, hpath, -⟩ := h.pattern hroute
  rw [Route.listed, List.map_map]
  refine List.map_congr_left fun method _ => ?_
  simp only [Function.comp_apply, Listed.shown, hparse, hpath]

theorem Router.Keeps.shown_path {route : Route H} (hroute : route ∈ routes)
    {entry : Option (List Char) × String} (hentry : entry ∈ route.listed.map Listed.shown) :
    entry.1 = some route.path := by
  rw [h.shown hroute] at hentry
  obtain ⟨method, -, rfl⟩ := List.mem_map.mp hentry
  rfl

theorem Router.Keeps.showsRoute {route : Route H} (hroute : route ∈ routes) :
    ShowsRoute route.path route.listed := by
  have hordered := (h.methods hroute).1
  refine ⟨?_, fun entry hentry => ?_, ⟨route.name, route.pattern, fun entry hentry => ?_⟩,
    route.methods.named.map (·.1), if route.methods.any.isSome then [""] else [], ?_, ?_,
    hordered.named, ?_⟩
  · exact h.listed_ne_nil hroute
  · exact h.shown_path hroute (List.mem_map_of_mem hentry)
  · obtain ⟨method, -, rfl⟩ := List.mem_map.mp hentry
    exact ⟨rfl, rfl⟩
  · rw [Route.listed, List.map_map]
    exact List.map_id _
  · refine List.pairwise_map.mpr (hordered.ascending.imp fun hlt => ?_)
    exact Text.utf8_lt (String.lt_iff.mp hlt)
  · split
    · exact .inr rfl
    · exact .inl rfl

theorem Router.Keeps.mem_shown {path : List Char} {method : String} :
    (some path, method) ∈ (routes.flatMap Route.listed).map Listed.shown ↔
      Offers routes path method := by
  rw [List.map_flatMap, List.mem_flatMap]
  refine exists_congr fun route => and_congr_right fun hroute => ?_
  rw [h.shown hroute, ← (h.methods hroute).1.mem_names]
  simp [and_comm]

theorem Router.Keeps.nodup_shown : ((routes.flatMap Route.listed).map Listed.shown).Nodup := by
  rw [List.map_flatMap, List.nodup_flatMap]
  refine ⟨fun route hroute => ?_, ?_⟩
  · rw [h.shown hroute]
    exact (h.methods hroute).1.nodup_names.map fun a b hab => (Prod.mk.inj hab).2
  · refine (List.pairwise_map.mp h.nodup_paths).imp_of_mem fun {a b} ha hb hne => ?_
    intro entry hentry hentry'
    exact hne (Option.some.inj ((h.shown_path ha hentry).symm.trans (h.shown_path hb hentry')))

end listed

/-- Whatever was added and removed, a listing shows every method that stands at a path once, and
nothing else. It goes route by route, with the methods of one in order, and it is empty if the
router is. -/
theorem Router.list_history (notFound notAllowed : H) (calls : List (Call H)) :
    (∃ groups : List (List Char × List Listed),
      (after notFound notAllowed calls).list = groups.flatMap Prod.snd ∧
      (groups.map Prod.fst).Nodup ∧ ∀ group ∈ groups, ShowsRoute group.1 group.2) ∧
    ((after notFound notAllowed calls).list.map Listed.shown).Nodup ∧
    (∀ path method, (some path, method) ∈ (after notFound notAllowed calls).list.map Listed.shown ↔
      Standing notFound notAllowed calls path method) ∧
    ((after notFound notAllowed calls).list = [] ↔
      (after notFound notAllowed calls).isEmpty = true) := by
  obtain ⟨routes, hkeeps⟩ := after_keeps notFound notAllowed calls
  rw [hkeeps.list_eq]
  refine ⟨⟨routes.map fun route => (route.path, route.listed), ?_, ?_, ?_⟩, hkeeps.nodup_shown,
    fun path method => hkeeps.mem_shown.trans (after_offers hkeeps), ?_⟩
  · rw [List.flatMap_map]
  · rw [List.map_map]
    exact hkeeps.nodup_paths
  · intro group hgroup
    obtain ⟨route, hroute, rfl⟩ := List.mem_map.mp hgroup
    exact hkeeps.showsRoute hroute
  · rw [hkeeps.isEmpty_iff, List.flatMap_eq_nil_iff]
    constructor
    · intro hnone
      refine List.eq_nil_iff_forall_not_mem.mpr fun route hroute => ?_
      exact (hkeeps.showsRoute hroute).ne_nil (hnone route hroute)
    · rintro rfl route hroute
      exact (List.not_mem_nil hroute).elim

/-- The methods of a route come together, whenever they were added and however it was spelled. -/
example : ((Router.after 404 405 [.add "" "" "/a/:x" 1, .add "" "PUT" "/b" 2,
    .add "" "PUT" "/a/:y" 3, .add "" "GET" "a/:y" 4, .remove "" "PUT" "/a/1"]).list.map
      Listed.shown) =
    [(some "/a/:".toList, "GET"), (some "/a/:".toList, ""), (some "/b".toList, "PUT")] := by
  decide +kernel

end Routing
