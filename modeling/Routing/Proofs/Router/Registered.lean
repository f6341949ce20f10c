import Routing.Proofs.Registry
import Routing.Proofs.Router.Removal
import Routing.Proofs.Router.Table

/-! The registry and the table of routes.

A router keeps what was registered twice: by name and by pattern in the registry, and by path in
the trie. Several patterns may share a path, a route goes with its last method, and the registry
forgets by path; all the same the two never drift apart (`Router.after_agrees`). -/
namespace Routing
open Trie Assoc
variable {H : Type}

/-- The registry and the table of routes tell the same. -/
structure Registry.Agrees (r : Registry) (routes : List (Route H)) : Prop extends r.Sound where
  /-- There is a route for every pattern. -/
  live : ∀ text entry, r.paths.lookup text = some entry →
    ∃ route ∈ routes, route.path = entry.path
  /-- A route's own pattern is registered. -/
  recorded : ∀ route ∈ routes, ∃ entry, r.paths.lookup route.pattern = some entry ∧
    entry.path = route.path
  /-- A route's name belongs to a pattern with its path. -/
  named : ∀ route ∈ routes, route.name ≠ "" → r.pathOf? route.name = some route.path

namespace Registry

theorem empty_agrees : empty.Agrees ([] : List (Route H)) where
  toSound := empty_sound
  live := by simp [empty]
  recorded := by simp
  named := by simp

/-! ### Additions -/

section record
variable {r : Registry} {name : String} {pattern : Pattern} (h : r.Sound)
  (hparse : Pattern.parse pattern.text = .ok pattern) (haccept : r.accept name pattern = .ok ())
include h hparse

/-- A record keeps its path. -/
theorem lookup_record_of_some (name : String) {text : String} {entry : Entry}
    (hentry : r.paths.lookup text = some entry) :
    ∃ entry', (r.record name pattern).paths.lookup text = some entry' ∧
      entry'.path = entry.path := by
  rw [lookup_record]
  split
  · next htext =>
    subst htext
    exact ⟨_, rfl, (h.recorded_path hparse).trans (h.path_eq hparse hentry).symm⟩
  · exact ⟨entry, hentry, rfl⟩

include haccept

/-- A name keeps its path. -/
theorem pathOf?_record_of_some {other : String} {path : List Char}
    (hpath : r.pathOf? other = some path) : (r.record name pattern).pathOf? other = some path := by
  obtain ⟨text, entry, htext, hentry, rfl⟩ := pathOf?_eq_some.mp hpath
  obtain ⟨entry', hentry', hsame⟩ := lookup_record_of_some h hparse name hentry
  exact pathOf?_eq_some.mpr ⟨text, entry', path?_record_of_some h haccept htext, hentry', hsame⟩

/-- The name given belongs to the path of the pattern. -/
theorem pathOf?_record_self (hname : name ≠ "") :
    (r.record name pattern).pathOf? name = some pattern.path := by
  refine pathOf?_eq_some.mpr ⟨pattern.text, r.recorded name pattern, ?_, ?_, h.recorded_path hparse⟩
  · rw [path?_record h haccept, if_pos ⟨rfl, hname⟩]
  · rw [lookup_record, if_pos rfl]

end record

section agrees
variable {r : Registry} {front back : List (Route H)}

/-- The members of a table in which a route has been put or replaced. -/
theorem mem_replaced (old : Option (Route H)) {new route : Route H}
    (h : route ∈ front ++ [new] ++ back) : route = new ∨ route ∈ front ++ old.toList ++ back := by
  simp only [List.mem_append, List.mem_singleton] at h ⊢
  tauto

theorem Agrees.record {old : Option (Route H)} {new : Route H} {name method : String}
    {pattern : Pattern} {handler : H} (h : r.Agrees (front ++ old.toList ++ back))
    (hparse : Pattern.parse pattern.text = .ok pattern) (haccept : r.accept name pattern = .ok ())
    (hentered : Route.Entered old new name method pattern handler) :
    (r.record name pattern).Agrees (front ++ [new] ++ back) where
  toSound := h.toSound.record hparse haccept
  live := by
    intro text entry hentry
    rw [lookup_record] at hentry
    split at hentry
    · obtain rfl := Option.some.inj hentry
      exact ⟨new, by simp, hentered.path.trans (h.recorded_path hparse).symm⟩
    · obtain ⟨route, hroute, hpath⟩ := h.live text entry hentry
      simp only [List.mem_append, Option.mem_toList] at hroute
      rcases hroute with (hroute | hroute) | hroute
      · exact ⟨route, by simp [hroute], hpath⟩
      · exact ⟨new, by simp, hentered.path.trans ((hentered.kept route hroute).1.symm.trans hpath)⟩
      · exact ⟨route, by simp [hroute], hpath⟩
  recorded := by
    have hkept : ∀ route ∈ front ++ old.toList ++ back, ∃ entry,
        (r.record name pattern).paths.lookup route.pattern = some entry ∧
          entry.path = route.path := by
      intro route hroute
      obtain ⟨entry, hentry, hpath⟩ := h.recorded route hroute
      obtain ⟨entry', hentry', hsame⟩ :=
        lookup_record_of_some h.toSound hparse name hentry
      exact ⟨entry', hentry', hsame.trans hpath⟩
    intro route hroute
    rcases mem_replaced old hroute with rfl | hroute
    · cases old with
      | none =>
        obtain ⟨-, hpattern, -⟩ := hentered.fresh rfl
        refine ⟨r.recorded name pattern, ?_, (h.recorded_path hparse).trans hentered.path.symm⟩
        rw [lookup_record, if_pos hpattern]
      | some route =>
        obtain ⟨hpath, hpattern, -⟩ := hentered.kept route rfl
        rw [hpattern, hentered.path, ← hpath]
        exact hkept route (by simp)
    · exact hkept route hroute
  named := by
    have hkept : ∀ route ∈ front ++ old.toList ++ back, route.name ≠ "" →
        (r.record name pattern).pathOf? route.name = some route.path := fun route hroute hname =>
      pathOf?_record_of_some h.toSound hparse haccept (h.named route hroute hname)
    intro route hroute hne
    rcases mem_replaced old hroute with rfl | hroute
    · cases old with
      | none =>
        rw [(hentered.fresh rfl).1] at hne ⊢
        rw [hentered.path]
        exact pathOf?_record_self h.toSound hparse haccept hne
      | some route =>
        obtain ⟨hpath, -, -, hname⟩ := hentered.kept route rfl
        rw [hname] at hne ⊢
        rw [hentered.path]
        split
        · next hunnamed =>
          rw [if_pos hunnamed] at hne
          exact pathOf?_record_self h.toSound hparse haccept hne
        · next hnamed =>
          rw [← hpath]
          exact hkept route (by simp) hnamed
    · exact hkept route hroute hne

/-! ### Removals -/

theorem mem_dropped {route other : Route H} (h : other ∈ front ++ back) :
    other ∈ front ++ route :: back :=
  ((List.sublist_cons_self route back).append_left front).subset h

theorem Agrees.withMethods {route : Route H} (h : r.Agrees (front ++ route :: back))
    (methods : Methods H) : r.Agrees (front ++ { route with methods } :: back) where
  toSound := h.toSound
  live := by
    intro text entry hentry
    obtain ⟨other, hother, hpath⟩ := h.live text entry hentry
    rcases List.mem_append.mp hother with hother | hother
    · exact ⟨other, by simp [hother], hpath⟩
    · rcases List.mem_cons.mp hother with rfl | hother
      · exact ⟨{ other with methods }, by simp, hpath⟩
      · exact ⟨other, by simp [hother], hpath⟩
  recorded := by
    have hrecorded := h.recorded
    simp only [List.forall_mem_append, List.forall_mem_cons] at hrecorded ⊢
    exact hrecorded
  named := by
    have hnamed := h.named
    simp only [List.forall_mem_append, List.forall_mem_cons] at hnamed ⊢
    exact hnamed

theorem Agrees.dropPath {route : Route H} (h : r.Agrees (front ++ route :: back))
    (hother : ∀ other ∈ front ++ back, other.path ≠ route.path) :
    (r.dropPath route.path).Agrees (front ++ back) where
  toSound := h.toSound.dropPath route.path
  live := by
    intro text entry hentry
    rw [lookup_dropPath h.toSound, Option.filter_eq_some_iff, decide_eq_true_eq] at hentry
    obtain ⟨other, hmem, hpath⟩ := h.live text entry hentry.1
    have hne : other ≠ route := by
      rintro rfl
      exact hentry.2 hpath.symm
    simp only [List.mem_append, List.mem_cons, hne, false_or] at hmem
    exact ⟨other, List.mem_append.mpr hmem, hpath⟩
  recorded := by
    intro other hmem
    obtain ⟨entry, hentry, hpath⟩ := h.recorded other (mem_dropped hmem)
    refine ⟨entry, ?_, hpath⟩
    rw [lookup_dropPath h.toSound, hentry, Option.filter_some, if_pos]
    exact decide_eq_true (hpath ▸ hother other hmem)
  named := by
    intro other hmem hname
    exact pathOf?_dropPath_of_ne h.toSound (h.named other (mem_dropped hmem) hname)
      (hother other hmem)

end agrees

end Registry

/-! ### All calls -/

/-- A route's path and parameters are those of its pattern. -/
def Trie.Route.Reads (route : Route H) : Prop :=
  ∃ pattern, Pattern.parse route.pattern = .ok pattern ∧ pattern.path = route.path ∧
    pattern.params = route.params

theorem Trie.Route.Entered.reads {old : Option (Route H)} {new : Route H} {name method : String}
    {pattern : Pattern} {handler : H} (h : Route.Entered old new name method pattern handler)
    (hparse : Pattern.parse pattern.text = .ok pattern) (hold : ∀ route ∈ old, route.Reads) :
    new.Reads := by
  cases old with
  | none =>
    obtain ⟨-, hpattern, hparams⟩ := h.fresh rfl
    exact ⟨pattern, hpattern ▸ hparse, h.path.symm, hparams.symm⟩
  | some route =>
    obtain ⟨hpath, hpattern, hparams, -⟩ := h.kept route rfl
    obtain ⟨own, hown, hownPath, hownParams⟩ := hold route rfl
    exact ⟨own, hpattern ▸ hown, (hownPath.trans hpath).trans h.path.symm,
      hownParams.trans hparams.symm⟩

namespace Router

/-- A router that keeps these routes, in its trie and in its registry. -/
structure Keeps (r : Router H) (routes : List (Route H)) : Prop where
  valid : r.trie.Valid
  table : r.trie.routes? = some routes
  agrees : r.registry.Agrees routes
  reads : ∀ route ∈ routes, route.Reads

theorem Keeps.table_eq {r : Router H} {routes routes' : List (Route H)} (h : r.Keeps routes)
    (htable : r.trie.routes? = some routes') : routes = routes' :=
  Option.some.inj (h.table.symm.trans htable)

theorem Keeps.exists_tree {r : Router H} {routes : List (Route H)} (h : r.Keeps routes) :
    ∃ n, r.trie.Holds n ∧ Formed n ∧ n.routes = routes := by
  obtain ⟨n, hholds, hn⟩ := h.valid
  exact ⟨n, hholds, hn, Option.some.inj (hholds.routes?_eq.symm.trans h.table)⟩

theorem Keeps.nodup_paths {r : Router H} {routes : List (Route H)} (h : r.Keeps routes) :
    (routes.map Route.path).Nodup := by
  obtain ⟨n, -, hn, rfl⟩ := h.exists_tree
  exact hn.nodup_route_paths

theorem new_keeps (notFound notAllowed : H) : (new notFound notAllowed).Keeps [] where
  valid := Trie.empty_valid
  table := Trie.empty_holds.routes?_eq
  agrees := Registry.empty_agrees
  reads := by simp

/-- An addition puts a route into the table, or a method to a route in it. -/
theorem Keeps.enter {r : Router H} {routes : List (Route H)} (h : r.Keeps routes)
    {name path : String} {pattern : Pattern} (hparse : Pattern.parse path = .ok pattern)
    (haccept : r.registry.accept name pattern = .ok ()) (method : String) (handler : H) :
    ∃ front back old new, routes = front ++ old.toList ++ back ∧
      Route.Entered old new name method pattern handler ∧
      (r.enter name method pattern handler).Keeps (front ++ [new] ++ back) := by
  obtain ⟨n, hholds, hn, rfl⟩ := h.exists_tree
  obtain ⟨htext, -⟩ := Pattern.parse_text hparse
  obtain ⟨t', n', hplant, hholds', -, -, front, back, c, hcarries, hbefore, hafter⟩ :=
    hholds.plant hn (r := ⟨method, handler, name, pattern.text, pattern.params⟩)
      (Pattern.reads_of_parse hparse).2 (names_of_parse hparse)
  obtain ⟨new, hnew, hentered, -⟩ := hcarries.entered (names_of_parse hparse) name method handler
  rw [show c.register (some _) = c.attach _ from rfl, hnew, Option.toList_some] at hafter
  have hagrees := h.agrees
  have hreads := h.reads
  rw [hbefore] at hagrees hreads
  refine ⟨front, back, _, new, hbefore, hentered, enter_valid h.valid name method hparse handler,
    ?_, hagrees.record htext haccept hentered, fun route hroute => ?_⟩
  · rw [Router.enter, hplant, Option.getD_some, hholds'.routes?_eq, hafter]
  · rcases Registry.mem_replaced (c.routeAt pattern.path) hroute with rfl | hroute
    · exact hentered.reads htext fun route hroute => hreads route (by simp_all)
    · exact hreads route hroute

/-- A route that goes takes what the registry has of its path along. -/
theorem Keeps.takes {r left : Router H} {routes : List (Route H)} (h : r.Keeps routes)
    {route : Route H} {method : String} (hvalid : left.trie.Valid)
    (htakes : r.Takes routes route method left) : ∃ routes', left.Keeps routes' := by
  cases htakes with
  | nothing => exact ⟨routes, h⟩
  | one hsplit _ _ _ _ _ htable =>
    subst hsplit
    have hreads := h.reads
    refine ⟨_, hvalid, htable, h.agrees.withMethods _, ?_⟩
    simp only [List.forall_mem_append, List.forall_mem_cons] at hreads ⊢
    exact hreads
  | @all front back trie hsplit _ htable =>
    subst hsplit
    exact ⟨_, hvalid, htable, h.agrees.dropPath (path_ne_of_nodup h.nodup_paths),
      fun other hother => h.reads other (Registry.mem_dropped hother)⟩

theorem Keeps.removes {r : Router H} {routes : List (Route H)} (h : r.Keeps routes)
    (name method path : String) :
    r.Removes routes name method path (r.remove name method path).value := by
  obtain ⟨n, hholds, hn, rfl⟩ := h.exists_tree
  exact remove_removes hholds hn name method path

theorem Keeps.call {r : Router H} {routes : List (Route H)} (h : r.Keeps routes) (c : Call H) :
    ∃ routes', (r.call c).Keeps routes' := by
  have hvalid := call_valid h.valid c
  cases c with
  | add name method path handler =>
    rw [Router.call]
    rcases r.add_cases name method path handler with ⟨e, herror⟩ | ⟨pattern, hparse, haccept, hadd⟩
    · rw [herror]
      exact ⟨routes, h⟩
    · obtain ⟨front, back, old, new, -, -, hkeeps⟩ := h.enter hparse haccept method handler
      rw [hadd]
      exact ⟨_, hkeeps⟩
  | remove name method path =>
    have hremoves := h.removes name method path
    rw [Router.call] at hvalid ⊢
    generalize (r.remove name method path).value = result at hremoves hvalid
    cases hremoves with
    | unbound | malformed | missing => exact ⟨routes, h⟩
    | route _ _ _ htakes => exact h.takes hvalid htakes

/-- Every router there can be keeps its routes. -/
theorem after_keeps (notFound notAllowed : H) (calls : List (Call H)) :
    ∃ routes, (after notFound notAllowed calls).Keeps routes := by
  suffices h : ∀ (r : Router H) routes, r.Keeps routes →
      ∃ routes', (calls.foldl Router.call r).Keeps routes' from
    h _ _ (new_keeps notFound notAllowed)
  induction calls with
  | nil => exact fun r routes hr => ⟨routes, hr⟩
  | cons c rest ih =>
    intro r routes hr
    obtain ⟨routes', hr'⟩ := hr.call c
    exact ih _ _ hr'

/-! ### What a call does -/

/-- What becomes of a router with these routes, and of the routes, in a call. -/
inductive Becomes (r : Router H) (routes : List (Route H)) :
    Call H → Router H → List (Route H) → Prop
  | refused {name method text : String} {handler : H} :
    (∀ count, (r.add name method text handler).value.1 ≠ .ok count) →
    Becomes r routes (.add name method text handler) r routes
  | entered {name method text : String} {handler : H} {pattern : Pattern}
    {front back : List (Route H)} {old : Option (Route H)} {new : Route H} :
    Pattern.parse text = .ok pattern → r.registry.accept name pattern = .ok () →
    routes = front ++ old.toList ++ back → Route.Entered old new name method pattern handler →
    Becomes r routes (.add name method text handler) (r.enter name method pattern handler)
      (front ++ [new] ++ back)
  /-- No route is meant. -/
  | idle {name method text : String} :
    (∀ target pattern, r.Targets name text target → Pattern.parse target = .ok pattern →
      meant routes pattern = none) →
    Becomes r routes (.remove name method text) r routes
  | taken {name method text target : String} {pattern : Pattern} {route : Route H}
    {left : Router H} {routes' : List (Route H)} :
    r.Targets name text target → Pattern.parse target = .ok pattern →
    meant routes pattern = some route → r.Takes routes route method left →
    left.trie.routes? = some routes' → Becomes r routes (.remove name method text) left routes'

theorem Keeps.becomes {r : Router H} {routes routes' : List (Route H)} (h : r.Keeps routes)
    {c : Call H} (h' : (r.call c).Keeps routes') : r.Becomes routes c (r.call c) routes' := by
  cases c with
  | add name method text handler =>
    rcases r.add_cases name method text handler with ⟨e, herror⟩ | ⟨pattern, hparse, haccept, -⟩
    · rw [show r.call (.add name method text handler) = r from congrArg Prod.snd herror] at h' ⊢
      obtain rfl := h.table_eq h'.table
      refine .refused fun count hcount => ?_
      rw [herror] at hcount
      cases hcount
    · obtain ⟨front, back, old, new, hsplit, hentered, hkeeps⟩ :=
        h.enter hparse haccept method handler
      rw [call_add hparse haccept] at h' ⊢
      obtain rfl := hkeeps.table_eq h'.table
      exact .entered hparse haccept hsplit hentered
  | remove name method text =>
    have hremoves := h.removes name method text
    rw [Router.call] at h' ⊢
    generalize (r.remove name method text).value = result at hremoves h'
    -- Where the router stays as it is, no route was meant.
    have hidle (hsame : routes' = routes) (hnone : ∀ target pattern, r.Targets name text target →
        Pattern.parse target = .ok pattern → meant routes pattern = none) :
        r.Becomes routes (.remove name method text) r routes' := by
      rw [hsame]
      exact .idle hnone
    cases hremoves with
    | unbound hpath hname =>
      refine hidle (h.table_eq h'.table).symm fun target _ htarget _ => ?_
      simp [Targets, hpath, hname] at htarget
    | malformed htext hmalformed =>
      refine hidle (h.table_eq h'.table).symm fun target _ htarget hparse => ?_
      obtain rfl := htext.unique htarget
      cases hmalformed.symm.trans hparse
    | missing htext hsame hmissing =>
      refine hidle (h.table_eq h'.table).symm fun target _ htarget hparse => ?_
      obtain rfl := htext.unique htarget
      obtain rfl := Except.ok.inj (hsame.symm.trans hparse)
      exact hmissing
    | route htarget hparse hmeant htakes => exact .taken htarget hparse hmeant htakes h'.table

/-! ### What a router keeps -/

theorem Keeps.methods {r : Router H} {routes : List (Route H)} (h : r.Keeps routes)
    {route : Route H} (hroute : route ∈ routes) :
    route.methods.Ordered ∧ route.methods.isEmpty = false := by
  obtain ⟨n, -, hn, rfl⟩ := h.exists_tree
  obtain ⟨c, hc, hat⟩ := mem_routes.mp hroute
  obtain ⟨hhas, rfl⟩ := Content.routeAt_eq_some.mp hat
  exact ⟨((hn.of_route hc hhas).1 c hc).content.methods, by simpa [Content.hasRoute] using hhas⟩

/-! Routes are told apart by path, by pattern and by name. -/
section told
variable {r : Router H} {routes : List (Route H)} (h : r.Keeps routes) {a b : Route H}
  (ha : a ∈ routes) (hb : b ∈ routes)
include h ha

theorem Keeps.pattern : ∃ pattern, Pattern.parse a.pattern = .ok pattern ∧
    pattern.text = a.pattern ∧ pattern.path = a.path ∧ pattern.params = a.params := by
  obtain ⟨pattern, hparse, hpath, hparams⟩ := h.reads a ha
  obtain ⟨entry, hentry, -⟩ := h.agrees.recorded a ha
  obtain ⟨same, hsame, htext, -⟩ := h.agrees.reads _ _ hentry
  obtain rfl := Except.ok.inj (hparse.symm.trans hsame)
  exact ⟨pattern, hparse, htext, hpath, hparams⟩

theorem Keeps.length_params : a.params.length = Text.marks a.path := by
  obtain ⟨pattern, hparse, -, hpath, hparams⟩ := h.pattern ha
  rw [← hparams, ← hpath]
  exact (Pattern.reads_of_parse hparse).1

include hb

theorem Keeps.eq_of_path (hpath : a.path = b.path) : a = b :=
  List.inj_on_of_nodup_map h.nodup_paths ha hb hpath

theorem Keeps.eq_of_pattern (hpattern : a.pattern = b.pattern) : a = b := by
  obtain ⟨pattern, hparse, -, hpath, -⟩ := h.pattern ha
  obtain ⟨same, hsame, -, hpath', -⟩ := h.pattern hb
  rw [hpattern] at hparse
  obtain rfl := Except.ok.inj (hparse.symm.trans hsame)
  exact h.eq_of_path ha hb (hpath.symm.trans hpath')

theorem Keeps.eq_of_name (hname : a.name = b.name) (hne : b.name ≠ "") : a = b := by
  have hpath := h.agrees.named a ha (hname ▸ hne)
  rw [hname, h.agrees.named b hb hne] at hpath
  exact h.eq_of_path ha hb (Option.some.inj hpath).symm

end told

/-- There are patterns as long as there are routes. -/
theorem Keeps.paths_eq_nil_iff {r : Router H} {routes : List (Route H)} (h : r.Keeps routes) :
    r.registry.paths = [] ↔ routes = [] := by
  constructor
  · intro hpaths
    refine List.eq_nil_iff_forall_not_mem.mpr fun route hroute => ?_
    obtain ⟨entry, hentry, -⟩ := h.agrees.recorded route hroute
    simp [hpaths] at hentry
  · rintro rfl
    refine List.eq_nil_iff_forall_not_mem.mpr fun ⟨text, entry⟩ hmem => ?_
    have hentry := (lookup_eq_some_iff h.agrees.keys).mpr hmem
    obtain ⟨route, hroute, -⟩ := h.agrees.live text entry hentry
    cases hroute

theorem Keeps.isEmpty_iff {r : Router H} {routes : List (Route H)} (h : r.Keeps routes) :
    r.isEmpty = true ↔ routes = [] := by
  obtain ⟨n, hholds, hn, rfl⟩ := h.exists_tree
  rw [isEmpty, hholds.isEmpty_eq hn, List.isEmpty_iff]

end Router

/-- Whatever was added and removed, the registry agrees with the routes, and both are empty at the
same time. -/
theorem Router.after_agrees (notFound notAllowed : H) (calls : List (Call H)) :
    ∃ routes, (after notFound notAllowed calls).trie.routes? = some routes ∧
      (after notFound notAllowed calls).registry.Agrees routes ∧
      ((after notFound notAllowed calls).registry.paths = [] ↔ routes = []) ∧
      ((after notFound notAllowed calls).isEmpty = true ↔ routes = []) := by
  obtain ⟨routes, hkeeps⟩ := after_keeps notFound notAllowed calls
  exact ⟨routes, hkeeps.table, hkeeps.agrees, hkeeps.paths_eq_nil_iff, hkeeps.isEmpty_iff⟩

end Routing
