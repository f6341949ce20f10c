import Routing.Proofs.Router.History

/-! The names that a listing shows.

A route takes its pattern from the addition that made it, and its name from the first that had one.
These may be two additions that spell the path differently (`Router.NamesLate`), and the name then
belongs to the pattern of the second. Of every other route the listing and the registry say the same
(`Router.list_names`). -/
namespace Routing
open Trie
variable {H : Type}

namespace Router

/-- A route is at a path. -/
def HasRoute (r : Router H) (path : List Char) : Prop :=
  ∃ routes, r.trie.routes? = some routes ∧ ∃ route ∈ routes, route.path = path

/-- A call is an addition that names the route at a path, which had no name and was spelled
otherwise. -/
def NamesLate (r : Router H) (path : List Char) : Call H → Prop
  | .add name method text handler => name ≠ "" ∧
    (∃ count, (r.add name method text handler).value.1 = .ok count) ∧
    ∃ pattern routes route, Pattern.parse text = .ok pattern ∧ r.trie.routes? = some routes ∧
      route ∈ routes ∧ route.path = path ∧ pattern.path = path ∧
      route.name = "" ∧ route.pattern ≠ pattern.text
  | .remove .. => False

/-- Among some calls, one named the route at a path late and none took the route since. -/
def NamedLate (notFound notAllowed : H) (calls : List (Call H)) (path : List Char) : Prop :=
  Since notFound notAllowed (fun r => r.NamesLate path) (fun r c => ¬ (r.call c).HasRoute path)
    calls

end Router

/-- A route without a name was not named late. One with a name goes by its own pattern, unless it
was. -/
def Trie.Route.Spelled (route : Route H) (registry : Registry) (late : Prop) : Prop :=
  if route.name = "" then ¬ late
  else ∃ text, registry.path? route.name = some text ∧ (text = route.pattern ↔ ¬ late)

/-- What is said of a route stays where its name keeps its pattern. -/
theorem Trie.Route.Spelled.congr {route : Route H} {registry registry' : Registry}
    {late late' : Prop} (h : route.Spelled registry late)
    (hnames : route.name ≠ "" → ∀ text, registry.path? route.name = some text →
      registry'.path? route.name = some text) (hlate : late' ↔ late) :
    route.Spelled registry' late' := by
  unfold Spelled at h ⊢
  rw [hlate]
  split
  · next hname => rwa [if_pos hname] at h
  · next hname =>
    rw [if_neg hname] at h
    obtain ⟨text, htext, hsame⟩ := h
    exact ⟨text, hnames hname text htext, hsame⟩

namespace Router

section call
variable {r : Router H} {routes : List (Route H)} {path : List Char}

theorem Keeps.hasRoute_iff (h : r.Keeps routes) :
    r.HasRoute path ↔ ∃ route ∈ routes, route.path = path := by
  constructor
  · rintro ⟨routes', htable, hroute⟩
    obtain rfl := h.table_eq htable
    exact hroute
  · exact fun hroute => ⟨routes, h.table, hroute⟩

theorem NamesLate.hasRoute {c : Call H} (h : r.NamesLate path c) : r.HasRoute path := by
  cases c with
  | remove => exact h.elim
  | add =>
    obtain ⟨-, -, -, routes, route, -, htable, hroute, hpath, -⟩ := h
    exact ⟨routes, htable, route, hroute, hpath⟩

/-- An addition names a route late at its own path, if the route has no name and another
pattern. -/
theorem Keeps.namesLate_iff (h : r.Keeps routes) {name method text : String} {handler : H}
    {pattern : Pattern} (hparse : Pattern.parse text = .ok pattern)
    (haccept : r.registry.accept name pattern = .ok ()) {route : Route H}
    (hroute : route ∈ routes) :
    r.NamesLate route.path (.add name method text handler) ↔
      name ≠ "" ∧ pattern.path = route.path ∧ route.name = "" ∧ route.pattern ≠ pattern.text := by
  refine and_congr_right fun _ => ⟨?_, ?_⟩
  · rintro ⟨-, pattern', routes', other, hparse', htable, hother, hpath, hown, hlate⟩
    obtain rfl := Except.ok.inj (hparse.symm.trans hparse')
    obtain rfl := h.table_eq htable
    obtain rfl := h.eq_of_path hother hroute hpath
    exact ⟨hown, hlate⟩
  · rintro ⟨hown, hlate⟩
    exact ⟨exists_add_iff.mpr ⟨pattern, hparse, haccept⟩, pattern, routes, route, hparse, h.table,
      hroute, rfl, hown, hlate⟩

/-- A route that is named late stays. -/
theorem Keeps.hasRoute_call (h : r.Keeps routes) {c : Call H} (hlate : r.NamesLate path c) :
    (r.call c).HasRoute path := by
  cases c with
  | remove => exact hlate.elim
  | add name method text handler =>
    obtain ⟨-, hadd, pattern, -, -, hparse, -, -, -, rfl, -⟩ := hlate
    obtain ⟨same, hsame, haccept⟩ := exists_add_iff.mp hadd
    obtain rfl := Except.ok.inj (hparse.symm.trans hsame)
    obtain ⟨front, back, old, new, -, hentered, hkeeps⟩ := h.enter hparse haccept method handler
    rw [call_add hparse haccept, hkeeps.hasRoute_iff]
    exact ⟨new, by simp, hentered.path⟩

/-- A removal leaves the names of the other routes with their patterns. -/
theorem Takes.spelled {left : Router H} {routes' : List (Route H)} {route : Route H}
    {method : String} (h : r.Takes routes route method left) (hkeeps : r.Keeps routes)
    (hnew : left.trie.routes? = some routes') {late : List Char → Prop}
    (hspelled : ∀ route ∈ routes, route.Spelled r.registry (late route.path)) :
    ∀ route ∈ routes', route.Spelled left.registry (late route.path) := by
  cases h with
  | nothing =>
    obtain rfl := hkeeps.table_eq hnew
    exact hspelled
  | one hsplit _ _ _ _ _ htable =>
    obtain rfl := Option.some.inj (htable.symm.trans hnew)
    subst hsplit
    simp only [List.forall_mem_append, List.forall_mem_cons] at hspelled ⊢
    exact hspelled
  | @all front back _ hsplit _ htable =>
    obtain rfl := Option.some.inj (htable.symm.trans hnew)
    subst hsplit
    intro other hother
    have hmem : other ∈ front ++ route :: back := Registry.mem_dropped hother
    refine (hspelled other hmem).congr (fun hname text htext => ?_) .rfl
    have hne := path_ne_of_nodup hkeeps.nodup_paths other hother
    rw [Registry.path?_dropPath hkeeps.agrees.toSound, hkeeps.agrees.named other hmem hname,
      if_neg fun hsame => hne (Option.some.inj hsame)]
    exact htext

/-- An addition names a route late if the route has another pattern. -/
theorem spelled_named {name : String} {pattern : Pattern} (hsound : r.registry.Sound)
    (haccept : r.registry.accept name pattern = .ok ()) {route : Route H}
    (hname : route.name = name) {late : Prop}
    (hlate : late ↔ name ≠ "" ∧ route.pattern ≠ pattern.text) :
    route.Spelled (r.registry.record name pattern) late := by
  subst hname
  unfold Route.Spelled
  split
  · next hunnamed => exact fun hl => (hlate.mp hl).1 hunnamed
  · next hnamed =>
    refine ⟨pattern.text, ?_, ?_⟩
    · rw [Registry.path?_record hsound haccept, if_pos ⟨rfl, hnamed⟩]
    · rw [hlate, and_iff_right hnamed, not_not, eq_comm]

section enter
variable {front back : List (Route H)} {old : Option (Route H)} {new : Route H}
  {name method text : String} {handler : H} {pattern : Pattern} {late : List Char → Prop}
  (h : r.Keeps (front ++ old.toList ++ back)) (hparse : Pattern.parse text = .ok pattern)
  (haccept : r.registry.accept name pattern = .ok ())
  (hspelled : ∀ route ∈ front ++ old.toList ++ back, route.Spelled r.registry (late route.path))
include h hparse haccept hspelled

/-- Nothing is new of a route that the addition does not name. -/
theorem Keeps.stays_spelled {route : Route H} (hroute : route ∈ front ++ old.toList ++ back)
    (hnot : pattern.path = route.path → route.name ≠ "") :
    route.Spelled (r.registry.record name pattern)
      (r.NamesLate route.path (.add name method text handler) ∨ late route.path) := by
  refine (hspelled route hroute).congr
    (fun _ _ => Registry.path?_record_of_some h.agrees.toSound haccept) (or_iff_right ?_)
  rw [h.namesLate_iff hparse haccept hroute]
  exact fun hlate => hnot hlate.2.1 hlate.2.2.1

variable (hentered : Route.Entered old new name method pattern handler)
  (h' : (r.enter name method pattern handler).Keeps (front ++ [new] ++ back))
  (hlate : ∀ path, late path → r.HasRoute path)
include hentered h' hlate

/-- The route at the path gets the name if it has none. -/
theorem Keeps.new_spelled : new.Spelled (r.registry.record name pattern)
    (r.NamesLate new.path (.add name method text handler) ∨ late new.path) := by
  have hsound := h.agrees.toSound
  cases old with
  | none =>
    obtain ⟨hname, hpattern, -⟩ := hentered.fresh rfl
    have hnone : ¬ r.HasRoute new.path := by
      rw [h.hasRoute_iff]
      rintro ⟨other, hother, hsame⟩
      exact path_ne_of_nodup (by simpa using h'.nodup_paths) other (by simpa using hother) hsame
    refine spelled_named hsound haccept hname (iff_of_false ?_ fun hother => hother.2 hpattern)
    exact fun hl => hnone (hl.elim NamesLate.hasRoute (hlate _))
  | some before =>
    obtain ⟨hpath, hpattern, -, hname⟩ := hentered.kept before rfl
    have hmem : before ∈ front ++ (some before).toList ++ back := by simp
    rw [show new.path = before.path from hentered.path.trans hpath.symm]
    by_cases hunnamed : before.name = ""
    · have hbefore := hspelled before hmem
      rw [Route.Spelled, if_pos hunnamed] at hbefore
      rw [if_pos hunnamed] at hname
      refine spelled_named hsound haccept hname ?_
      rw [or_iff_left hbefore, h.namesLate_iff hparse haccept hmem, hpattern,
        and_iff_right hpath.symm, and_iff_right hunnamed]
    · rw [if_neg hunnamed] at hname
      unfold Route.Spelled
      rw [hname, hpattern]
      exact h.stays_spelled hparse haccept hspelled hmem fun _ => hunnamed

theorem Keeps.enter_spelled : ∀ route ∈ front ++ [new] ++ back,
    route.Spelled (r.registry.record name pattern)
      (r.NamesLate route.path (.add name method text handler) ∨ late route.path) := by
  intro route hroute
  by_cases hnew : route = new
  · subst hnew
    exact h.new_spelled hparse haccept hspelled hentered h' hlate
  · have hmem := (Registry.mem_replaced old hroute).resolve_left hnew
    refine h.stays_spelled hparse haccept hspelled hmem fun hpath => (hnew ?_).elim
    exact h'.eq_of_path hroute (by simp) (hpath.symm.trans hentered.path.symm)

end enter

/-- After a call a route was named late by the call, or before it. -/
theorem Keeps.call_spelled (h : r.Keeps routes) (c : Call H) {routes' : List (Route H)}
    (h' : (r.call c).Keeps routes') {late : List Char → Prop}
    (hlate : ∀ path, late path → r.HasRoute path)
    (hspelled : ∀ route ∈ routes, route.Spelled r.registry (late route.path)) :
    ∀ route ∈ routes', route.Spelled (r.call c).registry
      (r.NamesLate route.path c ∨ late route.path) := by
  have hbecomes := h.becomes h'
  generalize r.call c = left at hbecomes h' ⊢
  cases hbecomes with
  | refused hrefused =>
    refine fun route hroute => (hspelled route hroute).congr (fun _ _ => id) (or_iff_right ?_)
    exact fun ⟨_, ⟨count, hcount⟩, _⟩ => hrefused count hcount
  | entered hparse haccept hsplit hentered =>
    subst hsplit
    exact h.enter_spelled hparse haccept hspelled hentered h' hlate
  | idle => exact fun route hroute =>
    (hspelled route hroute).congr (fun _ _ => id) (or_iff_right not_false)
  | taken _ _ _ htakes htable => exact fun route hroute =>
    (htakes.spelled h htable hspelled route hroute).congr (fun _ _ => id) (or_iff_right not_false)

end call

section run
variable {notFound notAllowed : H} {calls : List (Call H)} {path : List Char}

/-- There is still a route where one was named late. -/
theorem NamedLate.hasRoute (h : NamedLate notFound notAllowed calls path) :
    (after notFound notAllowed calls).HasRoute path := by
  induction calls using List.reverseRecOn with
  | nil => exact (not_since_nil h).elim
  | append_singleton calls c =>
    rw [after_concat]
    obtain ⟨routes, hkeeps⟩ := after_keeps notFound notAllowed calls
    rcases (since_concat c).mp h with hlate | ⟨-, hstays⟩
    · exact hkeeps.hasRoute_call hlate
    · exact not_not.mp hstays

/-- Every route goes by its own pattern unless it was named late. -/
theorem after_spelled {routes : List (Route H)}
    (h : (after notFound notAllowed calls).Keeps routes) :
    ∀ route ∈ routes, route.Spelled (after notFound notAllowed calls).registry
      (NamedLate notFound notAllowed calls route.path) := by
  induction calls using List.reverseRecOn generalizing routes with
  | nil =>
    obtain rfl := (new_keeps notFound notAllowed).table_eq h.table
    exact fun route hroute => (List.not_mem_nil hroute).elim
  | append_singleton calls c ih =>
    obtain ⟨before, hbefore⟩ := after_keeps notFound notAllowed calls
    rw [after_concat] at h ⊢
    intro route hroute
    have hspelled :=
      hbefore.call_spelled c h (fun _ => NamedLate.hasRoute) (ih hbefore) route hroute
    refine hspelled.congr (fun _ _ => id) ?_
    -- The route is there after the call, so the call did not take it.
    have hstays : ((after notFound notAllowed calls).call c).HasRoute route.path :=
      h.hasRoute_iff.mpr ⟨route, hroute, rfl⟩
    rw [NamedLate, since_concat, not_not, and_iff_left hstays]
    rfl

end run

end Router

/-- Whatever was added and removed, a name that a listing shows belongs to a pattern with the path
of the one it shows. The two are the same, unless the route was without a name first and named by
another pattern later. -/
theorem Router.list_names {notFound notAllowed : H} {calls : List (Call H)} {entry : Listed}
    (hentry : entry ∈ (after notFound notAllowed calls).list) (hname : entry.name ≠ "") :
    ∃ text pattern own, (after notFound notAllowed calls).routePath? entry.name = some text ∧
      Pattern.parse text = .ok pattern ∧ Pattern.parse entry.pattern = .ok own ∧
      pattern.path = own.path ∧
      (text = entry.pattern ↔ ¬ NamedLate notFound notAllowed calls own.path) := by
  obtain ⟨routes, hkeeps⟩ := after_keeps notFound notAllowed calls
  rw [hkeeps.list_eq] at hentry
  obtain ⟨route, hroute, hlisted⟩ := List.mem_flatMap.mp hentry
  obtain ⟨method, -, rfl⟩ := List.mem_map.mp hlisted
  have hspelled := after_spelled hkeeps route hroute
  obtain ⟨own, hown, -, hpath, -⟩ := hkeeps.pattern hroute
  rw [Route.Spelled, if_neg hname] at hspelled
  obtain ⟨text, htext, hsame⟩ := hspelled
  obtain ⟨same, entry, hsametext, hentry, hentrypath⟩ :=
    Registry.pathOf?_eq_some.mp (hkeeps.agrees.named route hroute hname)
  obtain rfl := Option.some.inj (htext.symm.trans hsametext)
  obtain ⟨pattern, hparse, -, hpatternpath⟩ := hkeeps.agrees.reads _ _ hentry
  refine ⟨text, pattern, own, htext, hparse, hown, ?_, hpath ▸ hsame⟩
  rw [hpatternpath, hentrypath, hpath]

/-- A route that is named by its second addition, which calls the parameter otherwise. -/
theorem Router.list_names_late :
    (⟨"m", "GET", "/:b"⟩ : Listed) ∈
      (after 404 405 [.add "" "GET" "/:b" 1, .add "m" "POST" "/:c" 2]).list ∧
    NamedLate 404 405 [.add "" "GET" "/:b" 1, .add "m" "POST" "/:c" 2] "/:".toList := by
  have hentry : (⟨"m", "GET", "/:b"⟩ : Listed) ∈
      (after 404 405 [.add "" "GET" "/:b" 1, .add "m" "POST" "/:c" 2]).list := by decide +kernel
  have hbound : (after 404 405 [.add "" "GET" "/:b" 1, .add "m" "POST" "/:c" 2]).routePath? "m" =
      some "/:c" := by decide +kernel
  have hparse : Pattern.parse "/:b" =
      .ok ⟨⟨"/:".toList, ["b"], [⟨.static, 1⟩], .param⟩, "/:b"⟩ := by decide +kernel
  obtain ⟨text, pattern, own, htext, -, hown, -, hsame⟩ := list_names hentry (by decide)
  obtain rfl := Option.some.inj (hbound.symm.trans htext)
  obtain rfl := Except.ok.inj (hparse.symm.trans hown)
  exact ⟨hentry, not_not.mp (mt hsame.mpr (by decide))⟩

/-- What a listing shows with a name is not always what the name is for. -/
theorem Router.list_names_differ : ¬ ∀ (notFound notAllowed : Nat) (calls : List (Call Nat)),
    ∀ entry ∈ (after notFound notAllowed calls).list, entry.name ≠ "" →
      (after notFound notAllowed calls).routePath? entry.name = some entry.pattern := by
  intro h
  have hsame := h 404 405 [.add "" "GET" "/:b" 1, .add "m" "POST" "/:c" 2] ⟨"m", "GET", "/:b"⟩
    (by decide +kernel) (by decide)
  revert hsame
  decide +kernel

end Routing
