import Mathlib.Data.List.Pairwise
import Routing.Config.Checks
import Routing.Proofs.Router.Session
import Routing.Proofs.Router.Spelling
import Routing.Router.FromConfig

/-! Routers built from tables of entries.

Entries are added one after another, and each is held against those before it. What comes of it is
decided by the table as a whole: the router is built if all paths are patterns and names and
patterns go one to one (`Consistent`), and where no two entries stand for one method of one route,
lookups do not tell in which order the entries stand (`Router.ofConfig_order`). -/
namespace Routing
open Trie
variable {H : Type}

/-! ### Tables of entries -/

namespace RouteEntry

/-- If both entries have names, these are the same just when their patterns are. -/
def Agrees (e e' : RouteEntry) : Prop :=
  e.name ≠ "" → e'.name ≠ "" →
    (e.name = e'.name ↔ Pattern.normalize e.path = Pattern.normalize e'.path)

/-- Both entries stand for the same method of the same route. -/
def Clashes (e e' : RouteEntry) : Prop :=
  e.method = e'.method ∧ ∃ pattern pattern', Pattern.parse e.path = .ok pattern ∧
    Pattern.parse e'.path = .ok pattern' ∧ pattern.path = pattern'.path

theorem Clashes.symm {e e' : RouteEntry} (h : e.Clashes e') : e'.Clashes e := by
  obtain ⟨hmethod, pattern, pattern', hparse, hparse', hpath⟩ := h
  exact ⟨hmethod.symm, pattern', pattern, hparse', hparse, hpath.symm⟩

theorem Agrees.symm {e e' : RouteEntry} (h : e.Agrees e') : e'.Agrees e := fun hname hname' => by
  rw [eq_comm, h hname' hname, eq_comm]

theorem agrees_self (e : RouteEntry) : e.Agrees e := fun _ _ => iff_of_true rfl rfl

end RouteEntry

/-- Entries that go together: every path is a pattern, no name has two patterns and no pattern two
names. Entries without a name are not held to this. -/
structure Consistent (entries : List RouteEntry) : Prop where
  patterns : ∀ e ∈ entries, ∃ pattern, Pattern.parse e.path = .ok pattern
  names : ∀ e ∈ entries, ∀ e' ∈ entries, e.Agrees e'

/-- No two entries stand for the same method of the same route. -/
def Distinct (entries : List RouteEntry) : Prop := entries.Pairwise fun e e' => ¬ e.Clashes e'

theorem Distinct.eq_of_clashes {entries : List RouteEntry} (h : Distinct entries) :
    ∀ e ∈ entries, ∀ e' ∈ entries, e.Clashes e' → e = e' := by
  intro e he e' he' hclash
  by_contra hne
  have : Std.Symm fun e e' : RouteEntry => ¬ e.Clashes e' :=
    ⟨fun _ _ => mt RouteEntry.Clashes.symm⟩
  exact List.Pairwise.forall h he he' hne hclash

/-- The names of parameters in two different patterns of a table that have the same path. -/
def Spelled (entries : List RouteEntry) (names names' : List String) : Prop :=
  ∃ e ∈ entries, ∃ e' ∈ entries, ∃ pattern pattern', Pattern.parse e.path = .ok pattern ∧
    Pattern.parse e'.path = .ok pattern' ∧ pattern.path = pattern'.path ∧
    pattern.text ≠ pattern'.text ∧ names = pattern.params ∧ names' = pattern'.params

/-- Every id of a configuration stands for a handler. -/
structure Config.Resolves (c : Config) (resolve : String → Option H) : Prop where
  notFound : resolve c.router.notFound ≠ none
  notAllowed : resolve c.router.methodNotAllowed ≠ none
  routes : ∀ e ∈ c.routes, resolve e.handler ≠ none

theorem Consistent.subset {entries entries' : List RouteEntry} (h : Consistent entries')
    (hsub : entries ⊆ entries') : Consistent entries where
  patterns e he := h.patterns e (hsub he)
  names e he e' he' := h.names e (hsub he) e' (hsub he')

theorem Consistent.perm {entries entries' : List RouteEntry} (h : entries.Perm entries') :
    Consistent entries ↔ Consistent entries' :=
  ⟨fun hc => hc.subset h.symm.subset, fun hc => hc.subset h.subset⟩

/-- One more entry goes with entries that go together if it goes with each of them. -/
theorem consistent_concat {entries : List RouteEntry} {e : RouteEntry} :
    Consistent (entries ++ [e]) ↔ Consistent entries ∧
      (∃ pattern, Pattern.parse e.path = .ok pattern) ∧ ∀ e' ∈ entries, e'.Agrees e := by
  constructor
  · rintro ⟨hpatterns, hnames⟩
    rw [List.forall_mem_append] at hpatterns hnames
    refine ⟨⟨hpatterns.1, fun e' he' e'' he'' => ?_⟩, hpatterns.2 e (List.mem_singleton_self e),
      fun e' he' => ?_⟩
    · exact hnames.1 e' he' e'' (List.mem_append_left _ he'')
    · exact hnames.1 e' he' e (List.mem_append_right _ (List.mem_singleton_self e))
  · rintro ⟨⟨hpatterns, hnames⟩, hpattern, hlast⟩
    constructor
    · rw [List.forall_mem_append]
      exact ⟨hpatterns, by simpa using hpattern⟩
    · intro a ha b hb
      rw [List.mem_append, List.mem_singleton] at ha hb
      rcases ha with ha | rfl <;> rcases hb with hb | rfl
      · exact hnames a ha b hb
      · exact hlast a ha
      · exact (hlast b hb).symm
      · exact RouteEntry.agrees_self _

namespace Router

/-! ### One entry after another -/

/-- What there is of a router once these entries have been added. -/
structure Filled (resolve : String → Option H) (done : List RouteEntry) (r : Router H)
    (routes : List (Route H)) : Prop where
  keeps : r.Keeps routes
  bound : ∀ name text, r.registry.path? name = some text ↔
    ∃ e ∈ done, e.name = name ∧ name ≠ "" ∧ Pattern.normalize e.path = text
  origin : ∀ route ∈ routes, ∃ e ∈ done, Pattern.normalize e.path = route.pattern
  methods : ∀ route ∈ routes, ∀ method handler, route.methods.own? method = some handler →
    ∃ e ∈ done, resolve e.handler = some handler ∧ e.method = method ∧
      ∃ pattern, Pattern.parse e.path = .ok pattern ∧ pattern.path = route.path
  reached : ∀ e ∈ done, ∀ pattern, Pattern.parse e.path = .ok pattern →
    ∃ route ∈ routes, route.path = pattern.path ∧ route.methods.own? e.method ≠ none

theorem new_filled (resolve : String → Option H) (notFound notAllowed : H) :
    Filled resolve [] (new notFound notAllowed) [] where
  keeps := new_keeps notFound notAllowed
  bound := by simp [new, Registry.empty, Registry.path?]
  origin := by simp
  methods := by simp
  reached := by simp

section filled
variable {resolve : String → Option H} {done : List RouteEntry} {r : Router H}
  {routes : List (Route H)} (h : Filled resolve done r routes) {e : RouteEntry}
include h

/-- An entry is accepted if it goes with all that were added before. -/
theorem Filled.accept_iff {pattern : Pattern} (hparse : Pattern.parse e.path = .ok pattern) :
    r.registry.accept e.name pattern = .ok () ↔ ∀ e' ∈ done, e'.Agrees e := by
  have htext : pattern.text = Pattern.normalize e.path := Pattern.text_of_parse hparse
  rw [Registry.accept_eq_ok_iff, htext]
  constructor
  · intro haccept e' he' hname' hname
    obtain ⟨hpath, hentry⟩ := haccept hname
    constructor
    · intro hsame
      exact hpath _ ((h.bound _ _).mpr ⟨e', he', hsame, hname, rfl⟩)
    · intro hsame
      have hbound := (h.bound e'.name _).mpr ⟨e', he', rfl, hname', hsame⟩
      obtain ⟨entry, hlookup, hlabel⟩ := (h.keeps.agrees.names _ _ hname').mp hbound
      rw [← hlabel] at hname' ⊢
      exact (hentry entry hlookup).resolve_left hname'
  · intro hagrees hname
    constructor
    · intro text htext
      obtain ⟨e', he', hsame, hname', rfl⟩ := (h.bound _ _).mp htext
      exact (hagrees e' he' (hsame ▸ hname) hname).mp hsame
    · intro entry hentry
      refine or_iff_not_imp_left.mpr fun hlabel => ?_
      have hbound := (h.keeps.agrees.names entry.name _ hlabel).mpr ⟨entry, hentry, rfl⟩
      obtain ⟨e', he', hsame, -, hpath⟩ := (h.bound _ _).mp hbound
      rw [← hsame] at hlabel ⊢
      exact (hagrees e' he' hlabel hname).mpr hpath

/-- The names that are bound once an entry has been added. -/
theorem Filled.bound_record {pattern : Pattern} (hparse : Pattern.parse e.path = .ok pattern)
    (haccept : r.registry.accept e.name pattern = .ok ()) (name text : String) :
    (r.registry.record e.name pattern).path? name = some text ↔
      ∃ e' ∈ done ++ [e], e'.name = name ∧ name ≠ "" ∧ Pattern.normalize e'.path = text := by
  have htext : pattern.text = Pattern.normalize e.path := Pattern.text_of_parse hparse
  have hagrees := (h.accept_iff hparse).mp haccept
  rw [Registry.path?_record h.keeps.agrees.toSound haccept]
  split
  · next hsame =>
    obtain ⟨rfl, hname⟩ := hsame
    rw [htext, Option.some_inj]
    constructor
    · exact fun heq => ⟨e, by simp, rfl, hname, heq⟩
    · rintro ⟨e', he', hsame, -, rfl⟩
      rw [List.mem_append, List.mem_singleton] at he'
      rcases he' with he' | rfl
      · exact ((hagrees e' he' (hsame ▸ hname) hname).mp hsame).symm
      · rfl
  · next hother =>
    rw [h.bound]
    constructor
    · rintro ⟨e', he', hrest⟩
      exact ⟨e', List.mem_append_left _ he', hrest⟩
    · rintro ⟨e', he', hsame, hname, htext⟩
      rw [List.mem_append, List.mem_singleton] at he'
      rcases he' with he' | rfl
      · exact ⟨e', he', hsame, hname, htext⟩
      · exact absurd ⟨hsame.symm, hsame ▸ hname⟩ hother

theorem Filled.enter {pattern : Pattern} (hparse : Pattern.parse e.path = .ok pattern)
    (haccept : r.registry.accept e.name pattern = .ok ()) {handler : H}
    (hhandler : resolve e.handler = some handler) :
    ∃ routes', Filled resolve (done ++ [e]) (r.enter e.name e.method pattern handler) routes' := by
  have htext : pattern.text = Pattern.normalize e.path := Pattern.text_of_parse hparse
  obtain ⟨front, back, old, new, rfl, hentered, hkeeps⟩ :=
    h.keeps.enter hparse haccept e.method handler
  have hlater {P : RouteEntry → Prop} : (∃ e' ∈ done, P e') → ∃ e' ∈ done ++ [e], P e' :=
    fun ⟨e', he', hP⟩ => ⟨e', List.mem_append_left _ he', hP⟩
  have hself : e ∈ done ++ [e] := by simp
  refine ⟨_, hkeeps, h.bound_record hparse haccept, fun route hroute => ?_,
    fun route hroute method found hown => ?_, fun e' he' pattern' hparse' => ?_⟩
  · rcases Registry.mem_replaced old hroute with rfl | hroute
    · cases old with
      | none => exact ⟨e, hself, by rw [(hentered.fresh rfl).2.1, htext]⟩
      | some route =>
        rw [(hentered.kept route rfl).2.1]
        exact hlater (h.origin route (by simp))
    · exact hlater (h.origin route hroute)
  · rcases Registry.mem_replaced old hroute with rfl | hroute
    · rw [hentered.methods] at hown
      split at hown
      · next hmethod =>
        exact ⟨e, hself, hhandler.trans hown, hmethod.symm, pattern, hparse, hentered.path.symm⟩
      · obtain ⟨kept, rfl, hkept⟩ := Option.bind_eq_some_iff.mp hown
        have hpath : kept.path = route.path := (hentered.kept kept rfl).1.trans hentered.path.symm
        rw [← hpath]
        exact hlater (h.methods kept (by simp) method found hkept)
    · exact hlater (h.methods route hroute method found hown)
  · rw [List.mem_append, List.mem_singleton] at he'
    rcases he' with he' | rfl
    · obtain ⟨part, hpart, hpath, hown⟩ := h.reached e' he' pattern' hparse'
      obtain ⟨grown, hgrown, hgrownPath, hmethods⟩ := hentered.exists_grown hpart
      refine ⟨grown, hgrown, hgrownPath.trans hpath, ?_⟩
      rcases hmethods e'.method with hkept | ⟨-, -, hnew⟩
      · rwa [hkept]
      · rw [hnew]
        exact Option.some_ne_none _
    · obtain rfl := Except.ok.inj (hparse.symm.trans hparse')
      refine ⟨new, by simp, hentered.path, ?_⟩
      rw [hentered.methods, if_pos rfl]
      exact Option.some_ne_none _

theorem Filled.add_ok_iff (handler : H) :
    (∃ count, (r.add e.name e.method e.path handler).value.1 = .ok count) ↔
      (∃ pattern, Pattern.parse e.path = .ok pattern) ∧ ∀ e' ∈ done, e'.Agrees e := by
  rw [exists_add_iff]
  constructor
  · rintro ⟨pattern, hparse, haccept⟩
    exact ⟨⟨pattern, hparse⟩, (h.accept_iff hparse).mp haccept⟩
  · rintro ⟨⟨pattern, hparse⟩, hagrees⟩
    exact ⟨pattern, hparse, (h.accept_iff hparse).mpr hagrees⟩

theorem Filled.add {handler : H} (hhandler : resolve e.handler = some handler) {count : Nat}
    {left : Router H} (hadd : (r.add e.name e.method e.path handler).value = (.ok count, left)) :
    r.SameFallbacks left ∧ ∃ routes', Filled resolve (done ++ [e]) left routes' := by
  obtain ⟨pattern, hparse, haccept, -, rfl⟩ := add_eq_ok_iff.mp hadd
  exact ⟨⟨rfl, rfl⟩, h.enter hparse haccept hhandler⟩

end filled

theorem addEntries_cons (resolve : String → Option H) (r : Router H) {e : RouteEntry} {handler : H}
    (hhandler : resolve e.handler = some handler) (rest : List RouteEntry) :
    (addEntries resolve r (e :: rest)).value =
      match (r.add e.name e.method e.path handler).value.1 with
      | .error error => .error error
      | .ok _ =>
        (addEntries resolve (r.add e.name e.method e.path handler).value.2 rest).value := by
  simp only [addEntries, handlerOf, hhandler, Logged.value_bind]
  generalize (r.add e.name e.method e.path handler).value = result
  obtain ⟨result, left⟩ := result
  cases result <;> rfl

section entries
variable {resolve : String → Option H} {done entries : List RouteEntry} {r : Router H}
  {routes : List (Route H)} (h : Filled resolve done r routes)
  (hresolve : ∀ e ∈ entries, resolve e.handler ≠ none)
include h hresolve

/-- Entries are added to the last if they go with each other and with those before. -/
theorem addEntries_ok_iff (hdone : Consistent done) :
    (∃ r', (addEntries resolve r entries).value = .ok r') ↔ Consistent (done ++ entries) := by
  induction entries generalizing r done routes with
  | nil =>
    rw [List.append_nil]
    exact iff_of_true ⟨r, rfl⟩ hdone
  | cons e rest ih =>
    obtain ⟨hfirst, hrest⟩ := List.forall_mem_cons.mp hresolve
    obtain ⟨handler, hhandler⟩ := Option.ne_none_iff_exists'.mp hfirst
    rw [addEntries_cons resolve r hhandler, List.append_cons]
    have hadd := h.add_ok_iff (e := e) handler
    cases hvalue : (r.add e.name e.method e.path handler).value.1 with
    | error error =>
      rw [hvalue] at hadd
      refine iff_of_false (by simp) fun hall => ?_
      have hconcat := consistent_concat.mp (hall.subset (List.subset_append_left _ _))
      obtain ⟨count, hcount⟩ := hadd.mpr hconcat.2
      cases hcount
    | ok count =>
      obtain ⟨-, routes', hfilled⟩ := h.add hhandler (Prod.ext hvalue rfl)
      exact ih hfilled hrest (consistent_concat.mpr ⟨hdone, hadd.mp ⟨count, hvalue⟩⟩)

theorem addEntries_filled {r' : Router H} (hadd : (addEntries resolve r entries).value = .ok r') :
    r.SameFallbacks r' ∧ ∃ routes', Filled resolve (done ++ entries) r' routes' := by
  induction entries generalizing r done routes with
  | nil =>
    cases hadd
    rw [List.append_nil]
    exact ⟨⟨rfl, rfl⟩, routes, h⟩
  | cons e rest ih =>
    obtain ⟨hfirst, hrest⟩ := List.forall_mem_cons.mp hresolve
    obtain ⟨handler, hhandler⟩ := Option.ne_none_iff_exists'.mp hfirst
    rw [addEntries_cons resolve r hhandler] at hadd
    cases hvalue : (r.add e.name e.method e.path handler).value.1 with
    | error error =>
      rw [hvalue] at hadd
      cases hadd
    | ok count =>
      rw [hvalue] at hadd
      obtain ⟨⟨hnotFound, hnotAllowed⟩, routes', hfilled⟩ :=
        h.add hhandler (Prod.ext hvalue rfl)
      obtain ⟨⟨hnotFound', hnotAllowed'⟩, hlast⟩ := ih hfilled hrest hadd
      rw [List.append_cons]
      exact ⟨⟨hnotFound'.trans hnotFound, hnotAllowed'.trans hnotAllowed⟩, hlast⟩

end entries

/-! ### In any order -/

theorem Filled.spelled {resolve : String → Option H} {done : List RouteEntry} {r : Router H}
    {routes : List (Route H)} (h : Filled resolve done r routes) {route : Route H}
    (hroute : route ∈ routes) :
    ∃ e ∈ done, ∃ pattern, Pattern.parse e.path = .ok pattern ∧ pattern.text = route.pattern ∧
      pattern.path = route.path ∧ pattern.params = route.params := by
  obtain ⟨e, he, htext⟩ := h.origin route hroute
  obtain ⟨pattern, hparse, hrest⟩ := h.keeps.pattern hroute
  rw [← htext, Pattern.parse_normalize] at hparse
  exact ⟨e, he, pattern, hparse, hrest⟩

section order
variable {resolve : String → Option H} {done done' : List RouteEntry} {r r' : Router H}
  {routes routes' : List (Route H)} (h : Filled resolve done r routes)
  (h' : Filled resolve done' r' routes') (hmem : ∀ e, e ∈ done ↔ e ∈ done')
include h h' hmem

theorem Filled.exists_path {route : Route H} (hroute : route ∈ routes) :
    ∃ route' ∈ routes', route'.path = route.path := by
  obtain ⟨e, he, pattern, hparse, -, hpath, -⟩ := h.spelled hroute
  obtain ⟨route', hroute', hpath', -⟩ := h'.reached e ((hmem e).mp he) pattern hparse
  exact ⟨route', hroute', hpath'.trans hpath⟩

variable (hdistinct : ∀ e ∈ done, ∀ e' ∈ done, e.Clashes e' → e = e')
include hdistinct

/-- A method has the handler of the one entry that stands for it, in whichever order. -/
theorem Filled.own?_eq_some {route route' : Route H} (hroute : route ∈ routes)
    (hroute' : route' ∈ routes') (hpath : route'.path = route.path) {method : String} {handler : H}
    (hown : route.methods.own? method = some handler) :
    route'.methods.own? method = some handler := by
  obtain ⟨e, he, hhandler, rfl, pattern, hparse, hat⟩ := h.methods route hroute method handler hown
  obtain ⟨same, hsame, hsamePath, hsome⟩ := h'.reached e ((hmem e).mp he) pattern hparse
  obtain rfl := h'.keeps.eq_of_path hsame hroute' (hsamePath.trans (hat.trans hpath.symm))
  obtain ⟨found, hfound⟩ := Option.ne_none_iff_exists'.mp hsome
  obtain ⟨e', he', hhandler', hmethod, pattern', hparse', hat'⟩ :=
    h'.methods same hroute' e.method found hfound
  obtain rfl : e = e' := hdistinct e he e' ((hmem e').mpr he')
    ⟨hmethod.symm, pattern, pattern', hparse, hparse', hat.trans (hpath.symm.trans hat'.symm)⟩
  rw [hfound, ← hhandler', hhandler]

theorem Filled.alike {route : Route H} (hroute : route ∈ routes) :
    ∃ route' ∈ routes', Route.Alike (Spelled done) route route' := by
  obtain ⟨route', hroute', hpath⟩ := h.exists_path h' hmem hroute
  have hdistinct' : ∀ e ∈ done', ∀ e' ∈ done', e.Clashes e' → e = e' := fun e he e' he' =>
    hdistinct e ((hmem e).mpr he) e' ((hmem e').mpr he')
  refine ⟨route', hroute', hpath, ?_, ?_⟩
  · refine (h'.keeps.methods hroute').1.ext (h.keeps.methods hroute).1 fun method => ?_
    ext handler
    exact ⟨h'.own?_eq_some h (fun e => (hmem e).symm) hdistinct' hroute' hroute hpath.symm,
      h.own?_eq_some h' hmem hdistinct hroute hroute' hpath⟩
  · obtain ⟨e, he, pattern, hparse, htext, hat, hparams⟩ := h.spelled hroute
    obtain ⟨e', he', pattern', hparse', htext', hat', hparams'⟩ := h'.spelled hroute'
    by_cases hsame : pattern.text = pattern'.text
    · have hself := (Pattern.parse_text hparse).1
      rw [hsame] at hself
      obtain rfl := Except.ok.inj (hself.symm.trans (Pattern.parse_text hparse').1)
      exact .inl (hparams'.symm.trans hparams)
    · exact .inr ⟨e, he, e', (hmem e').mpr he', pattern, pattern', hparse, hparse',
        hat.trans (hpath.symm.trans hat'.symm), hsame, hparams.symm, hparams'.symm⟩

/-- Lookups do not tell in which order the entries were added. -/
theorem Filled.find_alike (hsame : r.SameFallbacks r') (method path : String) (params : Params) :
    Found.Alike (Spelled done) (r.find method path params) (r'.find method path params) := by
  have hpairs : ∀ route ∈ routes, ∃ route' ∈ routes', Route.Alike (Spelled done) route route' :=
    fun _ => h.alike h' hmem hdistinct
  have hback : ∀ route' ∈ routes', ∃ route ∈ routes, route'.path = route.path := by
    intro route' hroute'
    obtain ⟨route, hroute, hpath⟩ := h'.exists_path h (fun e => (hmem e).symm) hroute'
    exact ⟨route, hroute, hpath.symm⟩
  have hfirsts : Firsts routes := by
    obtain ⟨n, -, hn, rfl⟩ := h.keeps.exists_tree
    exact hn.firsts
  rw [h.keeps.find_eq, h'.keeps.find_eq, hsame.1, hsame.2]
  exact lookup_alike hpairs hback h.keeps.nodup_paths h'.keeps.nodup_paths hfirsts _ _ method path

end order

/-! ### Configurations -/

theorem forM_eq_ok_iff {α ε : Type} {f : α → Except ε Unit} {l : List α} :
    l.forM f = .ok () ↔ ∀ a ∈ l, f a = .ok () := by
  induction l with
  | nil => exact iff_of_true rfl (by simp)
  | cons a rest ih =>
    rw [List.forall_mem_cons, ← ih]
    show (f a >>= fun _ => rest.forM f) = _ ↔ _
    cases f a with
    | error e => exact iff_of_false nofun nofun
    | ok u => exact (and_iff_right rfl).symm

theorem validate_eq_ok_iff {checks : Config.Checks} {c : Config} :
    c.validate checks = .ok () ↔ c.router.validate = .ok () ∧
      c.logging.validate checks = .ok () ∧ ∀ e ∈ c.routes, e.validate checks = .ok () := by
  rw [← forM_eq_ok_iff]
  show (c.router.validate >>= fun _ => c.logging.validate checks >>= fun _ =>
    c.routes.forM _) = _ ↔ _
  cases c.router.validate with
  | error e => exact iff_of_false nofun nofun
  | ok u =>
    cases c.logging.validate checks with
    | error e => exact iff_of_false nofun nofun
    | ok u => exact ((and_iff_right rfl).trans (and_iff_right rfl)).symm

/-- The router of a configuration without fault whose ids all stand for handlers. -/
theorem ofConfig_value {checks : Config.Checks} {c : Config} {resolve : String → Option H}
    (hvalid : c.validate checks = .ok ())
    {notFound notAllowed : H} (hnotFound : resolve c.router.notFound = some notFound)
    (hnotAllowed : resolve c.router.methodNotAllowed = some notAllowed) :
    (ofConfig checks c resolve).value =
      (addEntries resolve (new notFound notAllowed) c.routes).value := by
  have hstart : (c.validate checks >>= fun () => fallbacks resolve c.router) =
      .ok (new notFound notAllowed) := by
    simp [hvalid, fallbacks, handlerOf, hnotFound, hnotAllowed, bind, Except.bind, pure,
      Except.pure]
  rw [ofConfig, hstart]
  simp only [Logged.value_bind]
  cases (addEntries resolve (new notFound notAllowed) c.routes).value <;> rfl

end Router

/-- A configuration without fault whose ids all stand for handlers makes a router just when its
entries go together, so in any order of them or in none. Where no two entries stand for the same
method of the same route, the routers of two orders answer every lookup with the same handler, the
same count and the same values; only names of parameters that two patterns of the same path spell
differently may differ. -/
theorem Router.ofConfig_order {checks : Config.Checks} {c : Config} {resolve : String → Option H}
    (hvalid : c.validate checks = .ok ()) (hresolve : c.Resolves resolve) :
    ((∃ r, (ofConfig checks c resolve).value = .ok r) ↔ Consistent c.routes) ∧
    ∀ table, table.Perm c.routes →
      ((∃ r, (ofConfig checks { c with routes := table } resolve).value = .ok r) ↔
        ∃ r, (ofConfig checks c resolve).value = .ok r) ∧
      (Distinct c.routes → ∀ r r', (ofConfig checks c resolve).value = .ok r →
        (ofConfig checks { c with routes := table } resolve).value = .ok r' → ∀ method path params,
          Found.Alike (Spelled c.routes) (r.find method path params)
            (r'.find method path params)) := by
  obtain ⟨notFound, hnotFound⟩ := Option.ne_none_iff_exists'.mp hresolve.notFound
  obtain ⟨notAllowed, hnotAllowed⟩ := Option.ne_none_iff_exists'.mp hresolve.notAllowed
  have hnew := new_filled resolve notFound notAllowed
  have hempty : Consistent [] := ⟨by simp, by simp⟩
  have hvalue := ofConfig_value hvalid hnotFound hnotAllowed
  have hok := addEntries_ok_iff hnew hresolve.routes hempty
  rw [List.nil_append] at hok
  rw [hvalue]
  refine ⟨hok, fun table hperm => ?_⟩
  have hresolve' : ∀ e ∈ table, resolve e.handler ≠ none := fun e he =>
    hresolve.routes e (hperm.mem_iff.mp he)
  have hvalid' : { c with routes := table }.validate checks = .ok () := by
    obtain ⟨hrouter, hlogging, hroutes⟩ := validate_eq_ok_iff.mp hvalid
    exact validate_eq_ok_iff.mpr ⟨hrouter, hlogging, fun e he => hroutes e (hperm.mem_iff.mp he)⟩
  have hvalue' := ofConfig_value hvalid' hnotFound hnotAllowed
  have hok' := addEntries_ok_iff hnew hresolve' hempty
  rw [List.nil_append] at hok'
  rw [hvalue']
  refine ⟨hok'.trans ((Consistent.perm hperm).trans hok.symm), ?_⟩
  intro hdistinct r r' hr hr' method path params
  obtain ⟨⟨hnf, hna⟩, routes, hfilled⟩ := addEntries_filled hnew hresolve.routes hr
  obtain ⟨⟨hnf', hna'⟩, routes', hfilled'⟩ := addEntries_filled hnew hresolve' hr'
  rw [List.nil_append] at hfilled hfilled'
  exact hfilled.find_alike hfilled' (fun e => hperm.mem_iff.symm) hdistinct.eq_of_clashes
    ⟨hnf'.trans hnf.symm, hna'.trans hna.symm⟩ method path params

/-- Two methods of a route that is spelled in two ways, in both orders, next to a logging
filter. -/
theorem Router.ofConfig_order_spelled :
    let entries : List RouteEntry :=
      [⟨"user", "GET", "/u/:id", "show"⟩, ⟨"", "PUT", "u/:uid", "set"⟩]
    let config : Config := ⟨.initial, ⟨.json, some "radix_router=debug"⟩, entries⟩
    ∃ r r', (ofConfig .usual config some).value = .ok r ∧
      (ofConfig .usual { config with routes := entries.reverse } some).value = .ok r' ∧
      ∀ method path params, Found.Alike (Spelled entries) (r.find method path params)
        (r'.find method path params) := by
  intro entries config
  have hvalid : config.validate .usual = .ok () := by decide +kernel
  have hresolve : config.Resolves some := ⟨nofun, nofun, nofun⟩
  have hconsistent : Consistent entries := by
    constructor
    · simp only [entries, List.forall_mem_cons]
      exact ⟨⟨_, rfl⟩, ⟨_, rfl⟩, by simp⟩
    · simp [entries, RouteEntry.Agrees]
  have hdistinct : Distinct entries := by
    simp [Distinct, entries, RouteEntry.Clashes]
  obtain ⟨hok, horder⟩ := ofConfig_order hvalid hresolve
  obtain ⟨hok', hfind⟩ := horder entries.reverse (List.reverse_perm entries)
  obtain ⟨r, hr⟩ := hok.mpr hconsistent
  obtain ⟨r', hr'⟩ := hok'.mpr ⟨r, hr⟩
  exact ⟨r, r', hr, hr', hfind hdistinct r r' hr hr'⟩

end Routing
