import Routing.Proofs.Router.Reachable
import Routing.Proofs.Trie.Walk

/-! The table of routes under additions.

An addition puts a pattern into the trie by a stretch at a time, splits nodes and moves what they
carry. In the table of live routes one route changes, that at the pattern's path, and every
other stays where and what it is (`Router.add_routes`). -/
namespace Routing
open Trie
variable {H : Type}

/-- What an addition makes of the route at the pattern's path, if there was one before. -/
structure Trie.Route.Entered (old : Option (Route H)) (new : Route H) (name method : String)
    (pattern : Pattern) (handler : H) : Prop where
  path : new.path = pattern.path
  methods : ∀ m, new.methods.own? m = if m = method then some handler
    else old.bind (·.methods.own? m)
  fresh : old = none → new.name = name ∧ new.pattern = pattern.text ∧ new.params = pattern.params
  /-- A route that was there keeps its pattern, and its name if it has one. -/
  kept : ∀ route, old = some route → route.path = pattern.path ∧ new.pattern = route.pattern ∧
    new.params = route.params ∧ new.name = if route.name = "" then name else route.name

namespace Trie

/-- A node with a route keeps its pattern and its parameters when its path is registered again. -/
theorem Content.Carries.attach_eq {c : Content H} {pattern : Pattern} (h : c.Carries pattern.path)
    (hroute : c.hasRoute = true) (hnames : Names pattern.text pattern.params pattern.path)
    (name method : String) (handler : H) :
    c.attach ⟨method, handler, name, pattern.text, pattern.params⟩ =
      { c with
        methods := c.methods.insert method handler
        name := if c.name = "" then name else c.name } := by
  have hcarried := h.route hroute
  have hparams : (if c.params.isEmpty then pattern.params else c.params) = c.params := by
    split
    · next hempty =>
      -- Without placeholders in the path no pattern for it has parameters.
      have hlength := hnames.length.trans hcarried.length.symm
      rw [List.isEmpty_iff] at hempty
      rw [hempty] at hlength ⊢
      exact List.length_eq_zero_iff.mp hlength
    · rfl
  rw [attach, if_neg hcarried.ne_empty, hparams]

/-- A registration of a path is seen in its route. -/
theorem Content.Carries.entered {c : Content H} {pattern : Pattern} (h : c.Carries pattern.path)
    (hnames : Names pattern.text pattern.params pattern.path) (name method : String) (handler : H) :
    ∃ new, (c.attach ⟨method, handler, name, pattern.text, pattern.params⟩).routeAt pattern.path =
        some new ∧
      Route.Entered (c.routeAt pattern.path) new name method pattern handler ∧
      new.params.length = pattern.params.length := by
  let registration : Registration H := ⟨method, handler, name, pattern.text, pattern.params⟩
  have hnew : (c.attach registration).routeAt pattern.path = some ⟨pattern.path,
      (c.attach registration).name, (c.attach registration).pattern,
      (c.attach registration).params, (c.attach registration).methods⟩ :=
    Content.routeAt_of_hasRoute (Content.hasRoute_attach ..) _
  refine ⟨_, hnew, ?_⟩
  cases hroute : c.hasRoute with
  | false =>
    obtain ⟨hname, hpattern, hparams⟩ := h.plain hroute
    have hmethods : c.methods = .empty := by
      rw [Content.hasRoute, Bool.not_eq_false'] at hroute
      exact Methods.eq_empty hroute
    rw [Content.routeAt_eq_none hroute]
    refine ⟨⟨rfl, fun m => ?_, fun _ => ?_, fun route hold => (by cases hold)⟩, ?_⟩
    · rw [Content.attach, hmethods, Methods.own?_insert, Methods.own?_empty]
      rfl
    · simp [Content.attach, registration, hname, hpattern, hparams]
    · simp [Content.attach, registration, hparams]
  | true =>
    have hcarried := h.route hroute
    have hold : c.routeAt pattern.path =
        some ⟨pattern.path, c.name, c.pattern, c.params, c.methods⟩ :=
      Content.routeAt_of_hasRoute hroute _
    have hattach := h.attach_eq hroute hnames name method handler
    have hpattern : (c.attach registration).pattern = c.pattern := by rw [hattach]
    have hparams : (c.attach registration).params = c.params := by rw [hattach]
    rw [hold]
    refine ⟨⟨rfl, fun m => ?_, fun hnone => (by cases hnone), fun route heq => ?_⟩, ?_⟩
    · exact Methods.own?_insert ..
    · obtain rfl := Option.some.inj heq
      exact ⟨rfl, hpattern, hparams, rfl⟩
    · show (c.attach registration).params.length = _
      rw [hparams, hcarried.length, hnames.length]

end Trie

/-- An addition changes the route at its pattern's path and no other. The count it returns is
that of the route's parameters. -/
theorem Router.add_routes (notFound notAllowed : H) (calls : List (Call H))
    {name method path : String} {handler : H} {count : Nat} {left : Router H}
    (h : ((after notFound notAllowed calls).add name method path handler).value =
      (.ok count, left)) :
    ∃ pattern front back old new, Pattern.parse path = .ok pattern ∧
      (after notFound notAllowed calls).trie.routes? = some (front ++ old.toList ++ back) ∧
      left.trie.routes? = some (front ++ [new] ++ back) ∧
      (∀ route ∈ front ++ back, route.path ≠ pattern.path) ∧
      Route.Entered old new name method pattern handler ∧
      count = new.params.length ∧
      left.maxParams =
        max (after notFound notAllowed calls).maxParams new.params.length := by
  obtain ⟨pattern, hparse, -, rfl, rfl⟩ := add_eq_ok_iff.mp h
  obtain ⟨n, hholds, hformed⟩ := after_valid notFound notAllowed calls
  generalize after notFound notAllowed calls = r at *
  obtain ⟨t', n', hplant, hholds', hsound, -, front, back, c, hcarries, hbefore, hafter⟩ :=
    hholds.plant hformed (r := ⟨method, handler, name, pattern.text, pattern.params⟩)
      (Pattern.reads_of_parse hparse).2 (names_of_parse hparse)
  obtain ⟨new, hnew, hentered, hparams⟩ :=
    hcarries.entered (names_of_parse hparse) name method handler
  rw [show c.register (some _) = c.attach _ from rfl, hnew, Option.toList_some] at hafter
  refine ⟨pattern, front, back, _, new, hparse, ?_, ?_, ?_, hentered, hparams.symm, ?_⟩
  · rw [hholds.routes?_eq, hbefore]
  · rw [enter, hplant, Option.getD_some, hholds'.routes?_eq, hafter]
  · have hnodup := nodup_route_paths hsound
    rw [hafter, List.append_assoc, List.singleton_append, List.map_append, List.map_cons,
      List.nodup_middle, List.nodup_cons, hentered.path, ← List.map_append] at hnodup
    exact fun route hroute heq => hnodup.1 (List.mem_map.mpr ⟨route, hroute, heq⟩)
  · rw [hparams]
    rfl

/-- A second method on a path, with another name for its parameter. -/
theorem Router.add_routes_put : ∃ count left front back new,
    ((after 0 1 [.add "user" "GET" "/users/:id" 2]).add "" "PUT" "users/:uid" 3).value =
        (.ok count, left) ∧
      left.trie.routes? = some (front ++ [new] ++ back) ∧
      new.methods.own? "PUT" = some 3 ∧ count = new.params.length := by
  obtain ⟨count, left, hadded⟩ : ∃ count left,
      ((after 0 1 [.add "user" "GET" "/users/:id" 2]).add "" "PUT" "users/:uid" 3).value =
        (.ok count, left) := by
    have hok : (((after 0 1 [.add "user" "GET" "/users/:id" 2]).add "" "PUT" "users/:uid"
      3).value.1).isOk = true := by decide +kernel
    cases hvalue : ((after 0 1 [.add "user" "GET" "/users/:id" 2]).add "" "PUT" "users/:uid"
      3).value.1 with
    | ok count => exact ⟨count, _, Prod.ext hvalue rfl⟩
    | error e =>
      rw [hvalue] at hok
      cases hok
  obtain ⟨pattern, front, back, old, new, -, -, hroutes, -, hentered, hparams, -⟩ :=
    add_routes 0 1 [.add "user" "GET" "/users/:id" 2] hadded
  exact ⟨count, left, front, back, new, hadded, hroutes, hentered.methods "PUT", hparams⟩

end Routing
