import Routing.Proofs.Router.Reachable
import Routing.Proofs.Trie.Walk
import Routing.Proofs.Trie.Ways
import Routing.Router.Find

/-! Lookups read the table of routes.

`lookup` answers for a method and a path from the table of live routes alone: the first in order of
the routes that match answers, or, for a method it does not serve, the route that goes on with a
`*` where it ends. A router's `find` does the same through the trie, whatever was added and
removed before (`Router.find_eq_lookup`). -/
namespace Routing
open Trie
variable {H : Type}

/-- What a route answers with for a method, if it serves it: by the handler of the method itself, or
else by that for any. -/
def Trie.Route.serve? (route : Route H) (method : String) (texts : List (List Char)) :
    Option (Found H) :=
  ((route.methods.own? method).or route.methods.any).map fun handler =>
    ⟨handler, texts.length, ⟨route.params, texts.map String.ofList⟩⟩

/-- A lookup in a table of routes. -/
def lookup (notFound notAllowed : H) (routes : List (Route H)) (method path : String) : Found H :=
  match best (matching routes (if path = "" then ['/'] else path.toList)) with
  | none => ⟨notFound, 0, .empty⟩
  | some (route, texts) =>
    let further := routes.find? fun other => other.path == route.path ++ ['*']
    ((route.serve? method texts).or
      (further.bind fun other => other.serve? method (texts ++ [[]]))).getD ⟨notAllowed, 0, .empty⟩

/-! ### Captures of a lookup -/

namespace Params

instance : LawfulSink Params where
  size_push _ _ := List.length_append
  truncate_size captures := congrArg (Params.mk captures.names) List.take_length
  truncate_push captures _ _ h :=
    congrArg (Params.mk captures.names) (List.take_append_of_le_length h)

theorem pushed_eq (params : Params) (texts : List (List Char)) :
    pushed params texts = ⟨params.names, params.values ++ texts.map String.ofList⟩ := by
  induction texts generalizing params with
  | nil => exact congrArg (Params.mk params.names) (List.append_nil _).symm
  | cons text rest ih =>
    show pushed (params.push text) rest = _
    rw [ih, push, List.map_cons, List.append_assoc]
    rfl

end Params

/-! ### The routes at a node -/

namespace Trie

/-- The route that goes on with a `*` behind a node is that of the node's wildcard. -/
theorem Part.further {whole n : Tree H} {C : Context H} (h : Part whole C n) :
    (whole.routes.find? fun other => other.path == C.above ++ n.content.text ++ ['*']) =
      (n.child? (·.kind == .wildcard)).bind fun x =>
        x.content.routeAt (C.above ++ n.content.text ++ x.content.text) := by
  cases hfind : n.child? (·.kind == Kind.wildcard) with
  | none =>
    refine List.find?_eq_none.mpr fun route hroute heq => ?_
    obtain ⟨d, hd, hat⟩ := mem_routes.mp hroute
    have hpath : C.above ++ n.content.text ++ ['*'] = d.path := by
      rw [← Cell.path_of_route? hat, eq_of_beq heq]
    obtain ⟨k, hk, hlabel⟩ := Tree.exists_kid (c := n.top C.above C.parent) h.all_sound
      (h.mem_all Tree.top_mem) hd hpath
    obtain ⟨m, hm, rfl⟩ := List.mem_map.mp hk
    have hrank := (h.child_sound hm).rank_label
    rw [show m.content.label = '*' from hlabel] at hrank
    have hkind : m.content.kind = .wildcard := by
      cases hkind : m.content.kind with
      | static => rw [hkind] at hrank; cases hrank
      | param => rw [hkind] at hrank; cases hrank
      | wildcard => rfl
    exact List.find?_eq_none.mp hfind m hm (beq_iff_eq.mpr hkind)
  | some x =>
    obtain ⟨hx, htest⟩ := Tree.child?_mem hfind
    obtain ⟨htext, -, route, hat, hroutes⟩ := h.wildcard_route hx (eq_of_beq htest)
    obtain ⟨D, hD, habove, -⟩ := h.child hx
    have hmem : route ∈ whole.routes := by
      rw [hD.plug, Context.routes_plug, habove, hroutes]
      simp
    have hpath : route.path = C.above ++ n.content.text ++ ['*'] := by
      rw [(Content.routeAt_eq_some.mp hat).2, htext]
    rw [Option.bind_some, hat]
    refine Assoc.find?_eq_some_of_only hmem (beq_iff_eq.mpr hpath) fun other hother hsame => ?_
    exact List.inj_on_of_nodup_map (nodup_route_paths h.all_sound) hother hmem
      ((eq_of_beq hsame).trans hpath.symm)

end Trie

/-- What a node answers with for a method, if it serves it. -/
def Trie.Content.serve? (c : Content H) (method : String) (texts : List (List Char)) :
    Option (Found H) :=
  ((c.methods.own? method).or c.methods.any).map fun handler =>
    ⟨handler, texts.length, ⟨c.params, texts.map String.ofList⟩⟩

theorem Trie.Route.serve?_eq {c : Content H} {path : List Char} {route : Route H}
    (h : c.routeAt path = some route) : route.serve? = c.serve? := by
  rw [(Content.routeAt_eq_some.mp h).2]
  rfl

theorem Trie.Content.serve?_eq_none {c : Content H} (h : c.hasRoute = false) (method : String)
    (texts : List (List Char)) : c.serve? method texts = none := by
  rw [hasRoute, Bool.not_eq_false'] at h
  rw [serve?, Methods.eq_empty h, Methods.own?_empty]
  rfl

namespace Router

/-- A node answers, or else the wildcard below it. -/
theorem answerAt?_eq {r : Router H} {parent : Option Slot} {m : Trie.Tree H}
    (h : r.trie.Stores parent m) (hm : m.content.methods.Ordered)
    (hchildren : ∀ x ∈ m.children, x.content.methods.Ordered) (method : String)
    (texts : List (List Char)) :
    r.answerAt? m.slot method ⟨[], texts.map String.ofList⟩ = some (
      ((m.content.serve? method texts).or ((m.child? (·.kind == .wildcard)).bind fun x =>
        x.content.serve? method (texts ++ [[]]))).getD
      ⟨if m.content.hasRoute || (m.child? (·.kind == .wildcard)).any (·.content.hasRoute)
        then r.notAllowed else r.notFound, 0, .empty⟩) := by
  have hchild : r.trie.childOfKind? m.slot .wildcard =
      some ((m.child? (·.kind == Kind.wildcard)).map Tree.slot) := h.child?_eq _
  rw [answerAt?, h.node?_eq, Content.serve?, ← hm.find?_eq]
  simp only [Option.bind_eq_bind, Option.bind_some]
  cases m.content.methods.find? method with
  | some handler => simp [Params.size]
  | none =>
    rw [hchild]
    cases hfind : m.child? (·.kind == Kind.wildcard) with
    | none => rfl
    | some x =>
      have hx := (Tree.child?_mem hfind).1
      have hnode := (h.child hx).node?_eq
      simp only [Option.map_some, Option.bind_some, Option.mapM_some, hnode, Option.map_eq_map]
      rw [Content.serve?, ← (hchildren x hx).find?_eq]
      cases x.content.methods.find? method with
      | some handler => simp [Params.size, Params.push]
      | none => rfl

/-- A node that a path has led to answers as the route it stands for, and the one after it. -/
theorem answerAt?_answers {r : Router H} {whole m : Trie.Tree H} {C : Context H}
    (h : Part whole C m) (hholds : r.trie.Holds whole) {route : Route H}
    {texts more : List (List Char)}
    (hanswers : Answers m (C.above ++ m.content.text) route more) (method : String) :
    r.answerAt? m.slot method ⟨[], texts.map String.ofList⟩ = some (
      ((route.serve? method (texts ++ more)).or
      ((whole.routes.find? fun other => other.path == route.path ++ ['*']).bind fun other =>
        other.serve? method (texts ++ more ++ [[]]))).getD ⟨r.notAllowed, 0, .empty⟩) := by
  have hstored : r.trie.Stores C.parent m := by
    rw [h.plug] at hholds
    exact hholds.part
  rw [answerAt?_eq hstored h.top.content.methods fun x hx => (h.child_sound hx).methods]
  cases hanswers with
  | own hat =>
    have hpath : route.path = C.above ++ m.content.text :=
      congrArg Route.path (Content.routeAt_eq_some.mp hat).2
    rw [hpath, h.further, List.append_nil, Route.serve?_eq hat,
      (Content.routeAt_eq_some.mp hat).1, Bool.true_or, if_pos rfl]
    cases hfind : m.child? (·.kind == Kind.wildcard) with
    | none => rfl
    | some x =>
      obtain ⟨hx, htest⟩ := Tree.child?_mem hfind
      obtain ⟨-, -, other, hother, -⟩ := h.wildcard_route hx (eq_of_beq htest)
      rw [Option.bind_some, Option.bind_some, hother, Option.bind_some, Route.serve?_eq hother]
  | @wildcard x _ hroute hfind hat =>
    obtain ⟨hx, htest⟩ := Tree.child?_mem hfind
    obtain ⟨htext, hchildren, -⟩ := h.wildcard_route hx (eq_of_beq htest)
    obtain ⟨D, hD, habove, -⟩ := h.child hx
    have hpath : route.path = D.above ++ x.content.text := by
      rw [habove]
      exact congrArg Route.path (Content.routeAt_eq_some.mp hat).2
    have hleaf : x.child? (·.kind == Kind.wildcard) = none := by
      rw [Tree.child?, hchildren]
      rfl
    rw [hpath, hD.further, hleaf, hfind, Content.serve?_eq_none hroute, Route.serve?_eq hat,
      Option.any_some, (Content.routeAt_eq_some.mp hat).1, Bool.or_true, if_pos rfl]
    simp only [Option.bind_some, Option.bind_none, Option.none_or, Option.or_none]

/-! ### The lookup -/

/-- Both routers have the same handlers for what they do not serve. -/
def SameFallbacks (r r' : Router H) : Prop :=
  r'.notFound = r.notFound ∧ r'.notAllowed = r.notAllowed

theorem withoutRoute?_fallbacks {r left : Router H} {slot : Slot}
    (h : r.withoutRoute? slot = some left) : r.SameFallbacks left := by
  unfold withoutRoute? at h
  simp only [Option.bind_eq_bind, Option.bind_eq_some_iff] at h
  obtain ⟨_, _, _, _, _, _, h⟩ := h
  obtain rfl := Option.some.inj h
  exact ⟨rfl, rfl⟩

theorem withMethods?_fallbacks {r left : Router H} {slot : Slot} {methods : Methods H}
    (h : r.withMethods? slot methods = some left) : r.SameFallbacks left := by
  obtain ⟨_, _, h⟩ := Option.bind_eq_some_iff.mp h
  obtain rfl := Option.some.inj h
  exact ⟨rfl, rfl⟩

theorem Removal.fallbacks {r left : Router H} {slot : Slot} {pattern method : String}
    {event : Event} (h : r.Removal slot pattern method left event) : r.SameFallbacks left := by
  cases h with
  | route _ hleft => exact withoutRoute?_fallbacks hleft
  | last _ _ _ _ hleft => exact withoutRoute?_fallbacks hleft
  | one _ _ _ _ hleft => exact withMethods?_fallbacks hleft
  | missing => exact ⟨rfl, rfl⟩

theorem call_fallbacks (r : Router H) (c : Call H) : r.SameFallbacks (r.call c) := by
  cases c with
  | add name method path handler =>
    rw [call]
    rcases r.add_cases name method path handler with ⟨e, herror⟩ | ⟨pattern, -, -, hadd⟩
    · rw [herror]
      exact ⟨rfl, rfl⟩
    · rw [hadd]
      exact ⟨rfl, rfl⟩
  | remove name method path =>
    rw [call]
    rcases r.remove_eq name method path with hsame | ⟨pattern, slot, event, -, hremoval⟩
    · rw [hsame]
      exact ⟨rfl, rfl⟩
    · exact hremoval.fallbacks

theorem after_fallbacks (notFound notAllowed : H) (calls : List (Call H)) :
    (after notFound notAllowed calls).notFound = notFound ∧
      (after notFound notAllowed calls).notAllowed = notAllowed := by
  suffices h : ∀ (r : Router H), (calls.foldl call r).notFound = r.notFound ∧
      (calls.foldl call r).notAllowed = r.notAllowed from h _
  induction calls with
  | nil => exact fun r => ⟨rfl, rfl⟩
  | cons c rest ih =>
    intro r
    rw [List.foldl_cons, (ih _).1, (ih _).2]
    exact call_fallbacks r c

/-- A search in a trie ends where the first of the routes that match is. -/
theorem find?_eq {r : Router H} {n : Trie.Tree H} (hholds : r.trie.Holds n) (hn : Formed n)
    (method path : String) (params : Params) :
    r.find? method path params = some (lookup r.notFound r.notAllowed n.routes method path) := by
  rw [find?, lookup]
  generalize (if path = "" then ['/'] else path.toList) = text
  have hsettles := hn.settles text
  rw [hholds.search?_eq_enter hn text (show Sink.size params.clear = 0 from rfl)]
  cases hfound : n.enter text with
  | none =>
    rw [hfound] at hsettles
    rw [matching_eq_nil hsettles]
    rfl
  | some found =>
    obtain ⟨m, texts⟩ := found
    rw [hfound] at hsettles
    obtain ⟨D, route, more, hplug, hanswers, hwins⟩ := hsettles
    have hpart := hn.part (List.ne_nil_of_mem hwins.mem)
    simp only [Option.bind_eq_bind, Option.bind_some, hwins.best_eq]
    rw [Params.pushed_eq]
    exact answerAt?_answers ⟨hplug, hpart.all_sound, hpart.all_tight⟩ hholds hanswers method

end Router

/-- The route that a lookup takes is the first in order of all that match. -/
theorem Router.best_precedes (notFound notAllowed : H) (calls : List (Call H))
    {routes : List (Route H)} {path : List Char} {route : Route H} {texts : List (List Char)}
    (hroutes : (after notFound notAllowed calls).trie.routes? = some routes)
    (hbest : best (matching routes path) = some (route, texts)) :
    ∀ other ∈ routes, Text.captures? other.path path ≠ none →
      other = route ∨ Text.precedes route.path other.path = true := by
  obtain ⟨n, hholds, hformed⟩ := after_valid notFound notAllowed calls
  obtain rfl := Option.some.inj (hholds.routes?_eq.symm.trans hroutes)
  have hsettles := hformed.settles path
  cases hfound : n.enter path with
  | none =>
    rw [hfound] at hsettles
    rw [matching_eq_nil hsettles] at hbest
    cases hbest
  | some found =>
    rw [hfound] at hsettles
    obtain ⟨-, first, more, -, -, hwins⟩ := hsettles
    have hsame := Option.some.inj (hwins.best_eq.symm.trans hbest)
    obtain rfl : first = route := congrArg Prod.fst hsame
    exact hwins.first

/-- Whatever was added and removed, and whatever the captures held before, a lookup in a router
gives what its table of routes gives. -/
theorem Router.find_eq_lookup (notFound notAllowed : H) (calls : List (Call H))
    (method path : String) (params : Params) :
    ∃ routes, (after notFound notAllowed calls).trie.routes? = some routes ∧
      (after notFound notAllowed calls).find? method path params =
        some (lookup notFound notAllowed routes method path) ∧
      (after notFound notAllowed calls).find method path params =
        lookup notFound notAllowed routes method path := by
  obtain ⟨n, hholds, hformed⟩ := after_valid notFound notAllowed calls
  have hfind := find?_eq hholds hformed method path params
  rw [(after_fallbacks notFound notAllowed calls).1, (after_fallbacks notFound notAllowed calls).2]
    at hfind
  refine ⟨n.routes, hholds.routes?_eq, hfind, ?_⟩
  rw [find, hfind, Option.getD_some]

/-- A route leaves a method that it does not serve to the wildcard behind it. -/
example : (Router.after 404 405 [.add "" "PUT" "/files/" 1, .add "" "GET" "/files/*path" 2]).find
    "GET" "/files/" .empty = ⟨2, 1, ⟨["path"], [""]⟩⟩ := by decide +kernel

end Routing
