import Routing.Proofs.Router.Reachable
import Routing.Proofs.Trie.Ways

/-! The route that a removal means.

A pattern means the route at its path, or else the one that a lookup of its text ends at
(`meant`). A router looks for the node of that route in its trie, and finds it
(`Router.meant?_eq`). -/
namespace Routing
open Trie
variable {H : Type}

/-- The route that a pattern means. -/
def meant (routes : List (Route H)) (pattern : Pattern) : Option (Route H) :=
  (routes.find? fun route => route.path == pattern.path).or
    ((best (matching routes pattern.text.toList)).map Prod.fst)

namespace Trie

/-- A route ends at the node in this place. -/
def Tree.Ends (n : Tree H) (slot : Slot) (route : Route H) : Prop :=
  ∃ c ∈ n.all, c.slot = slot ∧ c.route? = some route

theorem Tree.Ends.of_part {n m : Tree H} {D : Context H} (h : n = D.plug m) {route : Route H}
    (hat : m.content.routeAt (D.above ++ m.content.text) = some route) : n.Ends m.slot route := by
  subst h
  exact ⟨_, Context.top_mem, rfl, hat⟩

theorem Formed.nodup_route_paths {n : Tree H} (h : Formed n) :
    (n.routes.map Route.path).Nodup := by
  cases h with
  | bare => exact .nil
  | full hsound _ => exact Trie.nodup_route_paths hsound

theorem find?_path_eq_some {routes : List (Route H)} (h : (routes.map Route.path).Nodup)
    {path : List Char} {route : Route H} :
    (routes.find? fun other => other.path == path) = some route ↔
      route ∈ routes ∧ route.path = path := by
  constructor
  · intro hfind
    exact ⟨List.mem_of_find?_eq_some hfind, by simpa using List.find?_some hfind⟩
  · rintro ⟨hroute, rfl⟩
    exact Assoc.find?_eq_some_of_only hroute (beq_self_eq_true _) fun other hother hpath =>
      List.inj_on_of_nodup_map h hother hroute (eq_of_beq hpath)

theorem mem_of_meant {routes : List (Route H)} {pattern : Pattern} {route : Route H}
    (h : meant routes pattern = some route) : route ∈ routes := by
  rcases Option.or_eq_some_iff.mp h with hfind | ⟨-, hserves⟩
  · exact List.mem_of_find?_eq_some hfind
  · obtain ⟨⟨_, texts⟩, hbest, rfl⟩ := Option.map_eq_some_iff.mp hserves
    exact (mem_matching.mp (mem_of_best hbest)).1

/-- The route at a pattern's path is the one that is meant. -/
theorem meant_of_path {routes : List (Route H)} (h : (routes.map Route.path).Nodup)
    {pattern : Pattern} {route : Route H} (hroute : route ∈ routes)
    (hpath : route.path = pattern.path) : meant routes pattern = some route := by
  rw [meant, (find?_path_eq_some h).mpr ⟨hroute, hpath⟩, Option.some_or]

/-- A path tells a node, and so its route. -/
theorem Formed.find?_routes {n : Tree H} (h : Formed n) {c : Cell H} (hc : c ∈ n.all) :
    (n.routes.find? fun route => route.path == c.path) = c.route? := by
  ext route
  rw [find?_path_eq_some h.nodup_route_paths, mem_routes]
  constructor
  · rintro ⟨⟨d, hd, hroute⟩, hpath⟩
    have hpaths : d.path = c.path := (Cell.path_of_route? hroute).symm.trans hpath
    obtain ⟨hsound, -⟩ := h.of_route hd (Content.routeAt_eq_some.mp hroute).1
    rwa [List.inj_on_of_nodup_map (Tree.nodup_paths hsound) hd hc hpaths] at hroute
  · intro hroute
    exact ⟨⟨c, hc, hroute⟩, Cell.path_of_route? hroute⟩

end Trie

namespace Router

theorem ifRoute?_eq {t : Trie H} {slot : Slot} {node : Node H} (h : t.node? slot = some node) :
    ifRoute? t slot = some (if node.hasRoute then some slot else none) := by
  rw [ifRoute?, h]
  rfl

section lookup
variable {t : Trie H} {n : Trie.Tree H} (h : t.Holds n) (hn : Formed n)
include h hn

/-- The node at a path is the node of the route with that path. -/
theorem own?_eq (path : List Char) : ∃ slot found, t.at? path = some slot ∧
    slot.mapM (ifRoute? t) = some found ∧
      Option.Rel n.Ends found.join (n.routes.find? fun route => route.path == path) := by
  obtain ⟨slot, hat, hleads⟩ := h.at?_eq hn path
  cases slot with
  | none =>
    refine ⟨none, none, hat, rfl, ?_⟩
    rw [List.find?_eq_none.mpr]
    · exact .none
    · intro route hroute heq
      obtain ⟨c, hc, hat⟩ := mem_routes.mp hroute
      have hpath : c.path = path := (Cell.path_of_route? hat).symm.trans (eq_of_beq heq)
      cases (hleads c.slot).mpr ⟨c, hc, hpath, rfl⟩
  | some slot =>
    obtain ⟨c, hc, rfl, rfl⟩ := (hleads slot).mp rfl
    have hnode : t.node? c.slot = some c.node := h.stored c hc
    rw [hn.find?_routes hc]
    refine ⟨_, _, hat, congrArg (Option.map some) (ifRoute?_eq hnode), ?_⟩
    cases hhas : c.content.hasRoute with
    | true =>
      have hown := Content.routeAt_of_hasRoute hhas c.path
      rw [show c.node.hasRoute = true from hhas, if_pos rfl, Cell.route?, hown]
      exact .some ⟨c, hc, rfl, hown⟩
    | false =>
      rw [show c.node.hasRoute = false from hhas, Cell.route?, Content.routeAt_eq_none hhas]
      exact .none

/-- The node that serves a path is that of the first of the routes that match. -/
theorem serving?_eq (path : List Char) : ∃ found, serving? t path = some found ∧
    Option.Rel n.Ends found ((best (matching n.routes path)).map Prod.fst) := by
  have hsettles := hn.settles path
  rw [serving?, h.search?_eq_enter hn path (show Sink.size 0 = 0 from rfl)]
  cases hfound : n.enter path with
  | none =>
    rw [hfound] at hsettles
    rw [matching_eq_nil hsettles]
    exact ⟨none, rfl, .none⟩
  | some found =>
    obtain ⟨m, texts⟩ := found
    rw [hfound] at hsettles
    obtain ⟨D, route, more, hplug, hanswers, hwins⟩ := hsettles
    have hpart := hn.part (List.ne_nil_of_mem hwins.mem)
    have hm : Part n D m := ⟨hplug, hpart.all_sound, hpart.all_tight⟩
    have hstored : t.Stores D.parent m := by
      rw [hplug] at h
      exact h.part
    rw [hwins.best_eq]
    simp only [Option.bind_eq_bind, Option.bind_some, ifRoute?_eq hstored.node?_eq]
    cases hanswers with
    | own hat =>
      rw [if_pos (Content.routeAt_eq_some.mp hat).1]
      exact ⟨_, rfl, .some (Tree.Ends.of_part hplug hat)⟩
    | @wildcard x _ hnone hfind hat =>
      obtain ⟨hx, -⟩ := Tree.child?_mem hfind
      obtain ⟨E, hE, habove, -⟩ := hm.child hx
      have hchild : t.childOfKind? m.slot .wildcard =
          some ((m.child? (·.kind == Kind.wildcard)).map Tree.slot) := hstored.child?_eq _
      have hends : n.Ends x.slot route := by
        rw [← habove] at hat
        exact Tree.Ends.of_part hE.plug hat
      refine ⟨some x.slot, ?_, .some hends⟩
      have hroute : x.content.hasRoute = true := (Content.routeAt_eq_some.mp hat).1
      simp [hnone, hchild, hfind, ifRoute?_eq (hstored.child hx).node?_eq, hroute]

end lookup

/-- The node of the route that is meant is found. -/
theorem meant?_eq {r : Router H} {n : Trie.Tree H} (h : r.trie.Holds n) (hn : Formed n)
    (pattern : Pattern) : ∃ found,
      r.meant? pattern = some found ∧ Option.Rel n.Ends found (meant n.routes pattern) := by
  obtain ⟨slot, own, hat, hown, hends⟩ := own?_eq h hn pattern.path
  obtain ⟨serving, hserving, hends'⟩ := serving?_eq h hn pattern.text.toList
  rw [Router.meant?, hat]
  simp only [Option.bind_eq_bind, Option.bind_some, hown]
  rw [meant]
  generalize own.join = own at hends
  generalize (n.routes.find? fun route => route.path == pattern.path) = route at hends
  cases hends with
  | some hends => exact ⟨_, rfl, .some hends⟩
  | none => exact ⟨serving, hserving, hends'⟩

end Router

end Routing
