import Routing.Proofs.Trie.Sound

/-! The routes of a tree.

The routes are what a trie is for, and an edit is judged by what it does to them. They come in
the order of the nodes that carry them. A node put in or taken out that carries no route does
not show. -/
namespace Routing.Trie
variable {H : Type}

/-- A route and what was registered for it. -/
structure Route (H : Type) where
  /-- The pattern with the names of its parameters struck out. -/
  path : List Char
  name : String
  pattern : String
  params : List String
  methods : Methods H
  deriving Repr, DecidableEq

/-- The route that ends at a node with this path. -/
def Content.routeAt (c : Content H) (path : List Char) : Option (Route H) :=
  if c.hasRoute then some ⟨path, c.name, c.pattern, c.params, c.methods⟩ else none

def Cell.route? (c : Cell H) : Option (Route H) := c.content.routeAt c.path

def Tree.routes (n : Tree H) : List (Route H) := n.all.filterMap Cell.route?

theorem Content.routeAt_eq_none {c : Content H} (h : c.hasRoute = false) (path : List Char) :
    c.routeAt path = none := by
  rw [routeAt, h]
  rfl

theorem Content.routeAt_of_hasRoute {c : Content H} (h : c.hasRoute = true) (path : List Char) :
    c.routeAt path = some ⟨path, c.name, c.pattern, c.params, c.methods⟩ := if_pos h

theorem Content.routeAt_eq_some {c : Content H} {path : List Char} {route : Route H} :
    c.routeAt path = some route ↔
      c.hasRoute = true ∧ route = ⟨path, c.name, c.pattern, c.params, c.methods⟩ := by
  unfold routeAt
  split
  · next h => simp [h, eq_comm]
  · next h => simp [h]

theorem Cell.path_of_route? {c : Cell H} {route : Route H} (h : c.route? = some route) :
    route.path = c.path := by
  rw [(Content.routeAt_eq_some.mp h).2]

namespace Tree

/-- The routes of the nodes of a part. -/
def routesAt (above : List Char) (n : Tree H) : List (Route H) :=
  (n.cells above none).filterMap Cell.route?

/-- Routes do not depend on the number of the parent. -/
theorem filterMap_cells (above : List Char) (parent : Option Slot) (n : Tree H) :
    (n.cells above parent).filterMap Cell.route? = n.routesAt above := by
  rw [routesAt, cells_eq, cells_eq, List.filterMap_cons, List.filterMap_cons]
  rfl

theorem filterMap_beneath (above : List Char) (n : Tree H) :
    (n.beneath above).filterMap Cell.route? =
      n.children.flatMap (routesAt (above ++ n.content.text)) := by
  rw [beneath, List.filterMap_flatMap]
  exact congrArg List.flatten (List.map_congr_left fun m _ => filterMap_cells ..)

theorem routesAt_eq (above : List Char) (n : Tree H) :
    n.routesAt above = (n.content.routeAt (above ++ n.content.text)).toList ++
      n.children.flatMap (routesAt (above ++ n.content.text)) := by
  rw [routesAt, cells_eq, List.filterMap_cons, filterMap_beneath,
    show (n.top above none).route? = n.content.routeAt (above ++ n.content.text) from rfl]
  cases n.content.routeAt (above ++ n.content.text) <;> rfl

theorem routesAt_node (above : List Char) (slot : Slot) (c : Content H) (children : List (Tree H)) :
    (node slot c children).routesAt above = (c.routeAt (above ++ c.text)).toList ++
      children.flatMap (routesAt (above ++ c.text)) := routesAt_eq ..

end Tree

namespace Context

/-- The routes in front of a place do not depend on what is in it. -/
def routesBefore (C : Context H) : List (Route H) :=
  (C.before ⟨0, .static, ' '⟩).filterMap Cell.route?

def routesAfter (C : Context H) : List (Route H) := C.after.filterMap Cell.route?

theorem filterMap_before (C : Context H) (kid : Kid) :
    (C.before kid).filterMap Cell.route? = C.routesBefore := by
  cases C with
  | hole => rfl
  | under outer slot content left right =>
    simp only [routesBefore, before, List.filterMap_append, List.filterMap_cons]
    rfl

theorem routes_plug (C : Context H) (n : Tree H) :
    (C.plug n).routes = C.routesBefore ++ n.routesAt C.above ++ C.routesAfter := by
  rw [Tree.routes, cells_plug, List.filterMap_append, List.filterMap_append, filterMap_before,
    Tree.filterMap_cells]
  rfl

end Context

/-! ### A tree of sound nodes -/

theorem mem_routes {n : Tree H} {route : Route H} :
    route ∈ n.routes ↔ ∃ c ∈ n.all, c.route? = some route := List.mem_filterMap

/-- No two routes have the same path. -/
theorem nodup_route_paths {n : Tree H} (h : ∀ c ∈ n.all, c.Sound) :
    (n.routes.map Route.path).Nodup := by
  refine (Tree.nodup_paths h).sublist ?_
  rw [Tree.routes, Tree.all]
  induction n.cells [] none with
  | nil => exact .slnil
  | cons c rest ih =>
    rw [List.filterMap_cons]
    split
    · exact ih.cons _
    · next route hroute =>
      rw [List.map_cons, List.map_cons, Cell.path_of_route? hroute]
      exact ih.cons_cons _

/-- The other routes have other paths. -/
theorem path_ne_of_nodup {front back : List (Route H)} {route : Route H}
    (h : ((front ++ route :: back).map Route.path).Nodup) :
    ∀ other ∈ front ++ back, other.path ≠ route.path := by
  rw [List.map_append, List.map_cons, List.nodup_middle, List.nodup_cons, ← List.map_append] at h
  exact fun other hother heq => h.1 (List.mem_map.mpr ⟨other, hother, heq⟩)

end Routing.Trie
