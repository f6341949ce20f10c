import Routing.Proofs.Router.Registered
import Routing.Router.Listing

/-! The routes settle the trie.

Two routers with routes at the same paths have the same trie but for the order of siblings and the
numbers of nodes, however they came about (`Router.after_alike`). With the same routes in the same
order they also look the same from outside (`Router.Keeps.views`). -/
namespace Routing
open Trie
variable {H : Type}

namespace Trie

/-- The root of a trie with routes begins with `/`. -/
theorem Part.root_label {n : Tree H} (h : Part n .hole n) : n.content.label = '/' :=
  (h.top.root rfl).2

theorem Holds.alike {t t' : Trie H} {n n' : Tree H} (h : t.Holds n) (h' : t'.Holds n')
    (hn : Formed n) (hn' : Formed n')
    (hpaths : ∀ path, path ∈ n.routes.map Route.path ↔ path ∈ n'.routes.map Route.path) :
    Alike t t' root root ∧ t.nodeCount = t'.nodeCount := by
  suffices hroots : Alike t t' n.slot n'.slot ∧ n.slots.length = n'.slots.length by
    rw [h.nodeCount_eq, h'.nodeCount_eq]
    rw [h.rooted, h'.rooted, Tree.slots, Tree.slots, List.length_map, List.length_map] at hroots
    exact hroots
  have hnil : n.routes = [] ↔ n'.routes = [] := by
    rw [← List.map_eq_nil_iff (f := Route.path) (l := n.routes),
      ← List.map_eq_nil_iff (f := Route.path) (l := n'.routes),
      List.eq_nil_iff_forall_not_mem, List.eq_nil_iff_forall_not_mem]
    exact forall_congr' fun path => not_congr (hpaths path)
  by_cases hroutes : n.routes = []
  · obtain rfl := hn.eq_bare hroutes
    obtain rfl := hn'.eq_bare (hnil.mp hroutes)
    exact ⟨.node h.stored.node?_eq h'.stored.node?_eq rfl rfl rfl .nil .nil, rfl⟩
  · have hroutes' := mt hnil.mpr hroutes
    have hpart := hn.part hroutes
    have hpart' := hn'.part hroutes'
    exact hpart.alike hpart' rfl (hpart.root_label.trans hpart'.root_label.symm) hpaths h.stored
      h'.stored

end Trie

/-- However two routers came about, if they have routes at the same paths their tries are the same
but for the order of siblings and the numbers of nodes. -/
theorem Router.after_alike {notFound notAllowed notFound' notAllowed' : H}
    {calls calls' : List (Call H)} {routes routes' : List (Route H)}
    (h : (after notFound notAllowed calls).trie.routes? = some routes)
    (h' : (after notFound' notAllowed' calls').trie.routes? = some routes')
    (hpaths : ∀ path, path ∈ routes.map Route.path ↔ path ∈ routes'.map Route.path) :
    Alike (after notFound notAllowed calls).trie (after notFound' notAllowed' calls').trie
        root root ∧
      (after notFound notAllowed calls).trie.nodeCount =
        (after notFound' notAllowed' calls').trie.nodeCount := by
  obtain ⟨n, hholds, hn⟩ := after_valid notFound notAllowed calls
  obtain ⟨n', hholds', hn'⟩ := after_valid notFound' notAllowed' calls'
  obtain rfl := Option.some.inj (hholds.routes?_eq.symm.trans h)
  obtain rfl := Option.some.inj (hholds'.routes?_eq.symm.trans h')
  exact hholds.alike hholds' hn hn' hpaths

/-- Two routes put in the other way round, with one between them that is gone again. -/
theorem Router.after_alike_detour :
    Alike (after 404 405 [.add "" "GET" "/a/:id" 1, .add "" "GET" "/b" 2]).trie
        (after 404 405 [.add "b" "PUT" "/b" 3, .add "" "GET" "/a/:uid/c" 4, .remove "" "PUT" "/x",
          .add "" "" "/a/:key" 5, .remove "" "" "/a/:uid/c"]).trie root root ∧
      (after 404 405 [.add "" "GET" "/a/:id" 1, .add "" "GET" "/b" 2]).trie.nodeCount =
        (after 404 405 [.add "b" "PUT" "/b" 3, .add "" "GET" "/a/:uid/c" 4, .remove "" "PUT" "/x",
          .add "" "" "/a/:key" 5, .remove "" "" "/a/:uid/c"]).trie.nodeCount := by
  have h : (after 404 405 [.add "" "GET" "/a/:id" 1, .add "" "GET" "/b" 2]).trie.routes? =
      some [⟨['/', 'a', '/', ':'], "", "/a/:id", ["id"], ⟨[("GET", 1)], none⟩⟩,
        ⟨['/', 'b'], "", "/b", [], ⟨[("GET", 2)], none⟩⟩] := by decide +kernel
  have h' : (after 404 405 [.add "b" "PUT" "/b" 3, .add "" "GET" "/a/:uid/c" 4,
      .remove "" "PUT" "/x", .add "" "" "/a/:key" 5, .remove "" "" "/a/:uid/c"]).trie.routes? =
      some [⟨['/', 'b'], "b", "/b", [], ⟨[("PUT", 3)], none⟩⟩,
        ⟨['/', 'a', '/', ':'], "", "/a/:key", ["key"], ⟨[], some 5⟩⟩] := by decide +kernel
  exact after_alike h h' (by simp [or_comm])

/-! ### With the routes in the same order -/

/-- A route's methods as a listing shows them. -/
def Trie.Route.listed (route : Route H) : List Listed :=
  route.methods.names.map fun method => ⟨route.name, method, route.pattern⟩

theorem Trie.Route.pattern_of_listed {route : Route H} {line : Listed} (h : line ∈ route.listed) :
    line.pattern = route.pattern := by
  obtain ⟨method, -, rfl⟩ := List.mem_map.mp h
  rfl

namespace Router

theorem Keeps.listed_ne_nil {r : Router H} {routes : List (Route H)} (h : r.Keeps routes)
    {route : Route H} (hroute : route ∈ routes) : route.listed ≠ [] :=
  mt List.map_eq_nil_iff.mp (Methods.names_ne_nil (h.methods hroute).2)

theorem listNode_eq (c : Cell H) : listNode c.content = c.route?.toList.flatMap Route.listed := by
  cases hroute : c.content.hasRoute with
  | true =>
    rw [Cell.route?, Content.routeAt_of_hasRoute hroute]
    simp [listNode, Route.listed]
  | false =>
    rw [Cell.route?, Content.routeAt_eq_none hroute]
    rw [Content.hasRoute, Bool.not_eq_false'] at hroute
    simp [listNode, Methods.eq_empty hroute, Methods.names, Methods.empty]

/-- Nothing but routes is listed. -/
theorem list?_eq {r : Router H} {n : Trie.Tree H} (h : r.trie.Holds n) :
    r.list? = some (n.routes.flatMap Route.listed) := by
  have hnodes : n.slots.mapM r.trie.node? = some (n.all.map Cell.node) := by
    rw [Tree.slots, List.mapM_map]
    exact mapM_eq_some h.stored
  rw [list?, h.walk?_eq]
  simp only [Option.bind_eq_bind, Option.bind_some, hnodes, List.flatMap_map]
  rw [Tree.routes, List.filterMap_eq_flatMap_toList, List.flatMap_assoc]
  exact congrArg (some <| List.flatten ·) (List.map_congr_left fun c _ => listNode_eq c)

/-- Routers with the same routes in the same order look the same. -/
theorem Keeps.views {r r' : Router H} {routes : List (Route H)} (h : r.Keeps routes)
    (h' : r'.Keeps routes) : r.outline? = r'.outline? ∧ r.list = r'.list ∧
      r.isEmpty = r'.isEmpty ∧ r.trie.nodeCount = r'.trie.nodeCount := by
  obtain ⟨n, hholds, hn, rfl⟩ := h.exists_tree
  obtain ⟨n', hholds', hn', hroutes⟩ := h'.exists_tree
  have hempty := hholds.isEmpty_eq hn
  have hempty' := hholds'.isEmpty_eq hn'
  rw [hroutes] at hempty'
  refine ⟨?_, ?_, hempty.trans hempty'.symm, (hholds.alike hholds' hn hn' (by simp [hroutes])).2⟩
  · by_cases hnil : n.routes = []
    · rw [hnil] at hempty hempty'
      simp [outline?, Trie.outline?, hempty, hempty']
    · have hpart := hn.part hnil
      have hpart' := hn'.part (hroutes ▸ hnil)
      have hlevels := hpart.levels_eq hpart' rfl
        (hpart.root_label.trans hpart'.root_label.symm) hroutes.symm 0
      rw [List.isEmpty_eq_false_iff.mpr hnil] at hempty hempty'
      rw [outline?, outline?, hholds.outline?_eq hempty, hholds'.outline?_eq hempty', hlevels]
  · rw [list, list, list?_eq hholds, list?_eq hholds', hroutes]

end Router

end Routing
