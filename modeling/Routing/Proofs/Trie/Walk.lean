import Routing.Proofs.Trie.Holds
import Routing.Proofs.Trie.Routes
import Routing.Trie.Locate
import Routing.Trie.Walk

/-! Walking over the stored nodes.

The walk with a stack gives the places of the tree in order (`Holds.walk?_eq`), and the way up
from a node gives its path (`Holds.pathOf?_eq`). Together they read the routes off the stored
nodes (`Holds.routes?_eq`). A node is live if the children of live nodes lead to it; those are
the nodes of the tree (`Holds.live_iff`). -/
namespace Routing.Trie
variable {H : Type}

/-! ### Down -/

/-- A stack of trees is walked through in order. -/
theorem walkFrom?_eq {t : Trie H} (turns : Nat) (nodes : List (Tree H))
    (h : ∀ n ∈ nodes, ∃ parent, t.Stores parent n)
    (hturns : (nodes.flatMap Tree.slots).length ≤ turns) :
    t.walkFrom? turns (nodes.map Tree.slot) = some (nodes.flatMap Tree.slots) := by
  induction turns generalizing nodes with
  | zero =>
    cases nodes with
    | nil => rfl
    | cons n rest =>
      rw [List.flatMap_cons, Tree.slots_eq] at hturns
      exact absurd hturns (by simp)
  | succ turns ih =>
    cases nodes with
    | nil => rfl
    | cons n rest =>
      obtain ⟨parent, hstored⟩ := h n (List.mem_cons_self ..)
      have hrest := ih (n.children ++ rest)
        (fun m hm => (List.mem_append.mp hm).elim (fun hm => ⟨_, hstored.child hm⟩)
          fun hm => h m (List.mem_cons_of_mem _ hm))
        (by
          rw [List.flatMap_cons, Tree.slots_eq] at hturns
          rw [List.flatMap_append]
          simp only [List.length_append, List.length_cons] at hturns ⊢
          omega)
      rw [List.map_append, List.flatMap_append] at hrest
      rw [List.map_cons, walkFrom?, hstored.node?_eq, List.flatMap_cons, Tree.slots_eq]
      simp only [Option.bind_eq_bind, Option.bind_some, hrest]
      rfl

theorem Holds.walk?_eq {t : Trie H} {n : Tree H} (h : t.Holds n) : t.walk? = some n.slots := by
  have hwalk := walkFrom?_eq (t := t) t.nodeCount [n]
    (fun m hm => ⟨none, List.mem_singleton.mp hm ▸ h.stored⟩)
    (by rw [h.nodeCount_eq]; simp [Tree.slots])
  rw [List.flatMap_singleton, List.map_singleton, h.rooted] at hwalk
  exact hwalk

/-! ### Up -/

theorem Holds.lineage?_eq {turns : Nat} {t : Trie H} {C : Context H} {n : Tree H}
    (h : t.Holds (C.plug n)) (hturns : C.depth < turns) :
    ∃ nodes, t.lineage? turns n.slot = some nodes ∧ nodes.length = C.depth + 1 ∧
      nodes.reverse.flatMap (·.text) = C.above ++ n.content.text := by
  induction C generalizing n turns with
  | hole =>
    obtain ⟨turns, rfl⟩ := Nat.exists_eq_add_of_lt hturns
    have hnode : t.node? n.slot = some ⟨n.content, none, n.children.map Tree.slot⟩ := h.node?_eq
    refine ⟨[⟨n.content, none, n.children.map Tree.slot⟩], ?_, rfl, ?_⟩
    · rw [lineage?, hnode]
      rfl
    · exact List.append_nil _
  | under outer slot c left right ih =>
    obtain ⟨turns, rfl⟩ := Nat.exists_eq_add_of_lt hturns
    have hnode : t.node? n.slot = some ⟨n.content, some slot, n.children.map Tree.slot⟩ :=
      h.node?_eq
    have hup : t.Holds (outer.plug (.node slot c (left ++ n :: right))) := h
    have hless : outer.depth < (outer.under slot c left right).depth + turns := by
      rw [Context.depth]
      omega
    obtain ⟨nodes, hnodes, hlength, hpath⟩ := ih hup hless
    refine ⟨⟨n.content, some slot, n.children.map Tree.slot⟩ :: nodes, ?_,
      congrArg (· + 1) hlength, ?_⟩
    · rw [lineage?, hnode]
      simp only [Option.bind_eq_bind, Option.bind_some]
      rw [show t.lineage? _ slot = some nodes from hnodes]
      rfl
    · rw [List.reverse_cons, List.flatMap_append, hpath, List.flatMap_singleton]
      rfl

/-- There are fewer nodes above a node than there are nodes. -/
theorem Holds.depth_lt {t : Trie H} {C : Context H} {n : Tree H} (h : t.Holds (C.plug n)) :
    C.depth < t.nodeCount := by
  rw [h.nodeCount_eq]
  exact C.depth_lt n

theorem Holds.pathOf?_eq {t : Trie H} {C : Context H} {n : Tree H} (h : t.Holds (C.plug n)) :
    t.pathOf? n.slot = some (C.above ++ n.content.text) := by
  obtain ⟨nodes, hnodes, -, hpath⟩ := h.lineage?_eq h.depth_lt
  rw [pathOf?, hnodes, ← hpath]
  rfl

theorem Holds.pathOf?_cell {t : Trie H} {n : Tree H} (h : t.Holds n) {c : Cell H} (hc : c ∈ n.all) :
    t.pathOf? c.slot = some c.path := by
  obtain ⟨C, m, heq, rfl⟩ := Context.exists_plug (C := .hole) hc
  obtain rfl : n = C.plug m := heq
  exact h.pathOf?_eq

/-! ### Live nodes -/

/-- A node that the children of live nodes lead to. -/
inductive Live (t : Trie H) : Slot → Prop
  | root : Live t root
  | child {slot child : Slot} {n : Node H} :
    Live t slot → t.node? slot = some n → child ∈ n.children → Live t child

/-- A node whose parents lead up to the root. -/
inductive Climbs (t : Trie H) : Slot → Prop
  | root : Climbs t root
  | up {slot parent : Slot} {n : Node H} :
    t.node? slot = some n → n.parent = some parent → Climbs t parent → Climbs t slot

/-- The children of a node in use are in use. -/
theorem Holds.slot_mem_of_child {t : Trie H} {n : Tree H} (h : t.Holds n) {slot child : Slot}
    {node : Node H} (hslot : slot ∈ n.slots) (hnode : t.node? slot = some node)
    (hchild : child ∈ node.children) :
    ∃ (C : Context H) (c : Content H) (left right : List (Tree H)) (m : Tree H),
      n = (C.under slot c left right).plug m ∧ m.slot = child := by
  obtain ⟨C, ⟨_, c, children⟩, rfl, rfl⟩ := Context.exists_plug_of_slot hslot
  obtain rfl := Option.some.inj (hnode.symm.trans h.node?_eq)
  obtain ⟨m, hm, rfl⟩ := List.mem_map.mp hchild
  obtain ⟨left, right, rfl⟩ := List.append_of_mem hm
  exact ⟨C, c, left, right, m, rfl, rfl⟩

theorem Holds.live_iff {t : Trie H} {n : Tree H} (h : t.Holds n) {slot : Slot} :
    t.Live slot ↔ slot ∈ n.slots := by
  constructor
  · intro hlive
    induction hlive with
    | root => exact h.rooted ▸ Tree.slot_mem_slots n
    | child _ hnode hchild ih =>
      obtain ⟨C, c, left, right, m, rfl, rfl⟩ := h.slot_mem_of_child ih hnode hchild
      exact (Context.slots_plug _ m).mem_iff.mpr (List.mem_append_left _ (Tree.slot_mem_slots m))
  · intro hslot
    obtain ⟨C, m, rfl, rfl⟩ := Context.exists_plug_of_slot hslot
    clear hslot
    induction C generalizing m with
    | hole => exact h.rooted ▸ .root
    | under outer slot c left right ih =>
      have hup : t.Holds (outer.plug (.node slot c (left ++ m :: right))) := h
      refine .child (ih (.node slot c (left ++ m :: right)) hup) hup.node?_eq ?_
      exact List.mem_map_of_mem (List.mem_append_right _ (List.mem_cons_self ..))

theorem Holds.climbs {t : Trie H} {C : Context H} {n : Tree H} (h : t.Holds (C.plug n)) :
    t.Climbs n.slot := by
  induction C generalizing n with
  | hole => exact h.rooted ▸ .root
  | under outer slot c left right ih =>
    have hup : t.Holds (outer.plug (.node slot c (left ++ n :: right))) := h
    exact .up h.node?_eq rfl (ih hup)

/-! ### The routes -/

/-- The route that ends at a node, if one does. -/
def routeOf? (t : Trie H) (slot : Slot) : Option (Option (Route H)) := do
  let n ← t.node? slot
  let path ← t.pathOf? slot
  return n.toContent.routeAt path

/-- The live routes, each by the path, and in the order of the walk. -/
def routes? (t : Trie H) : Option (List (Route H)) := do
  let routes ← (← t.walk?).mapM t.routeOf?
  return routes.filterMap id

theorem Holds.routeOf?_eq {t : Trie H} {n : Tree H} (h : t.Holds n) {c : Cell H} (hc : c ∈ n.all) :
    t.routeOf? c.slot = some c.route? := by
  rw [routeOf?, h.stored c hc, h.pathOf?_cell hc]
  rfl

theorem mapM_eq_some {α β : Type} {f : α → Option β} {g : α → β} {l : List α}
    (h : ∀ a ∈ l, f a = some (g a)) : l.mapM f = some (l.map g) := by
  induction l with
  | nil => rfl
  | cons a rest ih =>
    rw [List.mapM_cons, h a (List.mem_cons_self ..), ih fun b hb => h b (List.mem_cons_of_mem _ hb)]
    rfl

theorem Holds.routes?_eq {t : Trie H} {n : Tree H} (h : t.Holds n) : t.routes? = some n.routes := by
  have hroutes : n.slots.mapM t.routeOf? = some (n.all.map Cell.route?) := by
    rw [Tree.slots, List.mapM_map]
    exact mapM_eq_some fun c hc => h.routeOf?_eq hc
  rw [routes?, h.walk?_eq]
  simp only [Option.bind_eq_bind, Option.bind_some, hroutes]
  rw [List.filterMap_map]
  rfl

end Routing.Trie
