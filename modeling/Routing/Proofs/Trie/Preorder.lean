import Routing.Proofs.Trie.Locate
import Routing.Proofs.Trie.Outline

/-! Parents before children.

The order of the nodes is that of a recursion (`order?`): a node comes first, and then, child by
child, what there is from the child down. The walk, which keeps a stack, goes through the nodes in
this order, and the depths that the recursion counts are the numbers of nodes above them
(`Holds.preordered`). -/
namespace Routing.Trie
variable {H : Type}

/-! ### The recursion -/

/-- A node and those below it, each with its depth. -/
def orderFrom? (t : Trie H) : Nat → Nat → Slot → Option (List (Slot × Nat))
  | 0, _, _ => none
  | turns + 1, depth, slot => do
    let n ← t.node? slot
    let below ← n.children.mapM (t.orderFrom? turns (depth + 1))
    return (slot, depth) :: below.flatten

/-- All nodes, each with its depth. -/
def order? (t : Trie H) : Option (List (Slot × Nat)) := t.orderFrom? t.nodeCount 0 root

namespace Tree

mutual

/-- The cells of a tree with their depths. -/
def ranked (depth : Nat) (above : List Char) (parent : Option Slot) :
    Tree H → List (Nat × Cell H)
  | node slot content children =>
    (depth, ⟨above, parent, slot, content, children.map kid⟩) ::
      rankedAll (depth + 1) (above ++ content.text) (some slot) children

def rankedAll (depth : Nat) (above : List Char) (parent : Option Slot) :
    List (Tree H) → List (Nat × Cell H)
  | [] => []
  | n :: rest => ranked depth above parent n ++ rankedAll depth above parent rest

end

theorem rankedAll_eq (depth : Nat) (above : List Char) (parent : Option Slot)
    (nodes : List (Tree H)) :
    rankedAll depth above parent nodes = nodes.flatMap (ranked depth above parent) := by
  induction nodes with
  | nil => rfl
  | cons n rest ih => rw [rankedAll, ih, List.flatMap_cons]

theorem ranked_eq (depth : Nat) (above : List Char) (parent : Option Slot) (n : Tree H) :
    n.ranked depth above parent = (depth, n.top above parent) ::
      n.children.flatMap (ranked (depth + 1) (above ++ n.content.text) (some n.slot)) := by
  cases n
  rw [ranked, rankedAll_eq]
  rfl

theorem map_snd_ranked (depth : Nat) (above : List Char) (parent : Option Slot) (n : Tree H) :
    (n.ranked depth above parent).map Prod.snd = n.cells above parent := by
  induction n using Tree.induction generalizing depth above parent with
  | step slot content children ih =>
    rw [ranked_eq, cells_eq, List.map_cons, List.map_flatMap]
    exact congrArg (_ :: ·) (congrArg List.flatten (List.map_congr_left fun m hm => ih m hm ..))

theorem map_content_ranked (depth : Nat) (above : List Char) (parent : Option Slot) (n : Tree H) :
    (n.ranked depth above parent).map (fun (d, c) => (d, c.content)) = n.levels depth := by
  induction n using Tree.induction generalizing depth above parent with
  | step slot content children ih =>
    rw [ranked_eq, levels_eq, List.map_cons, List.map_flatMap]
    exact congrArg (_ :: ·) (congrArg List.flatten (List.map_congr_left fun m hm => ih m hm ..))

end Tree

/-- A cell is as deep as there are nodes around it. -/
theorem Context.exists_plug_ranked {C : Context H} {n : Tree H} {d : Nat} {c : Cell H}
    (h : (d, c) ∈ n.ranked C.depth C.above C.parent) :
    ∃ (D : Context H) (m : Tree H), C.plug n = D.plug m ∧ c = m.top D.above D.parent ∧
      d = D.depth := by
  induction n using Tree.induction generalizing C with
  | step slot content children ih =>
    rw [Tree.ranked_eq, List.mem_cons] at h
    rcases h with heq | h
    · obtain ⟨rfl, rfl⟩ := Prod.mk.inj heq
      exact ⟨C, .node slot content children, rfl, rfl, rfl⟩
    · obtain ⟨m, hm, hc⟩ := List.mem_flatMap.mp h
      obtain ⟨left, right, hsplit⟩ := List.append_of_mem hm
      obtain rfl : children = left ++ m :: right := hsplit
      exact ih m hm (C := C.under slot content left right) hc

/-- The recursion over the stored nodes is that over the tree. -/
theorem Stores.orderFrom?_eq {t : Trie H} {parent : Option Slot} {n : Tree H}
    (h : t.Stores parent n) {turns : Nat} (hturns : n.slots.length ≤ turns) (depth : Nat)
    (above : List Char) : t.orderFrom? turns depth n.slot =
      some ((n.ranked depth above parent).map fun (d, c) => (c.slot, d)) := by
  induction turns generalizing n parent depth above with
  | zero =>
    rw [Tree.slots_eq] at hturns
    cases hturns
  | succ turns ih =>
    have hchildren : (n.children.map Tree.slot).mapM (t.orderFrom? turns (depth + 1)) =
        some (n.children.map fun m =>
          (m.ranked (depth + 1) (above ++ n.content.text) (some n.slot)).map
            fun (d, c) => (c.slot, d)) := by
      rw [List.mapM_map]
      refine mapM_eq_some fun m hm => ih (h.child hm) ?_ ..
      exact Nat.le_of_lt_succ ((Tree.length_slots_child hm).trans_le hturns)
    rw [orderFrom?, h.node?_eq]
    simp only [Option.bind_eq_bind, Option.bind_some, hchildren]
    rw [Tree.ranked_eq, List.map_cons, List.map_flatMap]
    rfl

/-! ### The order -/

/-- What an order of nodes with their depths owes to the links between the nodes. -/
structure Preordered (t : Trie H) (order : List (Slot × Nat)) : Prop where
  recursion : t.order? = some order
  walk : t.walk? = some (order.map Prod.fst)
  /-- Every node in use is there, once. -/
  nodup : (order.map Prod.fst).Nodup
  live : ∀ slot, slot ∈ order.map Prod.fst ↔ t.Live slot
  /-- A node comes before its children, and they come as they are stored. -/
  children : ∀ slot n, t.Live slot → t.node? slot = some n →
    (slot :: n.children).Sublist (order.map Prod.fst)
  /-- As deep as a node is, as many nodes are above it. -/
  depth : ∀ slot depth, (slot, depth) ∈ order →
    ∃ nodes, t.lineage? t.nodeCount slot = some nodes ∧ nodes.length = depth + 1

namespace Tree

/-- The nodes with their depths in order. -/
def order (n : Tree H) : List (Slot × Nat) :=
  (n.ranked 0 [] none).map fun (d, c) => (c.slot, d)

theorem map_fst_order (n : Tree H) : n.order.map Prod.fst = n.slots := by
  rw [order, List.map_map, slots, all, ← map_snd_ranked 0, List.map_map]
  rfl

end Tree

theorem Context.sublist_plug (C : Context H) (n : Tree H) :
    n.slots.Sublist (C.plug n).slots := by
  have hsplit : (C.plug n).slots =
      (C.before n.kid).map (·.slot) ++ n.slots ++ C.after.map (·.slot) := by
    rw [Tree.slots, C.cells_plug, List.map_append, List.map_append, Tree.map_slot_cells]
  rw [hsplit]
  exact (List.sublist_append_right ..).trans (List.sublist_append_left ..)

theorem Holds.preordered {t : Trie H} {n : Tree H} (h : t.Holds n) : t.Preordered n.order where
  recursion := by
    have hturns : n.slots.length ≤ t.nodeCount := by
      rw [h.nodeCount_eq, Tree.slots, List.length_map]
    rw [order?, ← h.rooted]
    exact h.stored.orderFrom?_eq hturns 0 []
  walk := by rw [Tree.map_fst_order, h.walk?_eq]
  nodup := by
    rw [Tree.map_fst_order]
    exact h.nodup.of_append_left
  live := by
    intro slot
    rw [Tree.map_fst_order, h.live_iff]
  children := by
    intro slot node hlive hnode
    obtain ⟨C, m, rfl, rfl⟩ := Context.exists_plug_of_slot (h.live_iff.mp hlive)
    obtain rfl := Option.some.inj (hnode.symm.trans h.node?_eq)
    rw [Tree.map_fst_order]
    refine List.Sublist.trans ?_ (C.sublist_plug m)
    rw [Tree.slots_eq]
    exact (sublist_slots m.children).cons_cons m.slot
  depth := by
    intro slot depth hslot
    obtain ⟨⟨d, c⟩, hc, heq⟩ := List.mem_map.mp hslot
    obtain ⟨rfl, rfl⟩ := Prod.mk.inj heq
    obtain ⟨C, m, hplug, rfl, rfl⟩ := Context.exists_plug_ranked (C := .hole) hc
    obtain rfl : n = C.plug m := hplug
    obtain ⟨nodes, hnodes, hlength, -⟩ := h.lineage?_eq h.depth_lt
    exact ⟨nodes, hnodes, hlength⟩

end Routing.Trie
