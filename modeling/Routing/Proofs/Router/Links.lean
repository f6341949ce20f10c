import Routing.Proofs.Router.Reachable
import Routing.Proofs.Trie.Walk

/-! The links between stored nodes.

The nodes of a router's trie are in an array, refer to each other by number and are given back
and given out again. Whatever has been added and removed, the nodes in use are one tree, linked
the same way downwards and upwards, and every place is in use or free (`Router.after_linked`). -/
namespace Routing
namespace Trie
variable {H : Type}

/-- The places in use are a tree, and the others are free. -/
structure Linked (t : Trie H) : Prop where
  root_parent : ∃ n, t.node? root = some n ∧ n.parent = none
  root_child : ∀ slot n, t.node? slot = some n → root ∉ n.children
  /-- A node in use is once a child, of one node only, and that is its parent. -/
  child : ∀ slot, t.Live slot → slot ≠ root → ∃ parent n, t.Live parent ∧
    t.node? parent = some n ∧ n.children.count slot = 1 ∧
    (∀ other m, t.node? other = some m → slot ∈ m.children → other = parent) ∧
    ∃ self, t.node? slot = some self ∧ self.parent = some parent
  climbs : ∀ slot, t.Live slot → t.Climbs slot
  nodup_free : t.free.Nodup
  root_used : root ∉ t.free
  disjoint : ∀ slot, t.Live slot → slot ∉ t.free
  all : ∀ slot, t.Live slot ∨ slot ∈ t.free ↔ slot < t.nodes.size
  /-- The count of nodes is the number of nodes that the walk finds. -/
  walk : ∃ slots, t.walk? = some slots ∧ slots.Nodup ∧ (∀ slot, slot ∈ slots ↔ t.Live slot) ∧
    slots.length = t.nodeCount

/-- A node that has children is in use. -/
theorem Holds.slot_mem_of_parent {t : Trie H} {n : Tree H} (h : t.Holds n) {slot child : Slot}
    {node : Node H} (hnode : t.node? slot = some node) (hchild : child ∈ node.children) :
    slot ∈ n.slots := by
  have hslot : slot ∈ n.slots ++ t.free :=
    h.slots.mem_iff.mpr (List.mem_range.mpr (lt_of_node? hnode))
  refine (List.mem_append.mp hslot).resolve_right fun hfree => ?_
  rw [h.blank slot hfree] at hnode
  cases hnode
  cases hchild

/-- Whoever has a node for a child is its parent. -/
theorem Holds.parent_of_child {t : Trie H} {n : Tree H} (h : t.Holds n) {slot child : Slot}
    {node : Node H} (hnode : t.node? slot = some node) (hchild : child ∈ node.children) :
    ∃ self, t.node? child = some self ∧ self.parent = some slot := by
  obtain ⟨C, c, left, right, m, rfl, rfl⟩ :=
    h.slot_mem_of_child (h.slot_mem_of_parent hnode hchild) hnode hchild
  exact ⟨_, h.node?_eq, rfl⟩

theorem Holds.linked {t : Trie H} {n : Tree H} (h : t.Holds n) : t.Linked where
  root_parent := h.rooted ▸ ⟨_, h.node?_eq (C := .hole), rfl⟩
  root_child := by
    intro slot node hnode hchild
    obtain ⟨self, hself, hparent⟩ := h.parent_of_child hnode hchild
    have hroot : t.node? n.slot = some ⟨n.content, none, _⟩ := h.node?_eq (C := .hole)
    rw [show n.slot = root from h.rooted, hself, Option.some.injEq] at hroot
    rw [hroot] at hparent
    cases hparent
  child := by
    intro slot hlive hne
    obtain ⟨C, m, rfl, rfl⟩ := Context.exists_plug_of_slot (h.live_iff.mp hlive)
    cases C with
    | hole => exact (hne h.rooted).elim
    | under outer parent c left right =>
      have hup : t.Holds (outer.plug (.node parent c (left ++ m :: right))) := h
      have hmem : m.slot ∈ (left ++ m :: right).map Tree.slot :=
        List.mem_map_of_mem (List.mem_append_right _ (List.mem_cons_self ..))
      refine ⟨parent, _, h.live_iff.mpr ?_, hup.node?_eq,
        List.count_eq_one_of_mem hup.nodup_children hmem, fun other node hnode hchild => ?_,
        _, h.node?_eq, rfl⟩
      · exact (outer.slots_plug _).mem_iff.mpr (List.mem_append_left _ (Tree.slot_mem_slots _))
      · obtain ⟨self, hself, hparent⟩ := h.parent_of_child hnode hchild
        obtain rfl := Option.some.inj (hself.symm.trans h.node?_eq)
        exact (Option.some.inj hparent).symm
  climbs := by
    intro slot hlive
    obtain ⟨C, m, rfl, rfl⟩ := Context.exists_plug_of_slot (h.live_iff.mp hlive)
    exact h.climbs
  nodup_free := h.nodup.of_append_right
  root_used := fun hfree => List.disjoint_of_nodup_append h.nodup (Tree.slot_mem_slots n)
    ((show n.slot = root from h.rooted) ▸ hfree)
  disjoint := fun slot hlive => List.disjoint_of_nodup_append h.nodup (h.live_iff.mp hlive)
  all := fun slot => by
    rw [h.live_iff, ← List.mem_append, h.slots.mem_iff, List.mem_range]
  walk := by
    refine ⟨n.slots, h.walk?_eq, h.nodup.of_append_left, fun slot => h.live_iff.symm, ?_⟩
    rw [h.nodeCount_eq, Tree.slots, List.length_map]

end Trie

/-- The links hold in every router there can be. -/
theorem Router.after_linked {H : Type} (notFound notAllowed : H) (calls : List (Call H)) :
    (Router.after notFound notAllowed calls).trie.Linked := by
  obtain ⟨n, hholds, -⟩ := Router.after_valid notFound notAllowed calls
  exact hholds.linked

end Routing
