import Mathlib.Data.List.Nodup
import Routing.Proofs.Trie.Tree

/-! Which tree a trie holds.

A trie holds a tree (`Holds`) if every node of the tree is stored as it is, with the numbers of
its parent and its children, and the places in use and those given back are all places there
are, each once. A loop over the stored nodes then reads the tree: at the node in a context it
finds that node (`Holds.node?_eq`), and among its children the first that passes a test
(`Stores.child?_eq`). An edit in one place leaves everything around it alone
(`Holds.exchange`). -/
namespace Routing.Trie
variable {H : Type}

/-! ### Reading what was written -/

theorem node?_set (t : Trie H) {slot : Slot} (n : Node H) (h : slot < t.nodes.size) (s : Slot) :
    (t.set slot n).node? s = if s = slot then some n else t.node? s := by
  rw [node?, set, Array.getElem?_setIfInBounds]
  by_cases hs : s = slot
  · rw [if_pos hs.symm, if_pos hs, if_pos h]
  · rw [if_neg (Ne.symm hs), if_neg hs]
    rfl

theorem lt_of_node? {t : Trie H} {slot : Slot} {n : Node H} (h : t.node? slot = some n) :
    slot < t.nodes.size := (Array.getElem?_eq_some_iff.mp h).1

theorem put?_eq {t : Trie H} {slot : Slot} (n : Node H) (h : slot < t.nodes.size) :
    t.put? slot n = some (t.set slot n) := if_pos h

theorem change?_eq {t : Trie H} {slot : Slot} {n : Node H} (h : t.node? slot = some n)
    (f : Node H → Node H) : t.change? slot f = some (t.set slot (f n)) := by
  rw [change?, h]
  exact put?_eq _ (lt_of_node? h)

/-- A node written over itself. -/
theorem set_self {t : Trie H} {slot : Slot} {n : Node H} (h : t.node? slot = some n) :
    t.set slot n = t := by
  have hnodes : t.nodes.setIfInBounds slot n = t.nodes := by
    refine Array.ext_getElem? fun s => ?_
    rw [Array.getElem?_setIfInBounds]
    split
    · next hs =>
      rw [if_pos (lt_of_node? h), ← hs]
      exact h.symm
    · rfl
  rw [set, hnodes]

@[simp] theorem size_set (t : Trie H) (slot : Slot) (n : Node H) :
    (t.set slot n).nodes.size = t.nodes.size := Array.size_setIfInBounds

@[simp] theorem free_set (t : Trie H) (slot : Slot) (n : Node H) :
    (t.set slot n).free = t.free := rfl

/-! ### The relation -/

/-- The nodes of a tree are stored as they are, the first of them below this parent. -/
def Stores (t : Trie H) (parent : Option Slot) (n : Tree H) : Prop :=
  ∀ c ∈ n.cells [] parent, t.node? c.slot = some c.node

structure Holds (t : Trie H) (n : Tree H) : Prop where
  stored : t.Stores none n
  rooted : n.slot = root
  /-- The places in use and those given back are all there are. -/
  slots : (n.slots ++ t.free).Perm (List.range t.nodes.size)
  blank : ∀ slot ∈ t.free, t.node? slot = some .blank

/-! ### Nodes and children -/

/-- How a node is stored does not depend on the path it has. -/
theorem stores_above {t : Trie H} {parent : Option Slot} {n : Tree H} (above : List Char) :
    (∀ c ∈ n.cells above parent, t.node? c.slot = some c.node) ↔ t.Stores parent n := by
  suffices h : ∀ above above' parent,
      (∀ c ∈ n.cells above parent, t.node? c.slot = some c.node) →
        ∀ c ∈ n.cells above' parent, t.node? c.slot = some c.node from ⟨h _ _ _, h _ _ _⟩
  induction n using Tree.induction with
  | step slot content children ih =>
    intro above above' parent h c hc
    rw [Tree.cells_eq] at h hc
    rcases List.mem_cons.mp hc with rfl | hc
    · exact h (Tree.top above parent _) (List.mem_cons_self ..)
    · obtain ⟨m, hm, hc⟩ := List.mem_flatMap.mp hc
      refine ih m hm (above ++ content.text) _ _ (fun d hd => h d ?_) c hc
      exact List.mem_cons_of_mem _ (List.mem_flatMap_of_mem hm hd)

theorem stores_iff {t : Trie H} {parent : Option Slot} {n : Tree H} :
    t.Stores parent n ↔ t.node? n.slot = some ⟨n.content, parent, n.children.map Tree.slot⟩ ∧
      ∀ m ∈ n.children, t.Stores (some n.slot) m := by
  rw [Stores, Tree.cells_eq, List.forall_mem_cons, Cell.node, Tree.top, List.map_map]
  refine and_congr .rfl ⟨fun h m hm => ?_, fun h c hc => ?_⟩
  · exact (stores_above _).mp fun c hc => h c (List.mem_flatMap_of_mem hm hc)
  · obtain ⟨m, hm, hc⟩ := List.mem_flatMap.mp hc
    exact (stores_above _).mpr (h m hm) c hc

theorem Stores.node?_eq {t : Trie H} {parent : Option Slot} {n : Tree H} (h : t.Stores parent n) :
    t.node? n.slot = some ⟨n.content, parent, n.children.map Tree.slot⟩ := (stores_iff.mp h).1

theorem Stores.child {t : Trie H} {parent : Option Slot} {n m : Tree H} (h : t.Stores parent n)
    (hm : m ∈ n.children) : t.Stores (some n.slot) m := (stores_iff.mp h).2 m hm

/-- A tree is stored where all its places hold what they held. -/
theorem Stores.frame {t t' : Trie H} {parent : Option Slot} {n : Tree H} (h : t.Stores parent n)
    (hframe : ∀ s ∈ n.slots, t'.node? s = t.node? s) : t'.Stores parent n := fun c hc => by
  rw [hframe _ (Tree.slot_mem_of_cell hc)]
  exact h c hc

theorem firstOf?_eq {t : Trie H} {parent : Option Slot} {nodes : List (Tree H)}
    (test : Content H → Bool) (h : ∀ n ∈ nodes, t.Stores parent n) :
    t.firstOf? test (nodes.map Tree.slot) =
      some ((nodes.find? fun n => test n.content).map Tree.slot) := by
  induction nodes with
  | nil => rfl
  | cons n rest ih =>
    rw [List.map_cons, firstOf?, (h n (List.mem_cons_self ..)).node?_eq, List.find?_cons]
    cases htest : test n.content with
    | true => simp [htest]
    | false =>
      simp only [htest, Option.pure_def, Option.bind_eq_bind, Option.bind_some, Bool.false_eq_true,
        if_false]
      exact ih fun m hm => h m (List.mem_cons_of_mem _ hm)

/-- The first child that passes a test is the tree's. -/
theorem Stores.child?_eq {t : Trie H} {parent : Option Slot} {n : Tree H} (h : t.Stores parent n)
    (test : Content H → Bool) :
    t.child? n.slot test = some ((n.children.find? fun m => test m.content).map Tree.slot) := by
  rw [child?, h.node?_eq]
  exact firstOf?_eq test fun m hm => h.child hm

/-! ### The whole trie -/

theorem empty_holds : (empty : Trie H).Holds bare where
  stored := stores_iff.mpr ⟨rfl, fun m hm => by cases hm⟩
  rooted := rfl
  slots := by rw [Tree.slots_eq]; exact .refl _
  blank := by intro slot hs; cases hs

theorem sublist_slots (nodes : List (Tree H)) :
    (nodes.map Tree.slot).Sublist (nodes.flatMap Tree.slots) := by
  induction nodes with
  | nil => exact .slnil
  | cons n rest ih =>
    rw [List.map_cons, List.flatMap_cons, Tree.slots_eq]
    exact (ih.trans (List.sublist_append_right ..)).cons_cons _

namespace Holds
variable {t : Trie H} {n : Tree H} {C : Context H}

theorem nodup (h : t.Holds n) : (n.slots ++ t.free).Nodup :=
  h.slots.nodup_iff.mpr List.nodup_range

theorem nodeCount_eq (h : t.Holds n) : t.nodeCount = n.all.length := by
  have := h.slots.length_eq
  simp only [Tree.slots, List.length_append, List.length_map, List.length_range] at this
  unfold nodeCount
  omega

/-- What is stored of a tree is stored of the part in a context. -/
theorem part (h : t.Holds (C.plug n)) : t.Stores C.parent n := by
  refine (stores_above C.above).mp fun c hc => h.stored c ?_
  rw [← Tree.all, Context.cells_plug]
  exact List.mem_append_left _ (List.mem_append_right _ hc)

/-- The node in a context is stored with that context's parent. -/
theorem node?_eq (h : t.Holds (C.plug n)) :
    t.node? n.slot = some ⟨n.content, C.parent, n.children.map Tree.slot⟩ := h.part.node?_eq

theorem nodup_part (h : t.Holds (C.plug n)) : (n.slots ++ (C.slots ++ t.free)).Nodup := by
  have := h.nodup
  rw [((C.slots_plug n).append_right t.free).nodup_iff, List.append_assoc] at this
  exact this

theorem nodup_slots (h : t.Holds (C.plug n)) : n.slots.Nodup := h.nodup_part.of_append_left

/-- The children of a node are different nodes. -/
theorem nodup_children (h : t.Holds (C.plug n)) : (n.children.map Tree.slot).Nodup := by
  have hnodup := h.nodup_slots
  rw [Tree.slots_eq, List.nodup_cons] at hnodup
  exact hnodup.2.sublist (sublist_slots _)

/-- Nothing around a place is stored where the node in it is. -/
theorem slots_disjoint (h : t.Holds (C.plug n)) : ∀ s ∈ C.slots, s ∉ n.slots := fun _ hs hn =>
  List.disjoint_of_nodup_append h.nodup_part hn (List.mem_append_left _ hs)

theorem free_disjoint (h : t.Holds (C.plug n)) : ∀ s ∈ t.free, s ∉ n.slots ∧ s ∉ C.slots :=
  fun _ hs => ⟨fun hn => List.disjoint_of_nodup_append h.nodup_part hn
    (List.mem_append_right _ hs), fun hc => List.disjoint_of_nodup_append
    h.nodup_part.of_append_right hc hs⟩

/-! The node in a place is stored apart from all other nodes and free places. -/

theorem ne_of_child (h : t.Holds (C.plug n)) {m : Tree H} (hm : m ∈ n.children) {s : Slot}
    (hs : s ∈ m.slots) : s ≠ n.slot := by
  have hnodup := h.nodup_slots
  rw [Tree.slots_eq, List.nodup_cons] at hnodup
  rintro rfl
  exact hnodup.1 (List.mem_flatMap_of_mem hm hs)

theorem ne_of_around (h : t.Holds (C.plug n)) {s : Slot} (hs : s ∈ C.slots) : s ≠ n.slot := by
  rintro rfl
  exact h.slots_disjoint _ hs (Tree.slot_mem_slots n)

theorem ne_of_free (h : t.Holds (C.plug n)) {s : Slot} (hs : s ∈ t.free) : s ≠ n.slot := by
  rintro rfl
  exact (h.free_disjoint _ hs).1 (Tree.slot_mem_slots n)

/-- A trie holds the tree with another node in a place if it stores that node and leaves what is
around it alone. The places in use and those given back balance. -/
theorem exchange (h : t.Holds (C.plug n)) {t' : Trie H} {m : Tree H}
    (hkid : C.before m.kid = C.before n.kid) (hslot : m.slot = n.slot)
    (hframe : ∀ s ∈ C.slots, t'.node? s = t.node? s) (hpart : t'.Stores C.parent m)
    (hslots : (m.slots ++ t'.free ++ List.range t.nodes.size).Perm
      (n.slots ++ t.free ++ List.range t'.nodes.size))
    (hblank : ∀ s ∈ t'.free, t'.node? s = some .blank) : t'.Holds (C.plug m) where
  stored := by
    intro c hc
    rw [← Tree.all, Context.cells_plug, hkid, List.mem_append, List.mem_append] at hc
    have hold : c ∈ C.before n.kid ∨ c ∈ C.after → c ∈ (C.plug n).all := by
      rw [Context.cells_plug, List.mem_append, List.mem_append]
      exact fun h => h.elim (.inl ∘ .inl) .inr
    rcases hc with (hc | hc) | hc
    · rw [hframe _ (Context.slot_mem_of_before hc)]
      exact h.stored c (hold (.inl hc))
    · exact (stores_above _).mpr hpart c hc
    · rw [hframe _ (Context.slot_mem_of_after hc)]
      exact h.stored c (hold (.inr hc))
  rooted := (C.plug_slot hslot).trans h.rooted
  slots := by
    have hold := h.slots
    have hn := C.slots_plug n
    have hm := C.slots_plug m
    simp only [List.perm_iff_count, List.count_append] at *
    intro a
    have := hold a
    have := hslots a
    have := hn a
    have := hm a
    omega
  blank := hblank

end Holds

end Routing.Trie
