import Routing.Trie.Arena

/-! Tries as trees.

Stored nodes refer to each other by number. What they describe together is a `Tree`, and the
operations on a trie are understood by what they do to it. A loop that has come to a node
has a `Context` around that node, and the whole tree is the two put together
(`Context.plug`); one step of the loop moves the border between them.

Everything that is said of a tree is said of its `Cell`s: each node with the path above it,
its parent and what it sees of its children. Inside a context a node can be exchanged for
any that looks the same from above, and only its own cells change (`cells_plug`). -/
namespace Routing.Trie

namespace Content
variable {H : Type}

/-- The front of a node that is split. -/
def upper (c : Content H) (front : List Char) : Content H :=
  { plain .static front with label := c.label }

/-- What the new child takes over. -/
def lower (c : Content H) (back : List Char) : Content H :=
  { c with label := labelOf back, text := back }

/-- A node that has swallowed its child. -/
def absorb (c d : Content H) : Content H :=
  { c with
    text := c.text ++ d.text
    name := d.name
    pattern := d.pattern
    params := d.params
    methods := d.methods }

@[simp] theorem upper_kind (c : Content H) (front : List Char) :
    (c.upper front).kind = .static := rfl

@[simp] theorem upper_label (c : Content H) (front : List Char) :
    (c.upper front).label = c.label := rfl

@[simp] theorem upper_text (c : Content H) (front : List Char) : (c.upper front).text = front := rfl

@[simp] theorem lower_kind (c : Content H) (back : List Char) : (c.lower back).kind = c.kind := rfl

@[simp] theorem lower_text (c : Content H) (back : List Char) : (c.lower back).text = back := rfl

@[simp] theorem absorb_kind (c d : Content H) : (c.absorb d).kind = c.kind := rfl

@[simp] theorem absorb_label (c d : Content H) : (c.absorb d).label = c.label := rfl

@[simp] theorem absorb_text (c d : Content H) : (c.absorb d).text = c.text ++ d.text := rfl

end Content

/-- A node with all that is below it. -/
inductive Tree (H : Type) where
  | node (slot : Slot) (content : Content H) (children : List (Tree H))

/-- What there is without routes: a root with nothing in it. -/
def bare {H : Type} : Tree H := .node root (.plain .static []) []

/-- What a node sees of a child. -/
structure Kid where
  slot : Slot
  kind : Kind
  label : Char
  deriving Repr, DecidableEq

/-- A node in its place. -/
structure Cell (H : Type) where
  /-- The text from the root down to the node, without its own. -/
  above : List Char
  parent : Option Slot
  slot : Slot
  content : Content H
  kids : List Kid

namespace Cell
variable {H : Type}

def path (c : Cell H) : List Char := c.above ++ c.content.text

/-- The cell as it is stored. -/
def node (c : Cell H) : Node H := ⟨c.content, c.parent, c.kids.map (·.slot)⟩

end Cell

namespace Tree
variable {H : Type}

def slot : Tree H → Slot
  | node slot _ _ => slot

def content : Tree H → Content H
  | node _ content _ => content

def children : Tree H → List (Tree H)
  | node _ _ children => children

def kid (n : Tree H) : Kid := ⟨n.slot, n.content.kind, n.content.label⟩

section node
variable (slot : Slot) (c : Content H) (children : List (Tree H))

@[simp] theorem slot_node : (node slot c children).slot = slot := rfl

@[simp] theorem content_node : (node slot c children).content = c := rfl

@[simp] theorem children_node : (node slot c children).children = children := rfl

@[simp] theorem kid_node : (node slot c children).kid = ⟨slot, c.kind, c.label⟩ := rfl

end node

theorem induction {P : Tree H → Prop}
    (step : ∀ slot content children, (∀ n ∈ children, P n) → P (node slot content children)) :
    ∀ n, P n
  | node slot content children => step slot content children fun n _ => induction step n

mutual

/-- The node and those below it, parents before children. -/
def cells (above : List Char) (parent : Option Slot) : Tree H → List (Cell H)
  | node slot content children =>
    ⟨above, parent, slot, content, children.map kid⟩ ::
      cellsAll (above ++ content.text) (some slot) children

def cellsAll (above : List Char) (parent : Option Slot) : List (Tree H) → List (Cell H)
  | [] => []
  | n :: rest => cells above parent n ++ cellsAll above parent rest

end

theorem cellsAll_eq (above : List Char) (parent : Option Slot) (nodes : List (Tree H)) :
    cellsAll above parent nodes = nodes.flatMap (cells above parent) := by
  induction nodes with
  | nil => rfl
  | cons n rest ih => rw [cellsAll, ih, List.flatMap_cons]

/-- A node in a place. -/
def top (above : List Char) (parent : Option Slot) (n : Tree H) : Cell H :=
  ⟨above, parent, n.slot, n.content, n.children.map kid⟩

section top
variable (above : List Char) (parent : Option Slot) (n : Tree H)

@[simp] theorem top_slot : (n.top above parent).slot = n.slot := rfl

@[simp] theorem top_content : (n.top above parent).content = n.content := rfl

@[simp] theorem top_kids : (n.top above parent).kids = n.children.map kid := rfl

@[simp] theorem top_path : (n.top above parent).path = above ++ n.content.text := rfl

end top

/-- The nodes below a node. -/
def beneath (above : List Char) (n : Tree H) : List (Cell H) :=
  n.children.flatMap (cells (above ++ n.content.text) (some n.slot))

theorem cells_eq (above : List Char) (parent : Option Slot) (n : Tree H) :
    n.cells above parent = n.top above parent :: n.beneath above := by
  cases n
  rw [cells, cellsAll_eq]
  rfl

theorem mem_cells {n : Tree H} {above : List Char} {parent : Option Slot} {c : Cell H} :
    c ∈ n.cells above parent ↔ c = n.top above parent ∨ ∃ m ∈ n.children,
      c ∈ m.cells (above ++ n.content.text) (some n.slot) := by
  rw [cells_eq, List.mem_cons, beneath, List.mem_flatMap]

theorem top_mem {n : Tree H} {above : List Char} {parent : Option Slot} :
    n.top above parent ∈ n.cells above parent := mem_cells.mpr (.inl rfl)

theorem mem_cells_of_child {n m : Tree H} {above : List Char} {parent : Option Slot} {c : Cell H}
    (hm : m ∈ n.children) (hc : c ∈ m.cells (above ++ n.content.text) (some n.slot)) :
    c ∈ n.cells above parent := mem_cells.mpr (.inr ⟨m, hm, hc⟩)

/-- All nodes of a tree. -/
def all (n : Tree H) : List (Cell H) := n.cells [] none

def slots (n : Tree H) : List Slot := n.all.map (·.slot)

/-- The places of the nodes do not depend on where the tree is. -/
theorem map_slot_cells (above : List Char) (parent : Option Slot) (n : Tree H) :
    (n.cells above parent).map (·.slot) = n.slots := by
  suffices h : ∀ above parent above' parent',
      (n.cells above parent).map (·.slot) = (n.cells above' parent').map (·.slot) from h _ _ _ _
  induction n using Tree.induction with
  | step slot content children ih =>
    intro above parent above' parent'
    rw [cells_eq, cells_eq, List.map_cons, List.map_cons, beneath, beneath, List.map_flatMap,
      List.map_flatMap]
    exact congrArg (slot :: ·) (congrArg List.flatten (List.map_congr_left fun n hn => ih n hn ..))

theorem slots_eq (n : Tree H) : n.slots = n.slot :: n.children.flatMap slots := by
  rw [slots, all, cells_eq, List.map_cons, beneath, List.map_flatMap]
  exact congrArg (n.slot :: ·)
    (congrArg List.flatten (List.map_congr_left fun n _ => map_slot_cells _ _ n))

@[simp] theorem slots_node (slot : Slot) (c : Content H) (children : List (Tree H)) :
    (node slot c children).slots = slot :: children.flatMap slots := slots_eq _

theorem slot_mem_slots (n : Tree H) : n.slot ∈ n.slots := by
  rw [slots_eq]
  exact List.mem_cons_self ..

theorem mem_slots_of_child {n m : Tree H} (hm : m ∈ n.children) {s : Slot} (hs : s ∈ m.slots) :
    s ∈ n.slots := by
  rw [slots_eq]
  exact List.mem_cons_of_mem _ (List.mem_flatMap_of_mem hm hs)

theorem slot_mem_of_cell {n : Tree H} {above : List Char} {parent : Option Slot} {c : Cell H}
    (h : c ∈ n.cells above parent) : c.slot ∈ n.slots := by
  rw [← map_slot_cells above parent]
  exact List.mem_map_of_mem h

end Tree

/-- The surroundings of a node. -/
inductive Context (H : Type) where
  | hole
  | under (outer : Context H) (slot : Slot) (content : Content H) (left right : List (Tree H))

namespace Context
variable {H : Type}

/-- The tree with a node in this place. -/
def plug : Context H → Tree H → Tree H
  | hole, n => n
  | under outer slot content left right, n =>
    outer.plug (.node slot content (left ++ n :: right))

def above : Context H → List Char
  | hole => []
  | under outer _ content _ _ => outer.above ++ content.text

def parent : Context H → Option Slot
  | hole => none
  | under _ slot _ _ _ => some slot

/-- How many nodes are above the place. -/
def depth : Context H → Nat
  | hole => 0
  | under outer _ _ _ _ => outer.depth + 1

/-- The cells in front of the place, when a node that looks like this is in it. -/
def before (kid : Kid) : Context H → List (Cell H)
  | hole => []
  | under outer slot content left right =>
    outer.before ⟨slot, content.kind, content.label⟩ ++
      ⟨outer.above, outer.parent, slot, content, left.map Tree.kid ++ kid :: right.map Tree.kid⟩ ::
        left.flatMap (Tree.cells (outer.above ++ content.text) (some slot))

/-- The cells behind the place. -/
def after : Context H → List (Cell H)
  | hole => []
  | under outer slot content _ right =>
    right.flatMap (Tree.cells (outer.above ++ content.text) (some slot)) ++ outer.after

theorem cells_plug (C : Context H) (n : Tree H) :
    (C.plug n).all = C.before n.kid ++ n.cells C.above C.parent ++ C.after := by
  induction C generalizing n with
  | hole => simp [plug, before, after, above, parent, Tree.all]
  | under outer slot content left right ih =>
    rw [plug, ih, Tree.cells_eq, Tree.top, Tree.beneath]
    simp [before, after, above, parent, Tree.slot, Tree.content, Tree.children, Tree.kid]

theorem mem_plug {C : Context H} {n : Tree H} {c : Cell H} :
    c ∈ (C.plug n).all ↔
      c ∈ C.before n.kid ∨ c = n.top C.above C.parent ∨ c ∈ n.beneath C.above ∨ c ∈ C.after := by
  simp only [cells_plug, Tree.cells_eq, List.mem_append, List.mem_cons, or_assoc]

/-- The nodes of the part that is in a context. -/
theorem mem_of_part {C : Context H} {n : Tree H} {c : Cell H} (h : c ∈ n.cells C.above C.parent) :
    c ∈ (C.plug n).all := by
  rw [cells_plug]
  exact List.mem_append_left _ (List.mem_append_right _ h)

theorem top_mem {C : Context H} {n : Tree H} : n.top C.above C.parent ∈ (C.plug n).all :=
  mem_of_part Tree.top_mem

theorem plug_slot (C : Context H) {n m : Tree H} (h : n.slot = m.slot) :
    (C.plug n).slot = (C.plug m).slot := by
  cases C with
  | hole => exact h
  | under outer slot content left right => exact outer.plug_slot rfl

theorem map_slot_before (C : Context H) (kid other : Kid) :
    (C.before kid).map (·.slot) = (C.before other).map (·.slot) := by
  cases C <;> simp [before]

/-- The places of the nodes around a place. -/
def slots (C : Context H) : List Slot :=
  (C.before ⟨0, .static, ' '⟩).map (·.slot) ++ C.after.map (·.slot)

theorem slots_plug (C : Context H) (n : Tree H) : (C.plug n).slots.Perm (n.slots ++ C.slots) := by
  rw [Tree.slots, cells_plug, List.map_append, List.map_append, Tree.map_slot_cells, slots,
    map_slot_before C _ ⟨0, .static, ' '⟩, List.append_assoc]
  exact List.perm_append_comm_assoc ..

theorem slot_mem_of_before {C : Context H} {kid : Kid} {c : Cell H} (h : c ∈ C.before kid) :
    c.slot ∈ C.slots := by
  rw [slots, map_slot_before C _ kid]
  exact List.mem_append_left _ (List.mem_map_of_mem h)

theorem slot_mem_of_after {C : Context H} {c : Cell H} (h : c ∈ C.after) : c.slot ∈ C.slots :=
  List.mem_append_right _ (List.mem_map_of_mem h)

/-- A tree with as many nodes as there are above a place, and one more. -/
theorem depth_lt (C : Context H) (n : Tree H) : C.depth < (C.plug n).all.length := by
  rw [cells_plug, Tree.cells_eq]
  suffices h : ∀ kid, C.depth ≤ (C.before kid).length by
    have := h n.kid
    simp only [List.length_append, List.length_cons]
    omega
  induction C with
  | hole => simp [depth]
  | under outer slot content left right ih =>
    intro kid
    have := ih ⟨slot, content.kind, content.label⟩
    simp only [depth, before, List.length_append, List.length_cons]
    omega

/-- Every node of a tree is in some context. -/
theorem exists_plug {C : Context H} {n : Tree H} {c : Cell H} (h : c ∈ n.cells C.above C.parent) :
    ∃ (D : Context H) (m : Tree H), C.plug n = D.plug m ∧ c = m.top D.above D.parent := by
  induction n using Tree.induction generalizing C with
  | step slot content children ih =>
    rw [Tree.cells_eq, List.mem_cons] at h
    rcases h with rfl | h
    · exact ⟨C, .node slot content children, rfl, rfl⟩
    · obtain ⟨m, hm, hc⟩ := List.mem_flatMap.mp h
      obtain ⟨left, right, hsplit⟩ := List.append_of_mem hm
      obtain rfl : children = left ++ m :: right := hsplit
      exact ih m hm (C := C.under slot content left right) hc

theorem exists_plug_of_slot {n : Tree H} {slot : Slot} (h : slot ∈ n.slots) :
    ∃ (C : Context H) (m : Tree H), n = C.plug m ∧ m.slot = slot := by
  obtain ⟨c, hc, rfl⟩ := List.mem_map.mp h
  obtain ⟨C, m, heq, rfl⟩ := exists_plug (C := hole) hc
  exact ⟨C, m, heq, rfl⟩

end Context

end Routing.Trie
