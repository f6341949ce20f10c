import Mathlib.Algebra.Order.BigOperators.Group.List
import Mathlib.Algebra.Order.Group.Nat
import Routing.Proofs.Trie.Match
import Routing.Proofs.Trie.Plant
import Routing.Proofs.Trie.Walk

/-! Nodes by their path.

The way down from the root takes a path to the node that has it, and to no node if none has it
(`Holds.at?_eq`): the next character tells the only child that can go on. -/
namespace Routing

theorem Text.after?_eq_some {front text back : List Char} :
    after? front text = some back ↔ text = front ++ back := by
  constructor
  · intro h
    induction front generalizing text with
    | nil => exact Option.some.inj h
    | cons c front ih =>
      cases text with
      | nil => cases h
      | cons x text =>
        rw [after?] at h
        split at h
        · next heq => rw [heq, ih h, List.cons_append]
        · cases h
  · rintro rfl
    exact after?_append front back

namespace Trie
variable {H : Type}

/-- A way down leads to the node with a path, if there is one. -/
def LeadsTo (cells : List (Cell H)) (path : List Char) (found : Option Slot) : Prop :=
  ∀ slot, found = some slot ↔ ∃ c ∈ cells, c.path = path ∧ c.slot = slot

theorem leadsTo_none {cells : List (Cell H)} {path : List Char} (h : ∀ c ∈ cells, c.path ≠ path) :
    LeadsTo cells path none := by
  intro slot
  refine iff_of_false (by simp) ?_
  rintro ⟨c, hc, hpath, -⟩
  exact h c hc hpath

section down
variable {n m : Tree H} {above : List Char} {parent : Option Slot}

/-- A path that does not begin with that of a node leads nowhere. -/
theorem Tree.leadsTo_of_not_after {path : List Char}
    (hafter : Text.after? n.content.text path = none) :
    LeadsTo (n.cells above parent) (above ++ path) none := by
  refine leadsTo_none fun c hc hpath => ?_
  obtain ⟨rest, hrest⟩ := Tree.path_of_mem_cells hc
  rw [hpath, List.append_assoc, List.append_cancel_left_eq] at hrest
  rw [Text.after?_eq_some.mpr hrest] at hafter
  cases hafter

variable (hsound : ∀ c ∈ n.cells above parent, c.Sound)
include hsound

/-- The path of a node leads to it. -/
theorem Tree.leadsTo_self :
    LeadsTo (n.cells above parent) (above ++ n.content.text) (some n.slot) := by
  intro slot
  constructor
  · rintro ⟨⟩
    exact ⟨_, Tree.top_mem, rfl, rfl⟩
  · rintro ⟨c, hc, hpath, rfl⟩
    rcases Tree.mem_cells.mp hc with rfl | ⟨m, hm, hbelow⟩
    · rfl
    · obtain ⟨tail, htail⟩ := Tree.child_of_beneath hsound hm hbelow
      rw [hpath] at htail
      exact absurd (congrArg List.length htail) (by simp)

/-- Behind a node a path leads nowhere if no child has its next character. -/
theorem Tree.leadsTo_of_no_child {x : Char} (rest : List Char)
    (hnone : ∀ m ∈ n.children, m.content.label ≠ x) :
    LeadsTo (n.cells above parent) (above ++ n.content.text ++ x :: rest) none := by
  refine leadsTo_none fun c hc hpath => ?_
  rcases Tree.mem_cells.mp hc with rfl | ⟨m, hm, hbelow⟩
  · exact absurd (congrArg List.length hpath) (by simp)
  · obtain ⟨tail, htail⟩ := Tree.child_of_beneath hsound hm hbelow
    rw [hpath, List.append_cancel_left_eq] at htail
    exact hnone m hm (List.cons.inj htail).1.symm

/-- From a node down a path goes through the child that its next character labels. -/
theorem Tree.mem_cells_child (hm : m ∈ n.children) {c : Cell H} {rest : List Char}
    (hpath : c.path = above ++ n.content.text ++ m.content.label :: rest) :
    c ∈ n.cells above parent ↔ c ∈ m.cells (above ++ n.content.text) (some n.slot) := by
  refine ⟨fun hc => ?_, mem_cells_of_child hm⟩
  rcases mem_cells.mp hc with rfl | ⟨m', hm', hc'⟩
  · exact absurd (congrArg List.length hpath) (by simp)
  · obtain ⟨tail, htail⟩ := child_of_beneath hsound hm' hc'
    rw [hpath, List.append_cancel_left_eq] at htail
    rwa [eq_of_label_eq (hsound _ top_mem) hm hm' (List.cons.inj htail).1]

/-- Where a path leads from that child, it leads from the node. -/
theorem Tree.leadsTo_of_child (hm : m ∈ n.children) {rest : List Char} {found : Option Slot}
    (hleads : LeadsTo (m.cells (above ++ n.content.text) (some n.slot))
      (above ++ n.content.text ++ m.content.label :: rest) found) :
    LeadsTo (n.cells above parent) (above ++ n.content.text ++ m.content.label :: rest) found := by
  refine fun slot => (hleads slot).trans (exists_congr fun c => and_congr_left fun hc => ?_)
  exact (Tree.mem_cells_child hsound hm hc.1).symm

end down

theorem Tree.length_slots_child {n m : Tree H} (hm : m ∈ n.children) :
    m.slots.length < n.slots.length := by
  rw [slots_eq n, List.length_cons, List.length_flatMap]
  exact Nat.lt_succ_of_le
    (List.le_sum_of_mem (List.mem_map_of_mem (f := fun m => m.slots.length) hm))

theorem Stores.atFrom?_eq {t : Trie H} {parent : Option Slot} {n : Tree H} (h : t.Stores parent n)
    {above : List Char} (hsound : ∀ c ∈ n.cells above parent, c.Sound) {turns : Nat}
    (hturns : n.slots.length ≤ turns) (path : List Char) :
    ∃ found, t.atFrom? turns n.slot path = some found ∧
      LeadsTo (n.cells above parent) (above ++ path) found := by
  induction turns generalizing n above parent path with
  | zero =>
    rw [Tree.slots_eq] at hturns
    cases hturns
  | succ turns ih =>
    rw [Trie.atFrom?, h.node?_eq]
    simp only [Option.bind_eq_bind, Option.bind_some]
    cases hafter : Text.after? n.content.text path with
    | none => exact ⟨none, rfl, Tree.leadsTo_of_not_after hafter⟩
    | some rest =>
      obtain rfl := Text.after?_eq_some.mp hafter
      cases rest with
      | nil =>
        rw [List.append_nil]
        exact ⟨some n.slot, rfl, Tree.leadsTo_self hsound⟩
      | cons x rest =>
        have hchild : t.childLabelled? n.slot x =
            some ((n.children.find? fun m => m.content.label == x).map Tree.slot) := h.child?_eq _
        simp only [hchild, Option.bind_some]
        rw [← List.append_assoc]
        cases hfind : n.children.find? fun m => m.content.label == x with
        | none =>
          refine ⟨none, rfl, Tree.leadsTo_of_no_child hsound rest fun m hm heq => ?_⟩
          exact List.find?_eq_none.mp hfind m hm (beq_iff_eq.mpr heq)
        | some m =>
          have hm := List.mem_of_find?_eq_some hfind
          obtain rfl : m.content.label = x := eq_of_beq
            (List.find?_some (p := fun m : Tree H => m.content.label == x) hfind)
          have hless : m.slots.length ≤ turns :=
            Nat.le_of_lt_succ ((Tree.length_slots_child hm).trans_le hturns)
          obtain ⟨found, hfound, hleads⟩ := ih (h.child hm)
            (fun c hc => hsound c (Tree.mem_cells_of_child hm hc)) hless
            (m.content.label :: rest)
          exact ⟨found, hfound, Tree.leadsTo_of_child hsound hm hleads⟩

/-- The way down leads to the node with the path. -/
theorem Holds.at?_eq {t : Trie H} {n : Tree H} (h : t.Holds n) (hn : Formed n)
    (path : List Char) : ∃ found, t.at? path = some found ∧ LeadsTo n.all path found := by
  have hturns : t.nodeCount = n.slots.length := by
    rw [h.nodeCount_eq, Tree.slots, List.length_map]
  rw [at?, show root = n.slot from h.rooted.symm, hturns]
  cases hn with
  | full hsound _ => exact h.stored.atFrom?_eq hsound (Nat.le_refl _) path
  | bare =>
    have hnode : t.node? root = some .blank := h.stored.node?_eq
    have hone : (bare : Tree H).slots.length = 1 := rfl
    rw [hone, show (bare : Tree H).slot = root from rfl, atFrom?, hnode]
    cases path with
    | nil =>
      refine ⟨some root, rfl, fun slot => ⟨?_, ?_⟩⟩
      · rintro ⟨⟩
        exact ⟨_, Tree.top_mem, rfl, rfl⟩
      · rintro ⟨c, hc, -, rfl⟩
        obtain rfl := List.mem_singleton.mp hc
        rfl
    | cons x rest =>
      have hchild : t.childLabelled? root x = some none := h.stored.child?_eq _
      refine ⟨none, ?_, leadsTo_none fun c hc hpath => ?_⟩
      · show (t.childLabelled? root x).bind _ = _
        rw [hchild]
        rfl
      · obtain rfl := List.mem_singleton.mp hc
        cases hpath

end Trie

end Routing
