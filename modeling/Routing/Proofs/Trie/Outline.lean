import Routing.Proofs.Trie.Holds
import Routing.Trie.Walk

/-! The outline of a tree.

What is printed of a trie is settled by the nodes in order with their depths, and does not depend
on their numbers (`Holds.outline?_eq`). Whether anything is printed is settled by the depths. -/
namespace Routing.Trie
variable {H : Type}

namespace Tree

mutual

/-- The nodes with their depths, parents before children. -/
def levels (depth : Nat) : Tree H → List (Nat × Content H)
  | node _ content children => (depth, content) :: levelsAll (depth + 1) children

def levelsAll (depth : Nat) : List (Tree H) → List (Nat × Content H)
  | [] => []
  | n :: rest => levels depth n ++ levelsAll depth rest

end

theorem levelsAll_eq (depth : Nat) (nodes : List (Tree H)) :
    levelsAll depth nodes = nodes.flatMap (levels depth) := by
  induction nodes with
  | nil => rfl
  | cons n rest ih => rw [levelsAll, ih, List.flatMap_cons]

theorem levels_eq (depth : Nat) (n : Tree H) :
    n.levels depth = (depth, n.content) :: n.children.flatMap (levels (depth + 1)) := by
  cases n
  rw [levels, levelsAll_eq]
  rfl

theorem length_levels (depth : Nat) (n : Tree H) : (n.levels depth).length = n.slots.length := by
  induction n using Tree.induction generalizing depth with
  | step slot content children ih =>
    have hchildren : children.map (fun m => (m.levels (depth + 1)).length) =
        children.map (fun m => m.slots.length) := List.map_congr_left fun m hm => ih m hm _
    rw [levels_eq, slots_eq]
    simp [List.length_flatMap, hchildren]

end Tree

/-- The lines of nodes with their depths, if all of them can be indented so far. -/
def linesOf? (levels : List (Nat × Content H)) : Option (List String) :=
  levels.mapM (Function.uncurry line?)

/-- It does not matter which line fails first. -/
theorem linesOf?_cons (depth : Nat) (c : Content H) (rest : List (Nat × Content H)) :
    linesOf? ((depth, c) :: rest) =
      (linesOf? rest).bind fun lines => (line? depth c).map (· :: lines) := by
  rw [linesOf?, List.mapM_cons, Function.uncurry_apply_pair, ← linesOf?]
  cases line? depth c <;> cases linesOf? rest <;> rfl

/-- A stack of trees is written in order. -/
theorem linesFrom?_eq {t : Trie H} (turns : Nat) (nodes : List (Tree H × Nat))
    (h : ∀ n ∈ nodes, ∃ parent, t.Stores parent n.1)
    (hturns : (nodes.flatMap fun n => n.1.levels n.2).length ≤ turns) :
    t.linesFrom? turns (nodes.map fun n => (n.1.slot, n.2)) =
      linesOf? (nodes.flatMap fun n => n.1.levels n.2) := by
  induction turns generalizing nodes with
  | zero =>
    cases nodes with
    | nil => rfl
    | cons n rest =>
      rw [List.flatMap_cons, Tree.levels_eq] at hturns
      exact absurd hturns (by simp)
  | succ turns ih =>
    cases nodes with
    | nil => rfl
    | cons n rest =>
      obtain ⟨n, depth⟩ := n
      obtain ⟨parent, hstored⟩ := h _ (List.mem_cons_self ..)
      have hstack : (n.children.map (·, depth + 1) ++ rest).flatMap (fun m => m.1.levels m.2) =
          n.children.flatMap (Tree.levels (depth + 1)) ++ rest.flatMap fun m => m.1.levels m.2 := by
        rw [List.flatMap_append, List.flatMap_map]
      have hrest := ih (n.children.map (·, depth + 1) ++ rest)
        (fun m hm => by
          rcases List.mem_append.mp hm with hm | hm
          · obtain ⟨child, hchild, rfl⟩ := List.mem_map.mp hm
            exact ⟨_, hstored.child hchild⟩
          · exact h m (List.mem_cons_of_mem _ hm))
        (by
          rw [List.flatMap_cons, Tree.levels_eq] at hturns
          rw [hstack]
          simp only [List.length_append, List.length_cons] at hturns ⊢
          omega)
      rw [hstack, List.map_append, List.map_map] at hrest
      rw [List.map_cons, linesFrom?, hstored.node?_eq, List.flatMap_cons, Tree.levels_eq]
      simp only [Option.bind_eq_bind, Option.bind_some, List.map_map]
      rw [show (n.children.map ((·, depth + 1) ∘ Tree.slot)) =
        n.children.map ((fun m => (m.1.slot, m.2)) ∘ (·, depth + 1)) from rfl, hrest,
        List.cons_append, linesOf?_cons]
      exact congrArg _ (funext fun lines => (Option.map_eq_bind ..).symm)

/-- What is printed of a trie with routes. -/
theorem Holds.outline?_eq {t : Trie H} {n : Tree H} (h : t.Holds n) (hempty : t.isEmpty = false) :
    t.outline? = (linesOf? (n.levels 0)).map String.join := by
  have hlines := linesFrom?_eq (t := t) t.nodeCount [(n, 0)]
    (fun m hm => ⟨none, List.mem_singleton.mp hm ▸ h.stored⟩)
    (by rw [h.nodeCount_eq]; simp [Tree.length_levels, Tree.slots])
  rw [List.flatMap_singleton, List.map_singleton, show (n, 0).1.slot = root from h.rooted] at hlines
  rw [outline?, hempty, if_neg Bool.false_ne_true, hlines]

end Routing.Trie
