import Routing.Trie.Arena

/-! Nodes by their path, and paths by their node.

A way down or up meets no node twice, so there are as many turns as there are nodes. -/
namespace Routing.Trie
variable {H : Type}

/-- The node with a path, counted from a node down. -/
def atFrom? (t : Trie H) : Nat → Slot → List Char → Option (Option Slot)
  | 0, _, _ => none
  | turns + 1, slot, path => do
    match Text.after? (← t.node? slot).text path with
    | none => return none
    | some [] => return some slot
    | some (c :: rest) =>
      match ← t.childLabelled? slot c with
      | none => return none
      | some child => t.atFrom? turns child (c :: rest)

/-- The node with a path. -/
def at? (t : Trie H) (path : List Char) : Option (Option Slot) :=
  t.atFrom? t.nodeCount root path

/-- A node and those above it, the root last. -/
def lineage? (t : Trie H) : Nat → Slot → Option (List (Node H))
  | 0, _ => none
  | turns + 1, slot => do
    let n ← t.node? slot
    match n.parent with
    | none => return [n]
    | some parent => return n :: (← t.lineage? turns parent)

/-- The path of a node, put together from the root down. -/
def pathOf? (t : Trie H) (slot : Slot) : Option (List Char) := do
  let nodes ← t.lineage? t.nodeCount slot
  return nodes.reverse.flatMap (·.text)

end Routing.Trie
