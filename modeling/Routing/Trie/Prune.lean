import Routing.Trie.Arena

/-! Taking nodes out that nothing needs any more.

A node that neither ends a route nor leads on is of no use and goes, and its parent is looked
at in the same way; a static node left with nothing but one static child swallows the child.
So the trie shrinks back along the path of a route that is gone, and only there. The root
stays: without routes it becomes blank again. -/
namespace Routing.Trie
variable {H : Type}

def pruneFrom? (t : Trie H) : Nat → Slot → Option (Trie H)
  | 0, _ => none
  | turns + 1, slot => do
    let n ← t.node? slot
    if n.hasRoute then return t
    match n.children, n.parent with
    | [], none => t.put? slot .blank
    | [], some parent =>
      let t ← t.removeChild? parent slot
      let t ← t.release? slot
      t.pruneFrom? turns parent
    | [_], _ => t.merge? slot
    | _, _ => return t

/-- Takes a node out of which a route has just gone, if it can go, and what becomes useless
above it. Each turn but the last takes a node out. -/
def prune? (t : Trie H) (slot : Slot) : Option (Trie H) := t.pruneFrom? t.nodeCount slot

end Routing.Trie
