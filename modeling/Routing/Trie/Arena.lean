import Routing.Text.Shared
import Routing.Trie.Node

/-! The trie as its nodes are stored.

The nodes stand in an array, and a node's number is its place there. A place given back is
given out again before a new one is made, the last one returned first. The root always has
place zero, and a trie without routes is a root with nothing in it.

Whatever follows a number gives `none` where no node has it, and what cuts a text gives `none`
where the offset is not between two characters. -/
namespace Routing

structure Trie (H : Type) where
  nodes : Array (Trie.Node H)
  /-- The places given back, the last one first. -/
  free : List Trie.Slot
  deriving Repr

namespace Trie
variable {H : Type}

def root : Slot := 0

def empty : Trie H := ⟨#[.blank], []⟩

def node? (t : Trie H) (slot : Slot) : Option (Node H) := t.nodes[slot]?

def isEmpty (t : Trie H) : Bool :=
  (t.node? root).all fun n => n.text.isEmpty && n.children.isEmpty

/-- How many nodes there are. -/
def nodeCount (t : Trie H) : Nat := t.nodes.size - t.free.length

/-! ### Writing -/

def set (t : Trie H) (slot : Slot) (n : Node H) : Trie H :=
  { t with nodes := t.nodes.setIfInBounds slot n }

def put? (t : Trie H) (slot : Slot) (n : Node H) : Option (Trie H) :=
  if slot < t.nodes.size then some (t.set slot n) else none

def change? (t : Trie H) (slot : Slot) (f : Node H → Node H) : Option (Trie H) := do
  t.put? slot (f (← t.node? slot))

/-- Stores a new node. -/
def alloc? (t : Trie H) (n : Node H) : Option (Slot × Trie H) :=
  match t.free with
  | slot :: free => do return (slot, { ← t.put? slot n with free })
  | [] => some (t.nodes.size, { t with nodes := t.nodes.push n })

/-- Gives back the place of a node that nothing leads to any more. -/
def release? (t : Trie H) (slot : Slot) : Option (Trie H) := do
  let t ← t.put? slot .blank
  return { t with free := slot :: t.free }

def addChild? (t : Trie H) (parent child : Slot) : Option (Trie H) := do
  let t ← t.change? child fun n => { n with parent := some parent }
  t.change? parent fun n => { n with children := n.children ++ [child] }

def removeChild? (t : Trie H) (parent child : Slot) : Option (Trie H) :=
  t.change? parent fun n => { n with children := n.children.filter (· ≠ child) }

/-- Makes a node the parent of others. -/
def adopt? (t : Trie H) (parent : Slot) : List Slot → Option (Trie H)
  | [] => some t
  | child :: rest => do
    let t ← t.change? child fun n => { n with parent := some parent }
    t.adopt? parent rest

/-! ### Children -/

/-- The first of some nodes that passes a test; nodes behind it are not looked at. -/
def firstOf? (t : Trie H) (test : Content H → Bool) : List Slot → Option (Option Slot)
  | [] => some none
  | slot :: rest => do
    if test (← t.node? slot).toContent then return some slot
    t.firstOf? test rest

/-- The first child that passes a test. -/
def child? (t : Trie H) (slot : Slot) (test : Content H → Bool) : Option (Option Slot) := do
  t.firstOf? test (← t.node? slot).children

/-- The child whose text begins with a character. A `:` or `*` only leads to a parameter or
a wildcard. -/
def childLabelled? (t : Trie H) (slot : Slot) (label : Char) : Option (Option Slot) :=
  t.child? slot (·.label == label)

def childOfKind? (t : Trie H) (slot : Slot) (kind : Kind) : Option (Option Slot) :=
  t.child? slot (·.kind == kind)

/-! ### Splitting and merging -/

/-- Splits a node at an offset of its text. It keeps the front and becomes plain; a new child
takes over the back, and all that the node carried. -/
def split? (t : Trie H) (slot : Slot) (offset : Nat) : Option (Trie H) := do
  let n ← t.node? slot
  let (front, back) ← Text.cut? n.text offset
  let t ← t.put? slot
    { Content.plain .static front with label := n.label, parent := n.parent, children := [] }
  let (lower, t) ← t.alloc? { n with label := labelOf back, text := back, parent := some slot }
  let t ← t.adopt? lower n.children
  t.addChild? slot lower

/-- Merges a plain static node with its child, if it has one child only and that is static. -/
def merge? (t : Trie H) (slot : Slot) : Option (Trie H) := do
  let n ← t.node? slot
  match n.children with
  | [only] =>
    if n.kind = .static ∧ ¬ n.hasRoute then
      let child ← t.node? only
      if child.kind = .static then
        let t ← t.put? only .blank
        let t ← t.adopt? slot child.children
        let t ← t.change? slot fun n =>
          { n with
            text := n.text ++ child.text
            children := child.children
            name := child.name
            pattern := child.pattern
            params := child.params
            methods := child.methods }
        return { t with free := only :: t.free }
      else return t
    else return t
  | _ => return t

end Trie

end Routing
