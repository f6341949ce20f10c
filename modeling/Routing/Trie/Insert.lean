import Routing.Pattern
import Routing.Trie.Arena

/-! Putting a path into the trie.

A path goes down as far as nodes match it. Where it parts from a node's text inside the
text, the node is split: it keeps the shared part, and a new child takes over the rest
together with all the node carried. Where it runs past the children it becomes a new leaf,
behind them. The registration, if there is one, ends up at the node whose path is the whole
path; the path up to a cut carries none, and only leaves the end of a node.

A pattern's path is put in up to each of its cuts, and then whole. Each time it could go down
from the root again, over the nodes of the time before; it goes on from the last of them. -/
namespace Routing.Trie
variable {H : Type}

/-- Puts a new node behind the children of another. -/
def addLeaf? (t : Trie H) (parent : Slot) (kind : Kind) (path : List Char)
    (r : Option (Registration H)) : Option (Slot × Trie H) := do
  let (slot, t) ← t.alloc?
    { (Content.plain kind path).register r with parent := none, children := [] }
  return (slot, ← t.addChild? parent slot)

/-- A node with a registration, if there is one. -/
def register? (t : Trie H) (slot : Slot) (r : Option (Registration H)) :
    Option (Slot × Trie H) := do
  return (slot, ← t.change? slot fun n => { n with toContent := n.toContent.register r })

/-- Puts a path in from a node down, and tells the node at which it ends. A path that shares
nothing with the node's text comes only to the root of an empty trie, which then takes it as
its own. -/
def insertFrom? (t : Trie H) (kind : Kind) (r : Option (Registration H)) (slot : Slot)
    (path : List Char) : Option (Slot × Trie H) :=
  match t.node? slot with
  | none => none
  | some n =>
    let shared := Text.sharedLength path n.text
    if _shared : shared = 0 then do
      return (slot, ← t.change? slot fun n =>
        { n with
          toContent := { n.toContent with kind, label := labelOf path, text := path }.register r })
    else if shared < Text.utf8Length n.text then do
      let t ← t.split? slot shared
      if shared = Text.utf8Length path then t.register? slot r
      else
        let (_, rest) ← Text.cut? path shared
        t.addLeaf? slot kind rest r
    else if shared < Text.utf8Length path then
      match _cut : Text.cut? path shared with
      | none => none
      | some (_, rest) =>
        match t.childLabelled? slot (labelOf rest) with
        | none => none
        | some (some child) => t.insertFrom? kind r child rest
        | some none => t.addLeaf? slot kind rest r
    else t.register? slot r
termination_by path.length
decreasing_by
  have := Text.length_of_cut? _cut
  omega

/-- Puts a path in, from the root. -/
def insert? (t : Trie H) (kind : Kind) (path : List Char) (r : Option (Registration H)) :
    Option (Slot × Trie H) :=
  t.insertFrom? kind r root path

/-- Puts a path in stretch by stretch, up to each of some cuts and then to its end, where the
registration is. It goes on from the node at which the path in front has ended, so `own` is
the text of that node; `offset` is how far the path has come, and `left` what is still to go. -/
def plantFrom? (terminal : Kind) (r : Registration H) :
    Trie H → Slot → (own : List Char) → (offset : Nat) → (left : List Char) → List Cut →
      Option (Trie H)
  | t, slot, own, _, left, [] =>
    (t.insertFrom? terminal (some r) slot (own ++ left)).map Prod.snd
  | t, slot, own, offset, left, cut :: rest => do
    let (stretch, left) ← Text.cut? left (cut.offset - offset)
    let (slot, t) ← t.insertFrom? cut.kind none slot (own ++ stretch)
    plantFrom? terminal r t slot (← t.node? slot).text cut.offset left rest

/-- Puts a pattern's path in, and its route. -/
def plant? (t : Trie H) (pattern : Pattern) (r : Registration H) : Option (Trie H) :=
  plantFrom? pattern.terminal r t root [] 0 pattern.path pattern.cuts

end Routing.Trie
