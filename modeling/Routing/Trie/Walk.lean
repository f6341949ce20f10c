import Routing.Trie.Arena

/-! The nodes of a trie in order, parents before children and children as they stand.

Both walks keep a stack of the nodes still to come, and take as many turns as there are nodes.
`linesFrom?` also remembers how deep each of them is, and writes a line for each node: its text and
kind, indented by its depth, and for a node that ends a route the pattern and the methods. A line
can be indented only so far (`maxIndent`), and an outline with a deeper node fails as a whole. -/
namespace Routing.Trie
variable {H : Type}

/-- The nodes on the stack, each followed by those below it. -/
def walkFrom? (t : Trie H) : Nat → List Slot → Option (List Slot)
  | _, [] => some []
  | 0, _ :: _ => none
  | turns + 1, slot :: rest => do
    return slot :: (← t.walkFrom? turns ((← t.node? slot).children ++ rest))

/-- All nodes. -/
def walk? (t : Trie H) : Option (List Slot) := t.walkFrom? t.nodeCount [root]

/-! ### As text -/

/-- The methods of a route as the outline names them, that for any as `*`. -/
def methodsText (methods : Methods H) : String :=
  ", ".intercalate (methods.names.map fun method => if method = "" then "*" else method)

/-- A node's line, without the indentation. -/
def lineText (c : Content H) : String :=
  let node := String.ofList c.text ++ " (" ++ c.kind.label ++ ")"
  if c.hasRoute then node ++ " " ++ c.pattern ++ " [" ++ methodsText c.methods ++ "]" else node

/-- The widest indentation that can be written: its width has to fit 16 bits. -/
def maxIndent : Nat := 65535

/-- The line of a node at a depth, if it can be indented so far. -/
def line? (depth : Nat) (c : Content H) : Option String :=
  if 2 * depth ≤ maxIndent then
    some (String.ofList (List.replicate (2 * depth) ' ') ++ lineText c ++ "\n")
  else none

/-- The lines of the nodes on the stack, each followed by those below it. -/
def linesFrom? (t : Trie H) : Nat → List (Slot × Nat) → Option (List String)
  | _, [] => some []
  | 0, _ :: _ => none
  | turns + 1, (slot, depth) :: rest => do
    let n ← t.node? slot
    let lines ← t.linesFrom? turns (n.children.map (·, depth + 1) ++ rest)
    return (← line? depth n.toContent) :: lines

/-- The trie as text, a line a node; nothing if there are no routes. -/
def outline? (t : Trie H) : Option String :=
  if t.isEmpty then some "" else (t.linesFrom? t.nodeCount [(root, 0)]).map String.join

end Routing.Trie
