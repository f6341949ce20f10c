import Routing.Kind
import Routing.Methods

/-! The nodes of the trie.

A node matches its own text, and its children what follows; a node at which a route ends
carries what was registered for it. The path of a node is the text from the root down to it.
Nodes know each other by number: the children in the order they were put in, and the parent,
by which a removal finds its way back up. -/
namespace Routing

namespace Trie

/-- The number of a node. -/
abbrev Slot := Nat

/-- What one registration adds to a route. -/
structure Registration (H : Type) where
  method : String
  handler : H
  name : String
  pattern : String
  params : List String
  deriving Repr, DecidableEq

/-- What a node carries, apart from its place in the trie. -/
structure Content (H : Type) where
  kind : Kind
  /-- The character by which a parent tells its children apart: the first of the text. -/
  label : Char
  text : List Char
  /-- The name of the route that ends here, or empty. -/
  name : String
  /-- The pattern as it was first registered; empty where no route ends. -/
  pattern : String
  params : List String
  methods : Methods H
  deriving Repr, DecidableEq

/-- The character a text begins with; NUL for the empty text. -/
def labelOf (text : List Char) : Char := text.head?.getD '\x00'

namespace Content
variable {H : Type}

/-- A stretch of path at which no route ends. -/
def plain (kind : Kind) (text : List Char) : Content H :=
  ⟨kind, labelOf text, text, "", "", [], .empty⟩

def hasRoute (c : Content H) : Bool := !c.methods.isEmpty

/-- One more registration of the path. The method's handler is put in; the pattern, the
parameters' names and the name stay as they are as soon as there are any. -/
def attach (c : Content H) (r : Registration H) : Content H :=
  { c with
    methods := c.methods.insert r.method r.handler
    pattern := if c.pattern = "" then r.pattern else c.pattern
    params := if c.params.isEmpty then r.params else c.params
    name := if c.name = "" then r.name else c.name }

/-- The content with a registration, if there is one. -/
def register (c : Content H) : Option (Registration H) → Content H
  | none => c
  | some r => c.attach r

/-- The content without its route. -/
def withoutRoute (c : Content H) : Content H :=
  { c with methods := .empty, name := "", pattern := "", params := [] }

end Content

structure Node (H : Type) extends Content H where
  parent : Option Slot
  children : List Slot
  deriving Repr, DecidableEq

namespace Node
variable {H : Type}

/-- A node that matches nothing and leads nowhere. -/
def blank : Node H := ⟨.plain .static [], none, []⟩

end Node

end Trie

end Routing
