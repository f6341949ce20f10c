import Routing.Trie.Search

/-! Parameters of a matched path.

`Params` holds the names of the matched route's parameters and the values captured for
them, both in the order of the pattern, so that a value is found by its name or by its
place. A search writes its captures into the values; the names are put in once it has
succeeded. -/
namespace Routing

structure Params where
  names : List String
  values : List String
  deriving Repr, DecidableEq

namespace Params

def empty : Params := ⟨[], []⟩

def size (p : Params) : Nat := p.values.length

def isEmpty (p : Params) : Bool := p.values.isEmpty

/-- The value of the first parameter with this name. -/
def get? (p : Params) (name : String) : Option String :=
  (p.names.idxOf? name).bind (p.values[·]?)

def name? (p : Params) (index : Nat) : Option String := p.names[index]?

def value? (p : Params) (index : Nat) : Option String := p.values[index]?

/-- Names and values side by side. -/
def toList (p : Params) : List (String × String) := p.names.zip p.values

def clear (_ : Params) : Params := empty

def push (p : Params) (value : List Char) : Params :=
  { p with values := p.values ++ [String.ofList value] }

instance : Trie.Sink Params where
  size p := p.values.length
  push := push
  truncate p count := { p with values := p.values.take count }

end Params

end Routing
