/-! The handlers of one route, by method. -/
namespace Routing

/-- Handlers by method, and the one for every other method. The methods are in ascending
order, each once, and none is empty: the empty method stands for any. -/
structure Methods (H : Type) where
  named : List (String × H)
  any : Option H
  deriving Repr, DecidableEq

namespace Methods
variable {H : Type}

def empty : Methods H := ⟨[], none⟩

def isEmpty (m : Methods H) : Bool := m.named.isEmpty && m.any.isNone

/-- Puts a handler in its place among ascending methods, over one of the same method. -/
def place (method : String) (handler : H) : List (String × H) → List (String × H)
  | [] => [(method, handler)]
  | (other, kept) :: rest =>
    if method = other then (method, handler) :: rest
    else if method < other then (method, handler) :: (other, kept) :: rest
    else (other, kept) :: place method handler rest

def insert (m : Methods H) (method : String) (handler : H) : Methods H :=
  if method = "" then { m with any := some handler }
  else { m with named := place method handler m.named }

/-- The handlers without that of one method, if it has one of its own. -/
def erase? (m : Methods H) (method : String) : Option (Methods H) :=
  if method = "" then m.any.map fun _ => { m with any := none }
  else if (m.named.lookup method).isSome then
    some { m with named := m.named.filter (·.1 ≠ method) }
  else none

/-- The handler that answers a method: its own, or else the one for any. -/
def find? (m : Methods H) (method : String) : Option H :=
  (m.named.lookup method).or m.any

/-- The methods with a handler, in order, that for any last and empty. -/
def names (m : Methods H) : List String :=
  m.named.map (·.1) ++ if m.any.isSome then [""] else []

end Methods

end Routing
