import Routing.Pattern

/-! Which patterns are registered, and under which names.

A name stands for one pattern and a pattern has one name at most. Patterns count as they
are spelled: `/u/:id` and `/u/:uid` share a node of the trie but have a record each, so the
record keeps the pattern's path as well. -/
namespace Routing

namespace Registry

/-- What is kept of a registered pattern. -/
structure Entry where
  /-- The pattern's name, or empty. -/
  name : String
  /-- The pattern with the names of its parameters struck out. -/
  path : List Char
  deriving Repr, DecidableEq

/-- A table with a key set to a value, in its place if the key is there. -/
def put {α : Type} (key : String) (value : α) : List (String × α) → List (String × α)
  | [] => [(key, value)]
  | (other, kept) :: rest =>
    if key = other then (key, value) :: rest else (other, kept) :: put key value rest

end Registry

structure Registry where
  /-- Patterns by name. -/
  names : List (String × String)
  /-- Records by pattern. -/
  paths : List (String × Registry.Entry)
  deriving Repr, DecidableEq

namespace Registry

def empty : Registry := ⟨[], []⟩

/-- The pattern that has this name. -/
def path? (r : Registry) (name : String) : Option String := r.names.lookup name

/-- Whether a pattern may be registered under a name; without a name it always may. -/
def accept (r : Registry) (name : String) (pattern : Pattern) : Except Error Unit :=
  if name = "" then .ok ()
  else
    match (r.path? name).filter (· ≠ pattern.text) with
    | some bound => .error (.nameBound name bound pattern.text)
    | none =>
      match (r.paths.lookup pattern.text).filter fun e => e.name ≠ "" ∧ e.name ≠ name with
      | some entry => .error (.pathNamed pattern.text entry.name name)
      | none => .ok ()

/-- Records a pattern. A pattern without a name takes the one it is given now. -/
def record (r : Registry) (name : String) (pattern : Pattern) : Registry :=
  let entry := (r.paths.lookup pattern.text).getD ⟨"", pattern.path⟩
  if entry.name = "" ∧ name ≠ "" then
    { names := put name pattern.text r.names
      paths := put pattern.text { entry with name } r.paths }
  else { r with paths := put pattern.text entry r.paths }

/-- Drops every pattern of this path, with its name. -/
def dropPath (r : Registry) (path : List Char) : Registry :=
  let gone := (r.paths.filter (·.2.path = path)).map (·.2.name)
  { names := r.names.filter (·.1 ∉ gone)
    paths := r.paths.filter (·.2.path ≠ path) }

end Registry

end Routing
