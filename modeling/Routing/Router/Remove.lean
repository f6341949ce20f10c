import Routing.Event
import Routing.Router.Basic
import Routing.Trie.Locate
import Routing.Trie.Prune
import Routing.Trie.Search

/-! Removing routes.

The route to remove is given by its pattern, by a path that it serves, or by its name. One
method of it goes, or all of it; a route goes with its last method. The trie and the
registry are then as if the route had never been there. -/
namespace Routing.Router
variable {H : Type}

/-- The text that says which route is meant: the path, or without one the pattern that has
the name. -/
def target? (r : Router H) (name path : String) : Option String :=
  if path = "" then r.routePath? name else some path

/-- A node, if a route ends there. -/
def ifRoute? (t : Trie H) (slot : Trie.Slot) : Option (Option Trie.Slot) := do
  return if (← t.node? slot).hasRoute then some slot else none

/-- The node whose route serves a path. -/
def serving? (t : Trie H) (path : List Char) : Option (Option Trie.Slot) := do
  match ← t.search? path 0 with
  | (none, _) => return none
  | (some slot, _) =>
    match ← ifRoute? t slot with
    | some slot => return some slot
    | none => return (← (← t.childOfKind? slot .wildcard).mapM (ifRoute? t)).join

/-- The node of the route that a pattern means: the one at its path, or else the one that
serves its text as a path. -/
def meant? (r : Router H) (pattern : Pattern) : Option (Option Trie.Slot) := do
  match (← (← r.trie.at? pattern.path).mapM (ifRoute? r.trie)).join with
  | some slot => return some slot
  | none => serving? r.trie pattern.text.toList

/-- The router without the route of a node, and without the patterns and names of it. -/
def withoutRoute? (r : Router H) (slot : Trie.Slot) : Option (Router H) := do
  let path ← r.trie.pathOf? slot
  let trie ← r.trie.change? slot fun n => { n with toContent := n.toContent.withoutRoute }
  return { r with trie := ← trie.prune? slot, registry := r.registry.dropPath path }

/-- The router with other handlers for the route of a node. -/
def withMethods? (r : Router H) (slot : Trie.Slot) (methods : Methods H) : Option (Router H) := do
  return { r with trie := ← r.trie.change? slot fun n => { n with methods } }

/-- Removes one method of a node's route, or with the empty method the route, and tells
which. -/
def removeFrom? (r : Router H) (slot : Trie.Slot) (pattern method : String) :
    Option (Router H × Event) := do
  if method = "" then return (← r.withoutRoute? slot, .removed pattern method)
  match (← r.trie.node? slot).methods.erase? method with
  | none => return (r, .methodNotRegistered pattern method)
  | some methods =>
    if methods.isEmpty then return (← r.withoutRoute? slot, .removed pattern method)
    return (← r.withMethods? slot methods, .methodRemoved pattern method)

/-- Removes a route or one of its methods; the empty method stands for all of them. A
pattern that is malformed is refused; where there is nothing to remove, nothing happens. -/
def remove (r : Router H) (name method path : String) : Logged (Except Error Unit × Router H) :=
  match r.target? name path with
  | none => do
    Logged.emit (.nameNotRegistered name)
    return (.ok (), r)
  | some text =>
    match Pattern.parse text with
    | .error e => return (.error e, r)
    | .ok pattern =>
      match (r.meant? pattern).getD none with
      | none => do
        Logged.emit (.nothingToRemove pattern.text)
        return (.ok (), r)
      | some slot =>
        match r.removeFrom? slot pattern.text method with
        | none => return (.ok (), r)
        | some (left, event) => do
          Logged.emit event
          return (.ok (), left)

end Routing.Router
