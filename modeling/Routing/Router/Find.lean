import Routing.Params
import Routing.Router.Basic

/-! Looking routes up.

A lookup never fails: a path without a route gives the router's handler for that case, and
a route without the method the one for this. Both come without parameters. -/
namespace Routing

/-- What a lookup gives. -/
structure Found (H : Type) where
  handler : H
  /-- How many parameters the path has under the route found. -/
  count : Nat
  params : Params
  deriving Repr, DecidableEq

namespace Router
variable {H : Type}

/-- The answer for a node that a path leads to. A path may end right before a wildcard, and
the wildcard's route then stands in for a method that the node itself does not serve; it
captures the empty text. -/
def answerAt? (r : Router H) (slot : Trie.Slot) (method : String) (params : Params) :
    Option (Found H) := do
  let node ← r.trie.node? slot
  match node.methods.find? method with
  | some handler => return ⟨handler, params.size, { params with names := node.params }⟩
  | none =>
    let wildcard ← (← r.trie.childOfKind? slot .wildcard).mapM r.trie.node?
    match wildcard.bind fun w => (w.methods.find? method).map (w, ·) with
    | some (w, handler) =>
      let params := params.push []
      return ⟨handler, params.size, { params with names := w.params }⟩
    | none =>
      let handler :=
        if node.hasRoute || wildcard.any (·.hasRoute) then r.notAllowed else r.notFound
      return ⟨handler, 0, params.clear⟩

/-- What `find` looks up. -/
def find? (r : Router H) (method path : String) (params : Params) : Option (Found H) := do
  let path := if path = "" then ['/'] else path.toList
  match ← r.trie.search? path params.clear with
  | (none, params) => return ⟨r.notFound, 0, params⟩
  | (some slot, params) => r.answerAt? slot method params

/-- Looks a method and a path up. What `params` held before is dropped. The empty path
counts as `/`. -/
def find (r : Router H) (method path : String) (params : Params) : Found H :=
  (r.find? method path params).getD ⟨r.notFound, 0, params.clear⟩

end Router

end Routing
