import Routing.Registry
import Routing.Trie.Arena
import Routing.Url.Drafts

/-! Routers.

A router maps a method and a path to a handler. Its routes sit in a trie, by path; the
registry knows the patterns as they were written and their names; two further handlers
answer for a path without a route and for a route without the method. -/
namespace Routing

structure Router (H : Type) where
  trie : Trie H
  registry : Registry
  notFound : H
  notAllowed : H
  /-- The most parameters that any route added so far has. -/
  maxParams : Nat
  drafts : Url.Drafts

namespace Router
variable {H : Type}

/-- A router without routes. -/
def new (notFound notAllowed : H) : Router H :=
  { trie := .empty
    registry := .empty
    notFound
    notAllowed
    maxParams := 0
    drafts := .empty }

def isEmpty (r : Router H) : Bool := r.trie.isEmpty

/-- The pattern that has this name. -/
def routePath? (r : Router H) (name : String) : Option String := r.registry.path? name

/-- The router in one line, by its sizes. -/
def summary (r : Router H) : String :=
  "Router \x7b routes: " ++ toString r.registry.paths.length ++
    ", nodes: " ++ toString r.trie.nodeCount ++
    ", max_param_count: " ++ toString r.maxParams ++ ", .. \x7d"

end Router

end Routing
