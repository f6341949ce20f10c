import Routing.Router.Basic
import Routing.Trie.Walk

/-! What a router holds. -/
namespace Routing

/-- A route's method, as a listing shows it. -/
structure Listed where
  name : String
  /-- The method, or empty for any. -/
  method : String
  pattern : String
  deriving Repr, DecidableEq

namespace Router
variable {H : Type}

def listNode (node : Trie.Content H) : List Listed :=
  node.methods.names.map fun method => ⟨node.name, method, node.pattern⟩

def list? (r : Router H) : Option (List Listed) := do
  let nodes ← (← r.trie.walk?).mapM r.trie.node?
  return nodes.flatMap fun n => listNode n.toContent

/-- Every method of every route, in the order of the trie. -/
def list (r : Router H) : List Listed := r.list?.getD []

/-- The trie as text, a line a node; it fails where a line would have to be indented too far. -/
def outline? (r : Router H) : Option String := r.trie.outline?

end Router

end Routing
