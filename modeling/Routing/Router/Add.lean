import Routing.Event
import Routing.Router.Basic
import Routing.Trie.Insert

/-! Adding routes. -/
namespace Routing.Router
variable {H : Type}

/-- The router with a route added, once its pattern and its name have been found good. -/
def enter (r : Router H) (name method : String) (pattern : Pattern) (handler : H) :
    Router H :=
  let registration := ⟨method, handler, name, pattern.text, pattern.params⟩
  { r with
    trie := (r.trie.plant? pattern registration).getD r.trie
    registry := r.registry.record name pattern
    maxParams := max r.maxParams pattern.params.length }

/-- Adds a route: a handler for a method on a pattern. It gives the number of the pattern's
parameters. The empty method stands for every method without a handler of its own, the empty
name for none. The same pattern again adds a method, or replaces its handler. A malformed
pattern is refused, and so is a name that has another pattern or a pattern that has another
name. -/
def add (r : Router H) (name method path : String) (handler : H) :
    Logged (Except Error Nat × Router H) :=
  match Pattern.parse path with
  | .error e => return (.error e, r)
  | .ok pattern =>
    match r.registry.accept name pattern with
    | .error e => return (.error e, r)
    | .ok () => do
      let params := pattern.params.length
      Logged.emit (.registered name method pattern.text params)
      return (.ok params, r.enter name method pattern handler)

end Routing.Router
