import Routing.Config.Basic
import Routing.Router.Add

/-! Building routers from configurations. -/
namespace Routing.Router
variable {H : Type}

/-- The handler that an id stands for. -/
def handlerOf (resolve : String → Option H) (id : String) : Except Error H :=
  match resolve id with
  | some handler => .ok handler
  | none => .error (.unknownHandler id)

/-- Adds the entries of a table in order, up to the first that fails. -/
def addEntries (resolve : String → Option H) :
    Router H → List RouteEntry → Logged (Except Error (Router H))
  | r, [] => return .ok r
  | r, e :: rest =>
    match handlerOf resolve e.handler with
    | .error e => return .error e
    | .ok handler => do
      match ← r.add e.name e.method e.path handler with
      | (.error e, _) => return .error e
      | (.ok _, r) => addEntries resolve r rest

/-- The fallback handlers of a section. -/
def fallbacks (resolve : String → Option H) (s : RouterSection) : Except Error (Router H) := do
  return new (← handlerOf resolve s.notFound) (← handlerOf resolve s.methodNotAllowed)

/-- The router of a configuration. The configuration is checked first; then every id has to
stand for a handler and every entry has to agree with those before it. -/
def ofConfig (checks : Config.Checks) (c : Config) (resolve : String → Option H) :
    Logged (Except Error (Router H)) :=
  match c.validate checks >>= fun () => fallbacks resolve c.router with
  | .error e => return .error e
  | .ok r => do
    match ← addEntries resolve r c.routes with
    | .error e => return .error e
    | .ok r =>
      Logged.emit (.configured c.routes.length r.trie.nodeCount)
      return .ok r

end Routing.Router
