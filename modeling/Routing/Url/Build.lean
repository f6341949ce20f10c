import Routing.Event
import Routing.Router.Basic
import Routing.Url.Expand

/-! Building URLs from the names of routes. -/
namespace Routing

/-- A URL, and the router after it was built: it keeps the draft. -/
structure BuiltUrl (H : Type) where
  url : String
  router : Router H

namespace Router
variable {H : Type}

/-- The URL of the route with this name, its placeholders filled with values in order. It
is empty when there is no such route, or when a value fails. -/
def url (r : Router H) (name : String) (values : List Url.Value) : Logged (BuiltUrl H) :=
  match r.routePath? name with
  | none => do
    Logged.emit (.unknownName name)
    return ⟨"", r⟩
  | some pattern =>
    let (draft, drafts) := r.drafts.take
    let written := Url.expand draft pattern values
    let router := { r with drafts := drafts.putBack written.text }
    if written.complete then return ⟨String.ofList written.text, router⟩
    else do
      Logged.emit (.valueFailed name)
      return ⟨"", router⟩

end Router

end Routing
