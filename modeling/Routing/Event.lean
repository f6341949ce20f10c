/-! What a routing table reports while it works.

An operation that reports returns its value together with the events, in order
(`Logged`). An event is a cause, and its level, wording and fields follow from it. -/
namespace Routing

inductive Level where
  | debug
  | info
  | warn
  deriving Repr, DecidableEq

def Level.label : Level → String
  | debug => "DEBUG"
  | info => "INFO"
  | warn => "WARN"

/-- The value of an event's field. -/
inductive FieldValue where
  | text (text : String)
  | count (n : Nat)
  deriving Repr, DecidableEq

inductive Event where
  | registered (name method path : String) (params : Nat)
  | nameNotRegistered (name : String)
  | nothingToRemove (path : String)
  | methodNotRegistered (path method : String)
  | methodRemoved (path method : String)
  | removed (path method : String)
  | unknownName (name : String)
  | valueFailed (name : String)
  | configured (routes nodes : Nat)
  | lockRecovered
  deriving Repr, DecidableEq

namespace Event

def level : Event → Level
  | registered .. | nameNotRegistered _ | nothingToRemove _ | methodNotRegistered ..
  | methodRemoved .. | removed .. => .debug
  | configured .. => .info
  | unknownName _ | valueFailed _ | lockRecovered => .warn

def message : Event → String
  | registered .. => "Route registered"
  | nameNotRegistered _ => "No route registered under this name"
  | nothingToRemove _ => "No route to remove"
  | methodNotRegistered .. => "Method not registered on route"
  | methodRemoved .. => "Route method removed"
  | removed .. => "Route removed"
  | unknownName _ => "URL requested for an unknown route name"
  | valueFailed _ => "URL parameter failed to format"
  | configured .. => "Router built from configuration"
  | lockRecovered => "Router lock poisoned by a panicking thread, recovering"

def fields : Event → List (String × FieldValue)
  | registered name method path params =>
    [("name", .text name), ("method", .text method), ("path", .text path),
     ("params", .count params)]
  | nameNotRegistered name | unknownName name | valueFailed name => [("name", .text name)]
  | nothingToRemove path => [("path", .text path)]
  | methodNotRegistered path method | methodRemoved path method | removed path method =>
    [("path", .text path), ("method", .text method)]
  | configured routes nodes => [("routes", .count routes), ("nodes", .count nodes)]
  | lockRecovered => []

end Event

/-- A value and what was reported on the way to it. -/
structure Logged (α : Type) where
  value : α
  events : List Event
  deriving Repr, DecidableEq

namespace Logged

instance : Monad Logged where
  pure value := ⟨value, []⟩
  bind first next :=
    let second := next first.value
    ⟨second.value, first.events ++ second.events⟩

def emit (event : Event) : Logged Unit := ⟨(), [event]⟩

end Logged

end Routing
