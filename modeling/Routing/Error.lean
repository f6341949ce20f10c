import Routing.Text.Quoted

/-! What can go wrong while a routing table is set up.

Lookups never fail; errors come from registering and removing routes and from reading a
configuration. An `Error` is a cause. Its kind, its stable code and the status an
administrator's endpoint would answer with follow from the cause, and so does the wording,
which is in `Error.message?` and nowhere else. -/
namespace Routing

inductive ErrorKind where
  /-- A route name is already bound to another pattern, or a pattern to another name. -/
  | routeConflict
  /-- A handler's id stands for no handler. -/
  | invalidHandler
  /-- A pattern is malformed. -/
  | invalidPattern
  /-- A configuration is malformed or incomplete. -/
  | configuration
  /-- A configuration file cannot be read. -/
  | io
  deriving Repr, DecidableEq

namespace ErrorKind

/-- The identifier of the kind. -/
def label : ErrorKind → String
  | routeConflict => "RouteConflict"
  | invalidHandler => "InvalidHandler"
  | invalidPattern => "InvalidPattern"
  | configuration => "Configuration"
  | io => "Io"

/-- The kind in words. -/
def text : ErrorKind → String
  | routeConflict => "route conflict"
  | invalidHandler => "invalid handler"
  | invalidPattern => "invalid pattern"
  | configuration => "configuration error"
  | io => "I/O error"

/-- The stable code, for logs and machines. -/
def code : ErrorKind → String
  | routeConflict => "ROUTE_CONFLICT"
  | invalidHandler => "INVALID_HANDLER"
  | invalidPattern => "INVALID_PATTERN"
  | configuration => "CONFIG_ERROR"
  | io => "IO_ERROR"

/-- The HTTP status. -/
def status : ErrorKind → Nat
  | routeConflict => 409
  | invalidHandler => 422
  | invalidPattern => 400
  | configuration => 500
  | io => 500

end ErrorKind

inductive Error where
  | nameBound (name bound path : String)
  | pathNamed (path current name : String)
  | unknownHandler (id : String)
  | textAfterWildcard (pattern : String)
  | blankNotFound
  | blankMethodNotAllowed
  | routeWithoutHandler (path : String)
  | invalidMethod (path method : String)
  /-- A logging filter is refused, for a reason in words. -/
  | invalidFilter (filter reason : String)
  /-- The document is malformed, or does not describe a configuration. -/
  | malformedDocument
  | variableNotSet
  | unreadableFile
  /-- A failure of the system, in its words. -/
  | system (text : String)
  /-- An error of a kind, in the caller's words. -/
  | stated (kind : ErrorKind) (text : String)
  deriving Repr, DecidableEq

namespace Error

def kind : Error → ErrorKind
  | nameBound .. | pathNamed .. => .routeConflict
  | unknownHandler _ => .invalidHandler
  | textAfterWildcard _ => .invalidPattern
  | blankNotFound | blankMethodNotAllowed | routeWithoutHandler _ | invalidMethod ..
  | invalidFilter .. | malformedDocument | variableNotSet => .configuration
  | unreadableFile | system _ => .io
  | stated kind _ => kind

/-- The wording. A malformed document and an unreadable file have none of their own. -/
def message? : Error → Option String
  | nameBound name bound path =>
    s!"route name `{name}` is already bound to `{bound}`, cannot bind it to `{path}`"
  | pathNamed path current name =>
    s!"path `{path}` is already registered as `{current}`, cannot register it as `{name}`"
  | unknownHandler id => s!"unknown handler `{id}`"
  | textAfterWildcard pattern => s!"nothing may follow the wildcard in `{pattern}`"
  | blankNotFound => "[router] not_found must name a handler"
  | blankMethodNotAllowed => "[router] method_not_allowed must name a handler"
  | routeWithoutHandler path => s!"route `{path}` has no handler"
  | invalidMethod path method => s!"route `{path}` has an invalid method `{method}`"
  | invalidFilter filter reason => s!"invalid logging filter `{filter}`: {reason}"
  | malformedDocument => none
  | variableNotSet => "environment variable not found"
  | unreadableFile => none
  | system text => text
  | stated _ text => text

/-- What the error came from, as one line of a log names it. -/
def origin? : Error → Option String
  | variableNotSet => "NotPresent"
  | system text =>
    some ("Custom \x7b kind: Other, error: " ++ Text.quoted text ++ " \x7d")
  | error => error.message?.map Text.quoted

/-- The error as one line of a log. -/
def summary? (error : Error) : Option String :=
  error.origin?.map fun origin =>
    "Error \x7b kind: " ++ error.kind.label ++ ", source: " ++ origin ++ " \x7d"

end Error

end Routing
