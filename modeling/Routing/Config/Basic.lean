import Routing.Error
import Routing.Text.Blank

/-! Configurations: a routing table as data.

A configuration has a section for the router's fallback handlers, one for logging, and the
entries of the table. Handlers are named by ids, which mean something only to whoever builds
the router. A part that is not given has its default; checking a configuration finds the
first fault in it. What a filter and a method look like is not for the table to say: whoever
checks brings the readers of both along (`Config.Checks`). -/
namespace Routing

inductive LogFormat where
  | json
  | default
  | compact
  | pretty
  deriving Repr, DecidableEq

namespace LogFormat

/-- The name a configuration gives the format by. -/
def name : LogFormat → String
  | json => "json"
  | .default => "default"
  | compact => "compact"
  | pretty => "pretty"

def all : List LogFormat := [json, .default, compact, pretty]

/-- The format with this name. -/
def ofName? (name : String) : Option LogFormat := all.find? (·.name == name)

end LogFormat

structure RouterSection where
  notFound : String
  methodNotAllowed : String
  deriving Repr, DecidableEq

structure LoggingSection where
  format : LogFormat
  filter : Option String
  deriving Repr, DecidableEq

/-- An entry of the table. -/
structure RouteEntry where
  /-- The route's name, or empty. -/
  name : String
  /-- The method, or empty for any. -/
  method : String
  path : String
  /-- The id of the handler. -/
  handler : String
  deriving Repr, DecidableEq

structure Config where
  router : RouterSection
  logging : LoggingSection
  routes : List RouteEntry
  deriving Repr, DecidableEq

/-! ### Defaults -/

def RouterSection.initial : RouterSection := ⟨"not_found", "method_not_allowed"⟩

def LoggingSection.initial : LoggingSection := ⟨.default, none⟩

def Config.initial : Config := ⟨.initial, .initial, []⟩

/-! ### Checks -/

/-- How a configuration's logging filter and its methods are read. -/
structure Config.Checks where
  /-- Why a logging filter is refused, in words, if it is. -/
  filterFault? : String → Option String
  /-- Whether a text is the name of a method. -/
  isMethod : String → Bool

/-- Both ids have to name something. -/
def RouterSection.validate (s : RouterSection) : Except Error Unit :=
  if Text.isBlankText s.notFound then .error .blankNotFound
  else if Text.isBlankText s.methodNotAllowed then .error .blankMethodNotAllowed
  else .ok ()

/-- The filter, if there is one, has to be well-formed. -/
def LoggingSection.validate (checks : Config.Checks) (s : LoggingSection) : Except Error Unit :=
  match s.filter with
  | none => .ok ()
  | some filter =>
    match checks.filterFault? filter with
    | some reason => .error (.invalidFilter filter reason)
    | none => .ok ()

/-- The handler's id has to name something; the method, if there is one, has to be one. -/
def RouteEntry.validate (checks : Config.Checks) (e : RouteEntry) : Except Error Unit :=
  if Text.isBlankText e.handler then .error (.routeWithoutHandler e.path)
  else if e.method ≠ "" && !checks.isMethod e.method then
    .error (.invalidMethod e.path e.method)
  else .ok ()

/-- The first fault of the sections and of the entries in order. Whether entries agree with
each other is found out when the router is built. -/
def Config.validate (checks : Checks) (c : Config) : Except Error Unit := do
  c.router.validate
  c.logging.validate checks
  c.routes.forM (·.validate checks)

/-! ### Changes -/

namespace Config

def withNotFound (c : Config) (handler : String) : Config :=
  { c with router := { c.router with notFound := handler } }

def withMethodNotAllowed (c : Config) (handler : String) : Config :=
  { c with router := { c.router with methodNotAllowed := handler } }

def withLogFormat (c : Config) (format : LogFormat) : Config :=
  { c with logging := { c.logging with format } }

def withLogFilter (c : Config) (filter : String) : Config :=
  { c with logging := { c.logging with filter := some filter } }

/-- The configuration with an entry at the end of its table. -/
def withRoute (c : Config) (entry : RouteEntry) : Config :=
  { c with routes := c.routes ++ [entry] }

end Config

end Routing
