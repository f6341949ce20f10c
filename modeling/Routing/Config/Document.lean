import Routing.Config.Basic
import Routing.Toml.Value

/-! Configurations read from documents.

A section is a table, or an array of its fields in order. A field that is missing has its
default if it has one; fields that mean nothing here are passed over, but if they have a name
their values are read. A date in a section's place is a section without fields. -/
namespace Routing.Config
open Toml (Value)

/-- Fields of a section, by name or by place. -/
inductive Fields where
  | named (entries : List (String × Value))
  | placed (items : List Value)

namespace Fields

def ofValue? : Value → Option Fields
  | .table _ entries => if Value.hasReadable entries then some (.named entries) else none
  | .array _ items => some (.placed items)
  | .moment _ => some (.named [])
  | _ => none

/-- The value of a field, by its name and its place. -/
def get? (f : Fields) (name : String) (place : Nat) : Option Value :=
  match f with
  | named entries => entries.lookup name
  | placed items => items[place]?

end Fields

def text? : Value → Option String
  | .text content => some content
  | _ => none

/-- A text in a field that may be missing. -/
def textOr? (missing : String) : Option Value → Option String
  | none => some missing
  | some value => text? value

/-- A format by its name; a table with the name as its one key, and nothing under it, will
do as well. -/
def format? : Value → Option LogFormat
  | .text name => LogFormat.ofName? name
  | .table _ [(name, .table _ [])] | .table _ [(name, .array _ [])] => LogFormat.ofName? name
  | _ => none

def routerSection? (value : Value) : Option RouterSection := do
  let fields ← Fields.ofValue? value
  let notFound ← textOr? RouterSection.initial.notFound (fields.get? "not_found" 0)
  let methodNotAllowed ←
    textOr? RouterSection.initial.methodNotAllowed (fields.get? "method_not_allowed" 1)
  return { notFound, methodNotAllowed }

def loggingSection? (value : Value) : Option LoggingSection := do
  let fields ← Fields.ofValue? value
  let format ←
    match fields.get? "format" 0 with
    | none => some LoggingSection.initial.format
    | some value => format? value
  let filter ←
    match fields.get? "filter" 1 with
    | none => some none
    | some value => (text? value).map some
  return { format, filter }

def routeEntry? (value : Value) : Option RouteEntry := do
  let fields ← Fields.ofValue? value
  let name ← textOr? "" (fields.get? "name" 0)
  let method ← textOr? "" (fields.get? "method" 1)
  let path ← text? (← fields.get? "path" 2)
  let handler ← text? (← fields.get? "handler" 3)
  return { name, method, path, handler }

def routeTable? : Value → Option (List RouteEntry)
  | .array _ items => items.mapM routeEntry?
  | _ => none

/-- What a document may say of a configuration. -/
def sectionNames : List String := ["router", "logging", "routes"]

/-- The configuration that a document describes. -/
def ofDocument? (entries : List (String × Value)) : Option Config := do
  guard (Value.hasReadable (entries.filter fun (name, _) => !sectionNames.contains name))
  let router ← ((entries.lookup "router").map routerSection?).getD (some .initial)
  let logging ← ((entries.lookup "logging").map loggingSection?).getD (some .initial)
  let routes ← ((entries.lookup "routes").map routeTable?).getD (some [])
  return { router, logging, routes }

end Routing.Config
