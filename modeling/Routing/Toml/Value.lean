/-! What a TOML document says.

A table remembers how it was written, because that decides what may be added to it further
down in the document (`Toml.Table`); what it says does not depend on it. -/
namespace Routing.Toml

/-- How a table came about. -/
inductive TableForm where
  /-- Between braces; it is complete. -/
  | inline
  /-- Under a header of its own, or as the document itself. -/
  | headed
  /-- On the way to the table of a header. -/
  | implied
  /-- On the way to a dotted key. -/
  | dotted
  deriving Repr, DecidableEq

/-- How an array came about. -/
inductive ArrayForm where
  /-- Between brackets; it is complete. -/
  | inline
  /-- By headers in double brackets, one for each of its tables. -/
  | headed
  deriving Repr, DecidableEq

inductive Value where
  | text (content : String)
  | boolean (b : Bool)
  | integer (n : Int)
  /-- A number with a fraction or an exponent, or one that is not finite, as written. -/
  | float (written : String)
  /-- A date, a time or both, as written. -/
  | moment (written : String)
  /-- What is written like a number but stands for none that can be held: it is too large, has
  no digits, or is garbled behind an underscore. It is a fault only where something reads it. -/
  | unreadable (written : String)
  | array (form : ArrayForm) (items : List Value)
  | table (form : TableForm) (entries : List (String × Value))
  deriving Repr

namespace Value

mutual

/-- Whether a value and all values in it can be read. -/
def isReadable : Value → Bool
  | .unreadable _ => false
  | .array _ items => areReadable items
  | .table _ entries => hasReadable entries
  | _ => true

def areReadable : List Value → Bool
  | [] => true
  | item :: rest => item.isReadable && areReadable rest

/-- Whether the values of all entries can be read. -/
def hasReadable : List (String × Value) → Bool
  | [] => true
  | (_, value) :: rest => value.isReadable && hasReadable rest

end

end Value

end Routing.Toml
