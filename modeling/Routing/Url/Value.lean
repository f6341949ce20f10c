import Routing.Decimal.Shortest

/-! Values for the placeholders of a URL, and how they are written. -/
namespace Routing.Url

inductive Value where
  | text (content : String)
  | integer (n : Int)
  | boolean (b : Bool)
  | float (x : Float)
  /-- A value that fails while it is written, after this much text. -/
  | failing (written : String)
  deriving Repr

/-- What is written of a value, and whether that is all of it. -/
structure Rendering where
  text : List Char
  complete : Bool
  deriving Repr, DecidableEq

namespace Value

def render : Value → Rendering
  | .text content => ⟨content.toList, true⟩
  | integer n => ⟨(toString n).toList, true⟩
  | boolean b => ⟨(if b then "true" else "false").toList, true⟩
  | float x => ⟨(Decimal.text x).toList, true⟩
  | failing written => ⟨written.toList, false⟩

end Value

end Routing.Url
