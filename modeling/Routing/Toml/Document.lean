import Routing.Toml.Reader

/-! Documents.

A document is read line by line. A header names the table that the entries below it belong
to; above the first header they belong to the document itself. -/
namespace Routing.Toml

/-- What a line says. -/
inductive Line where
  | blank
  | entry (key : Reader.Key) (value : Value)
  | header (key : Reader.Key)
  /-- A header in double brackets. -/
  | nextHeader (key : Reader.Key)

namespace Line
open Reader

/-- A header, behind its first bracket. -/
def readHeader : Reader Line := do
  if (← peek) = some '[' then
    char '['
    let key ← key
    char ']'
    char ']'
    return .nextHeader key
  else
    let key ← key
    char ']'
    return .header key

/-- What a line says, without the blanks and the comment at its end. -/
def content : Reader Line := do
  indent
  match ← peek with
  | none | some '#' | some '\n' | some '\r' => return .blank
  | some '[' =>
    char '['
    readHeader
  | some _ =>
    let (key, value) ← Reader.entry indent (Reader.value maxDepth)
    return .entry key value

/-- A line, and whether it was ended. Values may take it over several lines of text. -/
def read : Reader (Line × Bool) := do
  let line ← content
  indent
  comment
  let ended ← lineEnd
  return (line, ended)

end Line

/-- A document in the making. -/
structure Draft where
  table : Table
  /-- The path of the table that entries belong to. -/
  header : List String

namespace Draft

def empty : Draft := ⟨.empty, []⟩

def add? (d : Draft) : Line → Option Draft
  | .blank => some d
  | .entry key value =>
    (d.table.defineUnder? d.header key.path key.last value).map ({ d with table := · })
  | .header key => (d.table.openHeader? key.path key.last).map (⟨·, key.parts⟩)
  | .nextHeader key => (d.table.openNextHeader? key.path key.last).map (⟨·, key.parts⟩)

end Draft

/-- Reads lines up to the end of the text; `count` bounds how many there are. -/
def readLines : Nat → Draft → List Char → Option Draft
  | 0, _, _ => none
  | count + 1, d, text => do
    let ((line, ended), rest) ← Line.read.run text
    let d ← d.add? line
    if ended then readLines count d rest
    else if rest.isEmpty then some d
    else none

/-- The entries of a document, if it is well-formed. A byte order mark at its beginning does
not count. -/
def parse? (text : String) : Option (List (String × Value)) :=
  let text := text.toList
  let text := if text.head? = some '\ufeff' then text.drop 1 else text
  (readLines (text.length + 1) .empty text).map (·.table.entries)

end Routing.Toml
