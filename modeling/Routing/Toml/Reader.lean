import Routing.Toml.Moment
import Routing.Toml.Number
import Routing.Toml.Table

/-! Reading keys and values.

A `Reader` reads the beginning of a text, or nothing. Values may stand within values, eighty
deep at most: a reader of values is made from one that goes less deep. A key has eighty parts
at most. -/
namespace Routing.Toml

/-- Reads the beginning of a text, and leaves the text behind it. -/
abbrev Reader := StateT (List Char) Option

namespace Reader

/-- The next character, which stays. -/
def peek : Reader (Option Char) := return (← get).head?

/-- The characters up to the first that is not of a kind. -/
def many (kind : Char → Bool) : Reader (List Char) :=
  modifyGet fun text => (text.takeWhile kind, text.dropWhile kind)

/-- A character that has to be there. -/
def char (c : Char) : Reader Unit := do
  match ← get with
  | [] => failure
  | d :: rest => if d = c then set rest else failure

def indent : Reader Unit := discard (many isIndent)

/-- What a function takes off the beginning of the text. -/
def ofFunction {α : Type} (read : List Char → Option (α × List Char)) : Reader α := do
  match read (← get) with
  | some (value, rest) =>
    set rest
    return value
  | none => failure

/-- A comment, if one begins here, up to the end of its line. -/
def comment : Reader Unit := do
  if (← peek) = some '#' then discard (many isPlain)

/-- Whether a line ends here, and if so its end. -/
def lineEnd : Reader Bool := do
  match afterLineEnd? (← get) with
  | some rest =>
    set rest
    return true
  | none => return false

/-- Blanks, comments and line ends; `lines` bounds how many lines there are. -/
def gap : Nat → Reader Unit
  | 0 => return ()
  | lines + 1 => do
    indent
    comment
    if ← lineEnd then gap lines

/-- All blanks, comments and line ends from here. -/
def wholeGap : Reader Unit := do gap (← get).length

/-! ### Keys -/

def isBareKeyChar (c : Char) : Bool := c.isAlphanum || c == '-' || c == '_'

/-- One part of a key: bare, or between quotes on one line. -/
def keyPart : Reader String := do
  match ← get with
  | '"' :: rest =>
    set rest
    return String.ofList (← ofFunction basicLine?)
  | '\'' :: rest =>
    set rest
    return String.ofList (← ofFunction literalLine?)
  | _ =>
    let name ← many isBareKeyChar
    if name.isEmpty then failure else return String.ofList name

/-- A key: its path and its last part. -/
structure Key where
  path : List String
  last : String

/-- All parts of the key. -/
def Key.parts (key : Key) : List String := key.path ++ [key.last]

/-- The parts of a key between dots, with the blanks around them, `parts` at most. -/
def keyParts (before : List String) : Nat → Reader Key
  | 0 => failure
  | parts + 1 => do
    indent
    let part ← keyPart
    indent
    if (← peek) = some '.' then
      char '.'
      keyParts (before ++ [part]) parts
    else return ⟨before, part⟩

/-- How deep values may stand in values, and how many parts a key may have. -/
def maxDepth : Nat := 80

def key : Reader Key := keyParts [] maxDepth

/-! ### Values -/

/-- A character of a word: all but blanks, line ends and the marks that part values from what
is around them. -/
def isWordChar (c : Char) : Bool := !"=,[]\x7b\x7d# \t\r\n".toList.contains c

/-- A character with which a word goes on behind blanks; a quote begins a text there. -/
def resumesWord (c : Char) : Bool := isWordChar c && c ≠ '.' && c ≠ '"' && c ≠ '\''

/-- A word in at most so many pieces, with the blanks between them. -/
def pieces : Nat → Reader (List Char)
  | 0 => return []
  | count + 1 => do
    let piece ← many isWordChar
    if ((← get).dropWhile isIndent).head?.any resumesWord then
      let blanks ← many isIndent
      return piece ++ blanks ++ (← pieces count)
    else return piece

/-- A word, from which a number, a moment or a truth value is made. Blanks do not end it if
more of it follows on the line, as between a date and a time. -/
def word : Reader (List Char) := do pieces (← get).length

/-- The value that a word stands for. -/
def wordValue? (word : List Char) : Option Value :=
  if word = "true".toList then some (.boolean true)
  else if word = "false".toList then some (.boolean false)
  else if isMoment word then some (.moment (String.ofList word))
  else number? word

/-- A value with no values in it. -/
def scalar : Reader Value := do
  match ← peek with
  | some '"' | some '\'' => return .text (String.ofList (← ofFunction quoted?))
  | _ =>
    match wordValue? (← word) with
    | some value => return value
    | none => failure

/-- Items up to a closing bracket, with commas between them and maybe one behind the last.
Blanks, comments and line ends may stand everywhere; `count` bounds how many items there
are. -/
def items {α : Type} (close : Char) (item : Reader α) : Nat → Reader (List α)
  | 0 => failure
  | count + 1 => do
    wholeGap
    if (← peek) = some close then
      char close
      return []
    let first ← item
    wholeGap
    if (← peek) = some ',' then
      char ','
      return first :: (← items close item count)
    char close
    return [first]

/-- Items between brackets. -/
def between {α : Type} (opening close : Char) (item : Reader α) : Reader (List α) := do
  char opening
  items close item (← get).length

/-- A key with its value; `gap` is what may stand on both sides of the `=`. -/
def entry (gap : Reader Unit) (value : Reader Value) : Reader (Key × Value) := do
  let key ← key
  gap
  char '='
  gap
  return (key, ← value)

/-- Entries put together as a table, if no two of them are at odds. -/
def inlineTable? (entries : List (Key × Value)) : Option Value := do
  let table ← entries.foldlM
    (fun (t : Table) (key, value) => t.define? key.path key.last value) Table.empty
  return .table .inline table.entries

/-- A value in which values stand at most this deep. -/
def value : Nat → Reader Value
  | 0 => scalar
  | depth + 1 => do
    match ← peek with
    | some '[' => return .array .inline (← between '[' ']' (value depth))
    | some '{' =>
      match inlineTable? (← between '{' '}' (entry wholeGap (value depth))) with
      | some table => return table
      | none => failure
    | _ => scalar

end Reader

end Routing.Toml
