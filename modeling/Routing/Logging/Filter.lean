import Routing.Text.Alphanumeric
import Routing.Text.Blank

/-! Logging filters: directives separated by commas.

A directive is a level, a target, or a target and a level with `=` between them. Empty
directives are passed over. What follows the first `=` of a directive has to be a level or
nothing; a directive without `=` that names no level names a target, so nothing is wrong
with it as long as its first character may begin one.

Directives that name a span, or fields of one, in brackets are not read here.

White space in front of a directive does no harm if there is no `=`; if there is one, its level
is not found any more. White space behind belongs to the target or the level. -/
namespace Routing.Logging

/-- Why a filter is refused. -/
inductive FilterFault where
  /-- A directive begins with a character that begins no target. -/
  | directive
  /-- What follows the `=` is no level. -/
  | level
  deriving Repr, DecidableEq

def FilterFault.message : FilterFault → String
  | directive => "invalid filter directive"
  | level =>
    "error parsing level filter: expected one of \"off\", \"error\", \"warn\", \"info\", " ++
      "\"debug\", \"trace\", or a number 0-5"

namespace Filter

/-- The pieces of a text between separators; one more than there are separators. -/
def pieces (separator : Char) : List Char → List (List Char)
  | [] => [[]]
  | c :: rest =>
    if c = separator then [] :: pieces separator rest
    else
      match pieces separator rest with
      | [] => [[c]]
      | piece :: others => (c :: piece) :: others

def levelNames : List String := ["off", "error", "warn", "info", "debug", "trace"]

/-- The number a text of decimal digits stands for, a `+` in front allowed. -/
def number? (text : List Char) : Option Nat :=
  let digits := if text.head? = some '+' then text.drop 1 else text
  if digits.isEmpty || !digits.all Char.isDigit then none
  else some (digits.foldl (fun n c => 10 * n + (c.toNat - 48)) 0)

/-- A level: a name in any case, or its number. -/
def isLevel (text : List Char) : Bool :=
  levelNames.any (fun name => name.toList == text.map Char.toLower) ||
    (number? text).any (· ≤ 5)

def mayBegin (c : Char) : Bool :=
  c == '-' || c == ':' || c == '_' || Text.isAlphanumeric c

/-- What is wrong with one directive that is not empty. -/
def fault? (directive : List Char) : Option FilterFault :=
  let text := directive.dropWhile Text.isBlank
  if !text.head?.any mayBegin then some .directive
  else
    match text.dropWhile (· ≠ '=') with
    | [] => none
    | _ :: level =>
      if text.length = directive.length && (level.isEmpty || isLevel level) then none
      else some .level

end Filter

/-- What is wrong with a filter: the fault of its first bad directive. -/
def filterFault? (filter : String) : Option FilterFault :=
  ((Filter.pieces ',' filter.toList).filter (!·.isEmpty)).findSome? Filter.fault?

end Routing.Logging
