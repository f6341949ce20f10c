import Routing.Toml.Quote
import Routing.Toml.Value

/-! Numbers as a document writes them.

Between two digits one underscore may stand. A decimal number does not begin with a zero,
unless that is all it is. To be read, a whole number has to fit into 128 bits, with a sign or
without, and a number with a fraction or an exponent must not be beyond what floating point
can hold. -/
namespace Routing.Toml

/-- Digits and underscores: a digit at each end, and no two underscores in a row. -/
def isDigitRun (isDigit : Char → Bool) : List Char → Bool
  | [] => false
  | [c] => isDigit c
  | c :: '_' :: rest => isDigit c && isDigitRun isDigit rest
  | c :: rest => isDigit c && isDigitRun isDigit rest

/-- The number that a run of digits stands for. -/
def runValue (base : Nat) (run : List Char) : Nat := ofDigits base (run.filter (· ≠ '_'))

/-- A whole decimal number without its sign. -/
def isWhole (text : List Char) : Bool :=
  isDigitRun Char.isDigit text && (text.head? ≠ some '0' || text.length == 1)

def isRunChar (c : Char) : Bool := c.isDigit || c == '_'

/-- A number's sign, and what follows it. -/
def splitSign : List Char → Option Char × List Char
  | '+' :: rest => (some '+', rest)
  | '-' :: rest => (some '-', rest)
  | text => (none, text)

def fits (n : Int) : Bool := -(Int.pow 2 127) ≤ n && n < Int.pow 2 128

/-- The whole number `n`, which `text` writes. -/
def integerValue (text : List Char) (n : Int) : Value :=
  if fits n then .integer n else .unreadable (String.ofList text)

/-- A number in another base; `digits` follow the mark of the base in `text`. -/
def based? (base : Nat) (isDigit : Char → Bool) (text digits : List Char) : Option Value :=
  if digits.isEmpty then some (.unreadable (String.ofList text))
  else if isDigitRun isDigit digits then some (integerValue text (runValue base digits))
  else none

/-- Whether every underscore stands between two digits; letters count as digits where a
hexadecimal number may have them. -/
def isGrouped : List Char → Bool
  | [] => true
  | ['_'] => false
  | a :: '_' :: b :: rest => isHexDigit a && isHexDigit b && isGrouped (b :: rest)
  | _ :: rest => isGrouped rest

/-- What passes for a whole decimal number, its sign apart, because an underscore follows the
first digits, although not all that follows is digits. -/
def isGarbled (text : List Char) : Bool :=
  text.head?.any (fun c => c.isDigit && c ≠ '0') &&
    (text.dropWhile Char.isDigit).head? = some '_' &&
    !text.any (".eE ".toList.contains ·) && isGrouped text

/-- A decimal number with a fraction or an exponent, in parts. -/
structure FloatParts where
  whole : List Char
  /-- The digits of the fraction, if there is one. -/
  fraction : Option (List Char)
  /-- The sign and the digits of the exponent, if there is one. -/
  exponent : Option (Option Char × List Char)

/-- The parts that a text without its sign consists of; they need not be well-formed. -/
def FloatParts.split? (text : List Char) : Option FloatParts :=
  let whole := text.takeWhile isRunChar
  let fractionAndMore := fun text : List Char =>
    match text with
    | '.' :: rest => (some (rest.takeWhile isRunChar), rest.dropWhile isRunChar)
    | text => (none, text)
  let (fraction, rest) := fractionAndMore (text.dropWhile isRunChar)
  match rest with
  | [] => some ⟨whole, fraction, none⟩
  | 'e' :: rest | 'E' :: rest => some ⟨whole, fraction, some (splitSign rest)⟩
  | _ => none

def FloatParts.isWellFormed (p : FloatParts) : Bool :=
  isWhole p.whole && p.fraction.all (isDigitRun Char.isDigit) &&
    p.exponent.all fun (_, digits) => isDigitRun Char.isDigit digits

/-- The least magnitude that rounds beyond the largest floating-point number. -/
def floatLimit : Nat := Nat.pow 2 1024 - Nat.pow 2 970

/-- Whether the number is beyond what floating point can hold. Its digits and its exponent
are weighed first, so that no huge power is written out. -/
def FloatParts.overflows (p : FloatParts) : Bool :=
  let fraction := p.fraction.getD []
  let digits := runValue 10 (p.whole ++ fraction)
  let shift : Int := (fraction.filter (· ≠ '_')).length
  let exponent : Int :=
    match p.exponent with
    | none => 0
    | some (sign, run) => if sign = some '-' then -runValue 10 run else runValue 10 run
  let power := exponent - shift
  if digits = 0 then false
  else
    let magnitude := ((Nat.toDigits 10 digits).length : Int) + power
    if magnitude ≤ 308 then false
    else if 310 ≤ magnitude then true
    else floatLimit * Nat.pow 10 (-power).toNat ≤ digits * Nat.pow 10 power.toNat

/-- The decimal number that is written by a text. -/
def decimal? (text : List Char) : Option Value :=
  let (sign, body) := splitSign text
  let written := String.ofList text
  if body = ['i', 'n', 'f'] ∨ body = ['n', 'a', 'n'] then some (.float written)
  else if isWhole body then
    let n : Int := runValue 10 body
    some (integerValue text (if sign = some '-' then -n else n))
  else if isGarbled body then some (.unreadable written)
  else do
    let parts ← FloatParts.split? body
    if parts.isWellFormed then
      some (if parts.overflows then .unreadable written else .float written)
    else none

/-- The number that is written by a text, if it is one. Bases other than ten take no sign. -/
def number? (text : List Char) : Option Value :=
  match text with
  | '0' :: 'x' :: digits => based? 16 isHexDigit text digits
  | '0' :: 'o' :: digits => based? 8 (fun c => '0' ≤ c && c ≤ '7') text digits
  | '0' :: 'b' :: digits => based? 2 (fun c => c == '0' || c == '1') text digits
  | _ => decimal? text

end Routing.Toml
