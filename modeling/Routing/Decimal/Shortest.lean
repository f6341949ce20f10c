/-! Floating-point numbers as the shortest decimal that reads back as the same number.

A finite number other than zero is `mantissa * 2 ^ exponent`, and the reals that read back
as it form an interval around it: half the way to the number above and half the way to the
number below, the ends included when the mantissa is even. Among the decimals in the
interval the one with the fewest digits is taken, of two with as few the closer, and of two
as close the upper. All of it is exact arithmetic on naturals. The digits are then written
out in full, without an exponent. -/
namespace Routing.Decimal

/-- A finite number: its magnitude is `mantissa * 2 ^ exponent`. -/
structure Binary where
  negative : Bool
  mantissa : Nat
  exponent : Int
  /-- The number below is half as far away as the number above. -/
  narrowBelow : Bool
  deriving Repr, DecidableEq

/-- The sign, exponent and fraction of a number's 64 bits; the number is finite. -/
def Binary.ofBits (bits : UInt64) : Binary :=
  let field := ((bits >>> 52) &&& 0x7FF).toNat
  let fraction := (bits &&& 0xFFFFFFFFFFFFF).toNat
  let negative := bits >>> 63 == 1
  if field = 0 then ⟨negative, fraction, -1074, false⟩
  else ⟨negative, Nat.pow 2 52 + fraction, (field : Int) - 1075, fraction == 0 && field > 1⟩

/-- `digits * 10 ^ exponent`. -/
structure Numeral where
  digits : Nat
  exponent : Int
  deriving Repr, DecidableEq

/-- How many places behind the point suffice to tell the magnitudes of all numbers. -/
def places : Nat := 400

/-- The interval that reads back as a number, in units so small that its ends, the number
and every grid of decimals in question are whole. -/
structure Interval where
  low : Nat
  value : Nat
  high : Nat
  /-- Whether the ends belong to it. -/
  closed : Bool
  /-- How many units make one. -/
  one : Nat
  deriving Repr, DecidableEq

def Binary.interval (x : Binary) : Interval :=
  let quarter := x.exponent - 2
  let scale := Nat.pow 2 quarter.toNat * Nat.pow 10 places
  { low := (4 * x.mantissa - (if x.narrowBelow then 1 else 2)) * scale
    value := 4 * x.mantissa * scale
    high := (4 * x.mantissa + 2) * scale
    closed := x.mantissa % 2 == 0
    one := Nat.pow 2 (-quarter).toNat * Nat.pow 10 places }

namespace Interval

def contains (r : Interval) (n : Nat) : Bool :=
  if r.closed then r.low ≤ n && n ≤ r.high else r.low < n && n < r.high

/-- How many digits stand in front of the point when the number is written out; negative
when zeros follow the point. -/
def magnitude (r : Interval) : Int :=
  ((Nat.toDigits 10 (r.value * Nat.pow 10 places / r.one)).length : Int) - places

/-- The decimal with this many digits, if one of the two around the number reads back. -/
def withDigits? (r : Interval) (count : Nat) : Option Numeral :=
  let exponent := r.magnitude - count
  let grid := r.one * Nat.pow 10 exponent.toNat / Nat.pow 10 (-exponent).toNat
  let below := r.value / grid
  let above := below + 1
  let nearerBelow := r.value - below * grid < above * grid - r.value
  match r.contains (below * grid), r.contains (above * grid) with
  | true, true => some ⟨if nearerBelow then below else above, exponent⟩
  | true, false => some ⟨below, exponent⟩
  | false, true => some ⟨above, exponent⟩
  | false, false => none

end Interval

/-- The number itself, as a decimal. -/
def Binary.exact (x : Binary) : Numeral :=
  ⟨x.mantissa * Nat.pow 2 x.exponent.toNat * Nat.pow 5 (-x.exponent).toNat, min x.exponent 0⟩

/-- The fewest digits that read back; seventeen always suffice. -/
def Binary.shortest (x : Binary) : Numeral :=
  ((List.range' 1 17).findSome? x.interval.withDigits?).getD x.exact

/-- A numeral written out, without zeros at the end of its fraction. -/
def Numeral.text (n : Numeral) : String :=
  let written := Nat.toDigits 10 n.digits
  let behind := (-n.exponent).toNat
  let padded := List.replicate (behind + 1 - written.length) '0' ++ written ++
    List.replicate n.exponent.toNat '0'
  let fraction := (padded.drop (padded.length - behind)).reverse.dropWhile (· == '0')
  let whole := padded.take (padded.length - behind)
  String.ofList (if fraction.isEmpty then whole else whole ++ '.' :: fraction.reverse)

/-- A floating-point number in full. Zero keeps its sign. -/
def text (x : Float) : String :=
  if x.isNaN then "NaN"
  else
    let binary := Binary.ofBits x.toBits
    let sign := if binary.negative then "-" else ""
    if x.isInf then sign ++ "inf"
    else if binary.mantissa = 0 then sign ++ "0"
    else sign ++ binary.shortest.text

end Routing.Decimal
