/-! Dates and times as a document writes them.

A moment is a date, a time, or both with `T` or a space between them, and then maybe an
offset from universal time. Seconds may be left out. -/
namespace Routing.Toml

/-- The number that the next `count` digits stand for. -/
def digits? (count : Nat) (text : List Char) : Option (Nat × List Char) :=
  let digits := text.take count
  if digits.length = count && digits.all Char.isDigit then
    some (digits.foldl (fun n c => 10 * n + (c.toNat - '0'.toNat)) 0, text.drop count)
  else none

/-- The text behind a character, where it begins with it. -/
def behind? (c : Char) : List Char → Option (List Char)
  | [] => none
  | d :: rest => if d = c then some rest else none

def isLeapYear (year : Nat) : Bool := year % 4 == 0 && (year % 100 ≠ 0 || year % 400 == 0)

/-- How many days a month has; none if there is no such month. -/
def daysIn (year month : Nat) : Nat :=
  match month with
  | 1 | 3 | 5 | 7 | 8 | 10 | 12 => 31
  | 4 | 6 | 9 | 11 => 30
  | 2 => if isLeapYear year then 29 else 28
  | _ => 0

/-- The text behind a date. -/
def afterDate? (text : List Char) : Option (List Char) := do
  let (year, text) ← digits? 4 text
  let (month, text) ← digits? 2 (← behind? '-' text)
  let (day, text) ← digits? 2 (← behind? '-' text)
  if 1 ≤ day ∧ day ≤ daysIn year month then some text else none

/-- The text behind the seconds and their fraction, where they are given. A minute may have
a leap second. -/
def afterSeconds? (text : List Char) : Option (List Char) :=
  match text with
  | ':' :: rest => do
    let (second, rest) ← digits? 2 rest
    if 60 < second then none
    else
      match rest with
      | '.' :: fraction =>
        if fraction.head?.any Char.isDigit then some (fraction.dropWhile Char.isDigit) else none
      | rest => some rest
  | text => some text

/-- The text behind an hour and a minute. -/
def afterHourMinute? (text : List Char) : Option (List Char) := do
  let (hour, text) ← digits? 2 text
  let (minute, text) ← digits? 2 (← behind? ':' text)
  if hour ≤ 23 ∧ minute ≤ 59 then some text else none

def afterTime? (text : List Char) : Option (List Char) := afterHourMinute? text >>= afterSeconds?

/-- Whether a text is an offset, or empty. -/
def isOffset (text : List Char) : Bool :=
  match text with
  | [] | ['Z'] | ['z'] => true
  | '+' :: rest | '-' :: rest => afterHourMinute? rest == some []
  | _ => false

def isMoment (text : List Char) : Bool :=
  match afterDate? text with
  | some [] => true
  | some (mark :: time) =>
    (mark == 'T' || mark == 't' || mark == ' ') && (afterTime? time).any isOffset
  | none => afterTime? text == some []

end Routing.Toml
