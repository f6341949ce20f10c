/-! Texts between quotes.

Double quotes allow escapes, single quotes take every character as it is; three of either
begin a text that may run over several lines. -/
namespace Routing.Toml

/-- A character that may stand in a line of text as it is: no control character but the
tab. -/
def isPlain (c : Char) : Bool := c == '\t' || (0x20 ≤ c.toNat && c.toNat ≠ 0x7F)

def isIndent (c : Char) : Bool := c == ' ' || c == '\t'

def isHexDigit (c : Char) : Bool :=
  c.isDigit || ('a' ≤ c && c ≤ 'f') || ('A' ≤ c && c ≤ 'F')

/-- What a digit stands for; letters count on from nine. -/
def digitValue (c : Char) : Nat :=
  if c.isDigit then c.toNat - '0'.toNat else c.toLower.toNat - 'a'.toNat + 10

/-- The number that digits of a base stand for. -/
def ofDigits (base : Nat) (digits : List Char) : Nat :=
  digits.foldl (fun n c => base * n + digitValue c) 0

/-! ### Escapes -/

/-- The character whose code point the next `count` hexadecimal digits give. -/
def codePoint? (count : Nat) (text : List Char) : Option (Char × List Char) :=
  let digits := text.take count
  let n := ofDigits 16 digits
  if digits.length = count && digits.all isHexDigit && decide n.isValidChar then
    some (Char.ofNat n, text.drop count)
  else none

/-- The character that stands behind a backslash. -/
def escape? : List Char → Option (Char × List Char)
  | 'b' :: rest => some ('\x08', rest)
  | 't' :: rest => some ('\t', rest)
  | 'n' :: rest => some ('\n', rest)
  | 'f' :: rest => some ('\x0c', rest)
  | 'r' :: rest => some ('\r', rest)
  | 'e' :: rest => some ('\x1b', rest)
  | '"' :: rest => some ('"', rest)
  | '\\' :: rest => some ('\\', rest)
  | 'x' :: rest => codePoint? 2 rest
  | 'u' :: rest => codePoint? 4 rest
  | 'U' :: rest => codePoint? 8 rest
  | _ => none

theorem length_le_of_codePoint? {count : Nat} {text rest : List Char} {c : Char}
    (h : codePoint? count text = some (c, rest)) : rest.length ≤ text.length := by
  simp only [codePoint?] at h
  split at h
  · cases h
    simp
  · cases h

theorem length_le_of_escape? {text rest : List Char} {c : Char}
    (h : escape? text = some (c, rest)) : rest.length ≤ text.length := by
  unfold escape? at h
  split at h
  case h_9 | h_10 | h_11 => exact Nat.le_succ_of_le (length_le_of_codePoint? h)
  case h_12 => cases h
  all_goals
    cases h
    exact Nat.le_succ _

/-- The text behind a line's end, where one stands. -/
def afterLineEnd? : List Char → Option (List Char)
  | '\n' :: rest => some rest
  | '\r' :: '\n' :: rest => some rest
  | _ => none

/-- The text from the first character that is neither space, tab nor a line's end. -/
def skipBlankLines : List Char → List Char
  | ' ' :: rest | '\t' :: rest | '\n' :: rest | '\r' :: '\n' :: rest => skipBlankLines rest
  | text => text

theorem length_skipBlankLines_le (text : List Char) :
    (skipBlankLines text).length ≤ text.length := by
  fun_induction skipBlankLines text <;> simp_all <;> omega

/-! ### On one line -/

/-- The text up to the closing double quote, escapes read. -/
def basicLine? (text : List Char) : Option (List Char × List Char) :=
  match text with
  | [] => none
  | '"' :: rest => some ([], rest)
  | '\\' :: rest =>
    match _h : escape? rest with
    | some (c, rest) => (basicLine? rest).map fun (content, rest) => (c :: content, rest)
    | none => none
  | c :: rest =>
    if isPlain c then (basicLine? rest).map fun (content, rest) => (c :: content, rest)
    else none
termination_by text.length
decreasing_by
  · exact Nat.lt_succ_of_le (length_le_of_escape? _h)
  · exact Nat.lt_succ_self _

/-- The text up to the closing single quote. -/
def literalLine? : List Char → Option (List Char × List Char)
  | [] => none
  | '\'' :: rest => some ([], rest)
  | c :: rest =>
    if isPlain c then (literalLine? rest).map fun (content, rest) => (c :: content, rest)
    else none

/-! ### On several lines -/

/-- The end of a text of several lines, where three quotes stand: up to two quotes more
belong to the text. -/
def closing? (quote : Char) : List Char → Option (List Char × List Char)
  | a :: b :: c :: rest =>
    if a = quote ∧ b = quote ∧ c = quote then
      let more := (rest.take 2).takeWhile (· == quote)
      some (more, rest.drop more.length)
    else none
  | _ => none

/-- A line's end right behind the opening quotes does not count. -/
def afterOpening (text : List Char) : List Char := (afterLineEnd? text).getD text

/-- What follows a backslash at the end of a line: the line's end, and the blanks and lines
up to the next text, do not count. -/
def continued? (text : List Char) : Option (List Char) :=
  (afterLineEnd? (text.dropWhile isIndent)).map skipBlankLines

theorem length_le_of_afterLineEnd? {text rest : List Char} (h : afterLineEnd? text = some rest) :
    rest.length ≤ text.length := by
  unfold afterLineEnd? at h
  split at h <;> cases h <;> simp only [List.length_cons] <;> omega

theorem length_le_of_continued? {text rest : List Char} (h : continued? text = some rest) :
    rest.length ≤ text.length := by
  simp only [continued?, Option.map_eq_some_iff] at h
  obtain ⟨next, line, rfl⟩ := h
  exact Nat.le_trans (length_skipBlankLines_le next) <|
    Nat.le_trans (length_le_of_afterLineEnd? line) (List.dropWhile_suffix isIndent).length_le

/-- The text up to three closing double quotes, escapes read. -/
def basicLines? (text : List Char) : Option (List Char × List Char) :=
  match closing? '"' text with
  | some closed => some closed
  | none =>
    match text with
    | [] => none
    | '\\' :: rest =>
      match _next : continued? rest with
      | some rest => basicLines? rest
      | none =>
        match _h : escape? rest with
        | some (c, rest) => (basicLines? rest).map fun (content, rest) => (c :: content, rest)
        | none => none
    | '\r' :: '\n' :: rest =>
      (basicLines? rest).map fun (content, rest) => ('\r' :: '\n' :: content, rest)
    | c :: rest =>
      if isPlain c || c == '\n' then
        (basicLines? rest).map fun (content, rest) => (c :: content, rest)
      else none
termination_by text.length
decreasing_by
  · exact Nat.lt_succ_of_le (length_le_of_continued? _next)
  · exact Nat.lt_succ_of_le (length_le_of_escape? _h)
  · exact Nat.lt_succ_of_lt (Nat.lt_succ_self _)
  · exact Nat.lt_succ_self _

/-- The text up to three closing single quotes. -/
def literalLines? (text : List Char) : Option (List Char × List Char) :=
  match closing? '\'' text with
  | some closed => some closed
  | none =>
    match text with
    | [] => none
    | '\r' :: '\n' :: rest =>
      (literalLines? rest).map fun (content, rest) => ('\r' :: '\n' :: content, rest)
    | c :: rest =>
      if isPlain c || c == '\n' then
        (literalLines? rest).map fun (content, rest) => (c :: content, rest)
      else none
termination_by structural text

/-- The text between quotes that a text begins with, if it begins with a quote. -/
def quoted? : List Char → Option (List Char × List Char)
  | '"' :: '"' :: '"' :: rest => basicLines? (afterOpening rest)
  | '\'' :: '\'' :: '\'' :: rest => literalLines? (afterOpening rest)
  | '"' :: rest => basicLine? rest
  | '\'' :: rest => literalLine? rest
  | _ => none

end Routing.Toml
