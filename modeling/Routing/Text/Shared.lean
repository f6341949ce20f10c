/-! What two texts begin with in common.

`fork` takes two texts apart where they part, character by character; the trie is split
with it. `sharedLength` measures the same stretch in bytes of UTF-8, and finds it from the
bytes: those in common, back to the nearest place of the first text where a character
begins or the text ends. Two characters may share their first bytes, so the step back is
needed. -/
namespace Routing.Text

/-- Two texts where they part. -/
structure Fork where
  shared : List Char
  left : List Char
  right : List Char
  deriving Repr, DecidableEq

def fork : List Char → List Char → Fork
  | a :: left, b :: right =>
    if a = b then
      let rest := fork left right
      { rest with shared := a :: rest.shared }
    else ⟨[], a :: left, b :: right⟩
  | left, right => ⟨[], left, right⟩

/-- What follows `start` in a text that begins with it. -/
def after? : List Char → List Char → Option (List Char)
  | [], text => some text
  | _ :: _, [] => none
  | s :: start, t :: text => if s = t then after? start text else none

/-! ### In bytes -/

def utf8 (text : List Char) : List UInt8 := text.flatMap String.utf8EncodeChar

def utf8Length (text : List Char) : Nat := (utf8 text).length

/-- How many bytes two byte strings begin with in common. -/
def sharedBytes : List UInt8 → List UInt8 → Nat
  | a :: left, b :: right => if a = b then sharedBytes left right + 1 else 0
  | _, _ => 0

/-- A byte that continues a character: `10` in its top bits. -/
def continues (b : UInt8) : Bool := b &&& 0xC0 == 0x80

/-- Whether a character begins at this offset, or the text ends there. -/
def isBoundary (bytes : List UInt8) (offset : Nat) : Bool :=
  match bytes.drop offset with
  | [] => offset == bytes.length
  | b :: _ => !continues b

/-- The last boundary at or before an offset. -/
def boundaryBelow (bytes : List UInt8) : Nat → Nat
  | 0 => 0
  | offset + 1 =>
    if isBoundary bytes (offset + 1) then offset + 1 else boundaryBelow bytes offset

/-- The bytes that two texts begin with in common, back to a boundary of the first. -/
def sharedLength (left right : List Char) : Nat :=
  boundaryBelow (utf8 left) (sharedBytes (utf8 left) (utf8 right))

/-- The bytes in front of the first place where a character stands, or of the end. -/
def offsetOf (c : Char) (text : List Char) : Nat := utf8Length (text.takeWhile (· ≠ c))

/-- A text in front of an offset and behind it, if the offset is between two characters or at
an end. -/
def cut? : List Char → Nat → Option (List Char × List Char)
  | text, 0 => some ([], text)
  | [], _ + 1 => none
  | c :: text, offset + 1 =>
    if c.utf8Size ≤ offset + 1 then
      (cut? text (offset + 1 - c.utf8Size)).map fun (front, back) => (c :: front, back)
    else none

theorem length_of_cut? {text front back : List Char} {offset : Nat}
    (h : cut? text offset = some (front, back)) :
    front.length + back.length = text.length ∧ (0 < offset → 0 < front.length) := by
  fun_induction cut? text offset generalizing front with
  | case1 => simp_all
  | case2 => simp at h
  | case3 c text offset hsize ih =>
    obtain ⟨⟨rest, back⟩, hrest, heq⟩ := Option.map_eq_some_iff.mp h
    obtain ⟨rfl, rfl⟩ := heq
    have := (ih hrest).1
    simp only [List.length_cons]
    omega
  | case4 => simp at h

end Routing.Text
