import Routing.Text.Shared

/-! Where the placeholders of a pattern are, for filling them in.

The pattern is looked over again for this: its text is all that is kept of it under its name. -/
namespace Routing.Pattern

/-- A character that begins a placeholder. -/
def isMark (c : Char) : Bool := c == ':' || c == '*'

/-- The ranges of the placeholders, in bytes of UTF-8, in the part of a pattern that begins at
an offset. A placeholder begins at the next `:` or `*`; behind a `*` it runs to the end, behind
a `:` up to the next `/`. -/
def placeholdersFrom (offset : Nat) (text : List Char) : List (Nat × Nat) :=
  let start := offset + Text.utf8Length (text.takeWhile (!isMark ·))
  match _h : text.dropWhile (!isMark ·) with
  | [] => []
  | mark :: rest =>
    if mark = '*' then [(start, start + Text.utf8Length (mark :: rest))]
    else
      let stop := start + Text.utf8Length (mark :: rest.takeWhile (· ≠ '/'))
      (start, stop) :: placeholdersFrom stop (rest.dropWhile (· ≠ '/'))
termination_by text.length
decreasing_by
  have cut := (List.dropWhile_suffix (l := text) (!isMark ·)).length_le
  have name := (List.dropWhile_suffix (l := rest) (· ≠ '/')).length_le
  rw [_h, List.length_cons] at cut
  omega

/-- The ranges of the placeholders in a pattern's text. -/
def placeholders (pattern : List Char) : List (Nat × Nat) := placeholdersFrom 0 pattern

end Routing.Pattern
