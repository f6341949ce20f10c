import Routing.Pattern.Placeholders
import Routing.Url.Drafts
import Routing.Url.Value

/-! Filling in a pattern's placeholders.

The values go into the placeholders in order. A placeholder without a value stays as it is,
a value without a placeholder is not looked at, and the first value that fails ends it. -/
namespace Routing.Url

/-- Writes the part of a pattern that begins at an offset behind a draft, with values in some
ranges of it; it fails where the pattern cannot be sliced. What is written is complete unless a
value failed. -/
def expandFrom? : Draft → (offset : Nat) → (left : List Char) → List (Nat × Nat) → List Value →
    Option Rendering
  | draft, _, left, [], _ => some ⟨draft ++ left, true⟩
  | draft, offset, left, (start, stop) :: ranges, values => do
    let (before, left) ← Text.cut? left (start - offset)
    let (own, left) ← Text.cut? left (stop - start)
    match values with
    | [] => expandFrom? (draft ++ before ++ own) stop left ranges []
    | value :: values =>
      let written := value.render
      if written.complete then
        expandFrom? (draft ++ before ++ written.text) stop left ranges values
      else return ⟨draft ++ before ++ written.text, false⟩

/-- Writes a pattern with its placeholders filled in behind a draft. -/
def expand? (draft : Draft) (pattern : String) (values : List Value) : Option Rendering :=
  expandFrom? draft 0 pattern.toList (Pattern.placeholders pattern.toList) values

def expand (draft : Draft) (pattern : String) (values : List Value) : Rendering :=
  (expand? draft pattern values).getD ⟨draft, false⟩

end Routing.Url
