import Routing.Text.Blank

/-! References to environment variables.

A reference is `{{ NAME }}`: the name is made of capitals of ASCII, digits and
underscores, and white space may stand around it. Filling a text in puts each variable's
value in the place of its reference, from left to right; a value is taken as it is, and
what looks like a reference in it is not one. -/
namespace Routing.Config

/-- Variables and their values. -/
abbrev Environment := List (String × String)

namespace Template

def isNameChar (c : Char) : Bool := c.isUpper || c.isDigit || c == '_'

/-- The reference a text begins with: its name, and the text behind it. -/
def reference? : List Char → Option (List Char × List Char)
  | '{' :: '{' :: text =>
    let inside := text.dropWhile Text.isBlank
    let name := inside.takeWhile isNameChar
    match (inside.dropWhile isNameChar).dropWhile Text.isBlank with
    | '}' :: '}' :: rest => if name.isEmpty then none else some (name, rest)
    | _ => none
  | _ => none

theorem length_dropWhile_le (p : Char → Bool) (text : List Char) :
    (text.dropWhile p).length ≤ text.length :=
  (List.dropWhile_suffix p).length_le

theorem length_lt_of_reference? {text name rest : List Char}
    (h : reference? text = some (name, rest)) : rest.length < text.length := by
  unfold reference? at h
  split at h
  next text =>
    simp only at h
    split at h
    next behind closing =>
      have inside := length_dropWhile_le Text.isBlank text
      have named := length_dropWhile_le isNameChar (text.dropWhile Text.isBlank)
      have blank := length_dropWhile_le Text.isBlank
        ((text.dropWhile Text.isBlank).dropWhile isNameChar)
      rw [closing] at blank
      split at h
      · cases h
      · cases h
        simp only [List.length_cons] at *
        omega
    next => cases h
  next => cases h

/-- The value of a variable; a variable that is not set has none, and counts as empty. -/
def value (env : Environment) (name : List Char) : List Char :=
  ((env.lookup (String.ofList name)).getD "").toList

/-- A text with its references filled in. -/
def fill (env : Environment) (text : List Char) : List Char :=
  match _h : text with
  | [] => []
  | c :: rest =>
    match _found : reference? (c :: rest) with
    | some (name, behind) => value env name ++ fill env behind
    | none => c :: fill env rest
termination_by text.length
decreasing_by
  · exact length_lt_of_reference? _found
  · exact Nat.lt_succ_self _

end Template

end Routing.Config
