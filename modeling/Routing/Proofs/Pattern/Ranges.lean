import Routing.Proofs.Url

/-! The ranges of a pattern's placeholders.

The scanner that is used for filling a pattern in tells its placeholders by their ranges in bytes
(`Pattern.placeholders`). Replacing what stands in these ranges is filling in the pieces
(`Piece.replace?_ranges`), and the ranges are those of the parameters that the reading of the
pattern finds (`Pattern.placeholders_agree`). -/
namespace Routing

namespace Text

/-! ### Slices -/

/-- What stands in a range of a text, if the text may be sliced there. -/
def slice? (text : List Char) (range : Nat × Nat) : Option (List Char) := do
  let (_, back) ← cut? text range.1
  let (part, _) ← cut? back (range.2 - range.1)
  return part

/-- A text from an offset on, with texts in the place of what stands in some ranges, one for each in
order. A range for which there is no text stays as it is, and so does all between the ranges. -/
def replace? (text : List Char) (start : Nat) :
    List (Nat × Nat) → List (List Char) → Option (List Char)
  | [], _ => slice? text (start, utf8Length text)
  | range :: ranges, texts => do
    let before ← slice? text (start, range.1)
    let own ← slice? text range
    let behind ← replace? text range.2 ranges texts.tail
    return before ++ texts.head?.getD own ++ behind

theorem slice?_append (front part back : List Char) :
    slice? (front ++ part ++ back) (utf8Length front, utf8Length front + utf8Length part) =
      some part := by
  rw [slice?, List.append_assoc, cut?_append]
  simp only [Option.bind_eq_bind, Option.bind_some, Nat.add_sub_cancel_left, cut?_append]
  rfl

end Text
open Text

namespace Piece

theorem length_ranges (start : Nat) (pieces : List Piece) :
    (ranges start pieces).length = (placeholders pieces).length := by
  induction pieces generalizing start with
  | nil => rfl
  | cons piece rest ih =>
    cases piece with
    | literal text => exact ih _
    | placeholder text => exact congrArg (· + 1) (ih _)

/-- The ranges of pieces hold the placeholders. -/
theorem map_slice?_ranges (front : List Char) (pieces : List Piece) :
    (ranges (utf8Length front) pieces).map (slice? (front ++ pieces.flatMap Piece.text)) =
      (placeholders pieces).map some := by
  induction pieces generalizing front with
  | nil => rfl
  | cons piece rest ih =>
    have hrest := ih (front ++ piece.text)
    rw [utf8Length_append, List.append_assoc, ← List.flatMap_cons] at hrest
    cases piece with
    | literal text => exact hrest
    | placeholder text =>
      have hslice := slice?_append front text (rest.flatMap Piece.text)
      rw [List.append_assoc] at hslice
      rw [ranges, List.map_cons, placeholders_placeholder, List.map_cons]
      exact congrArg₂ List.cons hslice hrest

/-- Replacing what stands in the ranges of pieces is filling the pieces in. -/
theorem replace?_ranges (front before : List Char) (pieces : List Piece)
    (texts : List (List Char)) :
    replace? (front ++ before ++ pieces.flatMap Piece.text) (utf8Length front)
        (ranges (utf8Length front + utf8Length before) pieces) texts =
      some (before ++ fill pieces texts) := by
  induction pieces generalizing front before texts with
  | nil =>
    have hslice := slice?_append front before []
    rw [← utf8Length_append, List.append_nil] at hslice
    rw [ranges, replace?, fill, List.flatMap_nil, List.append_nil, List.append_nil, hslice]
  | cons piece rest ih =>
    cases piece with
    | literal text =>
      have hrest := ih front (before ++ text) texts
      rw [utf8Length_append, ← Nat.add_assoc, ← List.append_assoc, List.append_assoc,
        List.append_assoc before] at hrest
      rw [ranges, fill]
      exact hrest
    | placeholder text =>
      have hbefore := slice?_append front before (text ++ rest.flatMap Piece.text)
      have hown := slice?_append (front ++ before) text (rest.flatMap Piece.text)
      have hrest := ih (front ++ before ++ text) [] texts.tail
      rw [List.append_nil, utf8Length_nil, Nat.add_zero] at hrest
      rw [List.append_assoc (front ++ before), utf8Length_append] at hown
      rw [List.append_assoc (front ++ before), utf8Length_append, utf8Length_append] at hrest
      have htext : (Piece.placeholder text :: rest).flatMap Piece.text =
        text ++ rest.flatMap Piece.text := rfl
      rw [ranges, replace?, htext, hbefore, hown, hrest]
      cases texts <;> simp [fill]

/-- The name that a placeholder gives its parameter. White space around a wildcard's does not count,
and one without a name is called `*`. -/
def name (placeholder : List Char) : String :=
  if placeholder.head? = some '*' then
    if (trim placeholder.tail).isEmpty then "*" else String.ofList (trim placeholder.tail)
  else String.ofList placeholder.tail

end Piece

/-! ### Both scanners -/

namespace Made
open Piece
variable {text path : List Char} {names : List String} {pieces : List Piece}

/-- A path is its pattern with each placeholder cut down to the mark. -/
theorem fill_marks (h : Made text path names pieces) :
    fill pieces ((placeholders pieces).map (List.take 1)) = path := by
  induction h with
  | literal => simp [fill]
  | wildcard => simp [fill]
  | param _ _ _ _ ih => simp [fill, ih]

theorem names_eq (h : Made text path names pieces) : names = (placeholders pieces).map name := by
  induction h with
  | literal => rfl
  | wildcard => rfl
  | param _ _ _ _ ih =>
    rw [placeholders_literal, placeholders_placeholder, List.map_cons, ← ih]
    rfl

theorem head?_placeholder (h : Made text path names pieces) :
    ∀ part ∈ placeholders pieces, part.head? = some ':' ∨ part.head? = some '*' := by
  induction h with
  | literal => simp
  | wildcard => simp
  | param _ _ _ _ ih => simpa using ih

end Made

namespace Pattern
open Piece

/-- The placeholders of a pattern are in these ranges of its text, and read so. -/
structure Placed (pattern : Pattern) (ranges : List (Nat × Nat)) (parts : List (List Char)) :
    Prop where
  holds : ranges.map (slice? pattern.text.toList) = parts.map some
  count : ranges.length = pattern.params.length
  marks : ∀ part ∈ parts, part.head? = some ':' ∨ part.head? = some '*'
  nonempty : ∀ range ∈ ranges, range.1 < range.2
  /-- None begins before the one in front of it has ended. -/
  ordered : ranges.Pairwise fun range next => range.2 ≤ next.1
  /-- Cut down to their marks, the placeholders leave the path. -/
  path : replace? pattern.text.toList 0 ranges (parts.map (List.take 1)) = some pattern.path
  names : pattern.params = parts.map name

/-- Filling a pattern in finds the placeholders that reading it finds. -/
theorem placeholders_agree {text : String} {pattern : Pattern} (h : parse text = .ok pattern) :
    ∃ parts, pattern.Placed (placeholders pattern.text.toList) parts := by
  have hmade := made h
  have hsliceable := sliceable pattern.text.toList
  have hslices := map_slice?_ranges [] (ofPattern pattern.text.toList)
  have hreplaced := replace?_ranges [] [] (ofPattern pattern.text.toList)
    ((Piece.placeholders (ofPattern pattern.text.toList)).map (List.take 1))
  rw [List.nil_append, (ofPattern_spec _).1, utf8Length_nil, ← placeholders_eq] at hslices
  rw [List.nil_append, List.nil_append, (ofPattern_spec _).1, hmade.fill_marks, utf8Length_nil,
    ← placeholders_eq] at hreplaced
  refine ⟨Piece.placeholders (ofPattern pattern.text.toList), hslices, ?_, hmade.head?_placeholder,
    hsliceable.nonempty, hsliceable.ordered, hreplaced, hmade.names_eq⟩
  rw [hmade.names_eq, List.length_map, placeholders_eq, length_ranges]

/-- A name may have marks in it and characters of several bytes. -/
theorem placeholders_agree_marks : ∃ pattern, parse "u/:é:*/* rest " = .ok pattern ∧
    placeholders pattern.text.toList = [(3, 8), (9, 16)] ∧
    ∃ parts, pattern.Placed [(3, 8), (9, 16)] parts := by
  have hparse : parse "u/:é:*/* rest " = .ok ⟨⟨"/u/:/*".toList, ["é:*", "rest"],
      [⟨.static, 3⟩, ⟨.param, 4⟩, ⟨.static, 5⟩], .wildcard⟩, "/u/:é:*/* rest "⟩ := by
    decide +kernel
  have hranges : placeholders "/u/:é:*/* rest ".toList = [(3, 8), (9, 16)] := by
    decide +kernel
  exact ⟨_, hparse, hranges, hranges ▸ placeholders_agree hparse⟩

end Pattern

end Routing
