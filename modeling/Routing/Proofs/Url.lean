import Routing.Proofs.Pattern.Pieces
import Routing.Proofs.Trie.Match
import Routing.Url.Expand

/-! URLs are matched by the paths they are built from.

What is written of a pattern is its pieces with the placeholders filled in (`Piece.fill`). Where
each value fits its placeholder, the pattern's path captures just these values of it
(`Made.captures?_fill`). -/
namespace Routing
open Text

namespace Piece

/-- Pieces put together, with texts in the place of the placeholders; a placeholder without a text
stays as it is. -/
def fill : List Piece → List (List Char) → List Char
  | [], _ => []
  | .literal text :: rest, texts => text ++ fill rest texts
  | .placeholder text :: rest, [] => text ++ fill rest []
  | .placeholder _ :: rest, text :: texts => text ++ fill rest texts

/-- A `:` takes a segment that is not empty, a `*` any text. -/
def Fits (placeholder text : List Char) : Prop :=
  placeholder.head? = some ':' → text ≠ [] ∧ '/' ∉ text

end Piece

namespace Url
open Piece

/-- Writes pieces behind a draft, with values in the place of the placeholders. -/
def writePieces : Draft → List Piece → List Value → Rendering
  | draft, [], _ => ⟨draft, true⟩
  | draft, .literal text :: rest, values => writePieces (draft ++ text) rest values
  | draft, .placeholder text :: rest, [] => writePieces (draft ++ text) rest []
  | draft, .placeholder _ :: rest, value :: values =>
    let written := value.render
    if written.complete then writePieces (draft ++ written.text) rest values
    else ⟨draft ++ written.text, false⟩

/-- Writing a text with values in the ranges of its pieces is writing the pieces; `before` is the
literal text that stands in front of them. -/
theorem expandFrom?_ranges (draft : Draft) (offset : Nat) (before : List Char)
    (pieces : List Piece) (values : List Value) :
    expandFrom? draft offset (before ++ pieces.flatMap Piece.text)
        (ranges (offset + utf8Length before) pieces) values =
      some (writePieces (draft ++ before) pieces values) := by
  induction pieces generalizing draft offset before values with
  | nil => rw [ranges, expandFrom?, List.flatMap_nil, List.append_nil, writePieces]
  | cons piece rest ih =>
    cases piece with
    | literal text =>
      have hrest := ih draft offset (before ++ text) values
      rw [utf8Length_append, ← Nat.add_assoc, List.append_assoc, ← List.append_assoc draft] at hrest
      rw [ranges, writePieces]
      exact hrest
    | placeholder text =>
      have hbefore := cut?_append before (text ++ rest.flatMap Piece.text)
      have hown := cut?_append text (rest.flatMap Piece.text)
      have hrest (draft : Draft) (values : List Value) :=
        ih draft (offset + utf8Length before + utf8Length text) [] values
      simp only [List.nil_append, utf8Length_nil, Nat.add_zero, List.append_nil] at hrest
      have htext : (Piece.placeholder text :: rest).flatMap Piece.text =
        text ++ rest.flatMap Piece.text := rfl
      rw [ranges, htext, expandFrom?]
      simp only [Nat.add_sub_cancel_left, hbefore, hown, Option.bind_eq_bind, Option.bind_some]
      cases values with
      | nil => exact hrest _ []
      | cons value values =>
        simp only [writePieces]
        split
        · exact hrest _ values
        · rfl

/-- A pattern may always be sliced at its placeholders. -/
theorem expand?_eq (draft : Draft) (pattern : String) (values : List Value) :
    expand? draft pattern values =
      some (writePieces draft (ofPattern pattern.toList) values) := by
  have hwritten := expandFrom?_ranges draft 0 [] (ofPattern pattern.toList) values
  rw [List.nil_append, (ofPattern_spec _).1, utf8Length_nil, List.append_nil,
    ← Pattern.placeholders_eq] at hwritten
  exact hwritten

theorem expand_eq (draft : Draft) (pattern : String) (values : List Value) :
    expand draft pattern values = writePieces draft (ofPattern pattern.toList) values := by
  rw [expand, expand?_eq, Option.getD_some]

/-- Values that are written whole fill the placeholders in, and the others are not looked at. -/
theorem writePieces_eq (draft : Draft) {pieces : List Piece} {values : List Value}
    (h : ∀ value ∈ values.take (placeholders pieces).length, value.render.complete = true) :
    writePieces draft pieces values =
      ⟨draft ++ fill pieces (values.map fun value => value.render.text), true⟩ := by
  fun_induction writePieces draft pieces values with
  | case1 draft values => rw [fill, List.append_nil]
  | case2 draft text rest values ih =>
    rw [ih h, fill, List.append_assoc]
  | case3 draft text rest ih =>
    rw [ih (by simp), List.map_nil, fill, List.append_assoc]
  | case4 draft text rest value values written hwritten ih =>
    rw [placeholders_placeholder, List.length_cons, List.take_succ_cons, List.forall_mem_cons] at h
    rw [ih h.2, List.map_cons, fill, List.append_assoc]
  | case5 draft text rest value values written hwritten =>
    exact absurd (h value (by simp)) hwritten

end Url

/-! ### Captures -/

namespace Made
open Piece
variable {text path : List Char} {names : List String} {pieces : List Piece}

theorem fill_nil (h : Made [] path names pieces) (texts : List (List Char)) :
    fill pieces texts = [] := by
  generalize htext : [] = text at h
  cases h with
  | literal => rw [← htext, fill, fill]; rfl
  | wildcard | param => simp at htext

variable (h : Made text path names pieces)
include h

/-- Pieces begin with literal text, and so does what is written of them. -/
theorem fill_head (hhead : text.head? = some '/') (texts : List (List Char)) :
    (fill pieces texts).head? = some '/' := by
  have hfront {front back : List Char} {mark : Char} (hmark : mark ≠ '/')
      (hhead : (front ++ mark :: back).head? = some '/') (rest : List Char) :
      (front ++ rest).head? = some '/' := by
    cases front with
    | nil => simp [hmark] at hhead
    | cons c front => simpa using hhead
  cases h with
  | literal => simpa [fill] using hhead
  | wildcard => exact hfront (by decide) hhead _
  | param => exact hfront (by decide) hhead _

/-- A path captures the texts that its pieces are filled in with. -/
theorem captures?_fill {texts : List (List Char)}
    (hfits : List.Forall₂ Fits (placeholders pieces) texts) :
    captures? path (fill pieces texts) = some texts := by
  induction h generalizing texts with
  | @literal text hliteral =>
    obtain rfl := List.forall₂_nil_left_iff.mp hfits
    have hcaptured := captures?_literal hliteral [] text
    have hafter := after?_append text []
    rw [List.append_nil] at hafter hcaptured
    rw [fill, fill, List.append_nil, hcaptured, hafter]
    rfl
  | wildcard hfront =>
    obtain ⟨value, none, -, hnone, rfl⟩ := List.forall₂_cons_left_iff.mp hfits
    obtain rfl := List.forall₂_nil_left_iff.mp hnone
    rw [fill, fill, fill, List.append_nil, captures?_literal hfront, after?_append,
      Option.bind_some, captures?_wildcard]
  | @param front name rest path names pieces hfront hname hrest hmade ih =>
    obtain ⟨value, texts, hvalue, hothers, rfl⟩ := List.forall₂_cons_left_iff.mp hfits
    obtain ⟨hne, hslash⟩ := hvalue rfl
    -- The segment ends where the value does: what follows it begins with a `/`.
    have hsegment : ∀ c ∈ value, decide (c ≠ '/') = true := fun c hc =>
      decide_eq_true fun heq => hslash (heq ▸ hc)
    have hstop : (fill pieces texts).takeWhile (· ≠ '/') = [] ∧
        (fill pieces texts).dropWhile (· ≠ '/') = fill pieces texts := by
      rcases hrest with rfl | hhead
      · rw [fill_nil hmade]
        exact ⟨rfl, rfl⟩
      · obtain ⟨tail, htail⟩ := List.head?_eq_some_iff.mp (hmade.fill_head hhead texts)
        rw [htail]
        exact ⟨rfl, rfl⟩
    rw [fill, fill, captures?_literal hfront, after?_append, Option.bind_some, captures?_param,
      List.takeWhile_append_of_pos hsegment, List.dropWhile_append_of_pos hsegment, hstop.1,
      hstop.2, List.append_nil, if_neg hne, ih hothers]
    rfl

end Made

end Routing
