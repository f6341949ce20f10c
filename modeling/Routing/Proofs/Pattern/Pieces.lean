import Mathlib.Data.List.TakeWhile
import Routing.Pattern.Placeholders
import Routing.Proofs.Pattern
import Routing.Proofs.Text.Offsets

/-! A pattern and its pieces.

Two scanners go over a pattern's text: one reads its path and the names of its parameters
(`Pattern.parse`), the other finds the ranges of its placeholders (`Pattern.placeholders`). Cut into
pieces the text says what both of them do: the first stops at the same marks and takes the same text
behind each (`Made`), and the ranges are those of the pieces (`Pattern.placeholders_eq`). -/
namespace Routing
open Text

/-- A part of a pattern's text. -/
inductive Piece where
  | literal (text : List Char)
  /-- A placeholder, with the mark it begins with. -/
  | placeholder (text : List Char)
  deriving Repr, DecidableEq

namespace Piece
open Pattern (isMark)

def text : Piece → List Char
  | literal text => text
  | placeholder text => text

/-- The pieces of a pattern, in order. A placeholder begins at the next `:` or `*`; behind a `*` it
runs to the end, behind a `:` up to the next `/`. -/
def ofPattern (pattern : List Char) : List Piece :=
  match _h : pattern.dropWhile (!isMark ·) with
  | [] => [literal pattern]
  | mark :: rest =>
    let before := literal (pattern.takeWhile (!isMark ·))
    if mark = '*' then [before, placeholder (mark :: rest)]
    else
      before :: placeholder (mark :: rest.takeWhile (· ≠ '/')) ::
        ofPattern (rest.dropWhile (· ≠ '/'))
termination_by pattern.length
decreasing_by
  have cut := (List.dropWhile_suffix (l := pattern) (!isMark ·)).length_le
  have name := (List.dropWhile_suffix (l := rest) (· ≠ '/')).length_le
  rw [_h, List.length_cons] at cut
  omega

/-- The text of a placeholder. -/
def placeholder? : Piece → Option (List Char)
  | literal _ => none
  | placeholder text => some text

/-- The placeholders among some pieces, in order. -/
def placeholders (pieces : List Piece) : List (List Char) := pieces.filterMap placeholder?

@[simp] theorem placeholders_nil : placeholders [] = [] := rfl

@[simp] theorem placeholders_literal (text : List Char) (rest : List Piece) :
    placeholders (.literal text :: rest) = placeholders rest := rfl

@[simp] theorem placeholders_placeholder (text : List Char) (rest : List Piece) :
    placeholders (.placeholder text :: rest) = text :: placeholders rest := rfl

end Piece

/-- A pattern's text, the path and the names that its reading gives, and its pieces, side by
side. -/
inductive Made : List Char → List Char → List String → List Piece → Prop
  | literal {text : List Char} : Literal text → Made text text [] [.literal text]
  | wildcard {front name : List Char} : Literal front → '/' ∉ trim name →
    Made (front ++ '*' :: name) (front ++ ['*'])
      [if (trim name).isEmpty then "*" else String.ofList (trim name)]
      [.literal front, .placeholder ('*' :: name)]
  | param {front name rest path : List Char} {names : List String} {pieces : List Piece} :
    Literal front → '/' ∉ name → (rest = [] ∨ rest.head? = some '/') →
    Made rest path names pieces →
    Made (front ++ ':' :: (name ++ rest)) (front ++ ':' :: path) (String.ofList name :: names)
      (.literal front :: .placeholder (':' :: name) :: pieces)

/-! ### Both scanners -/

theorem literal_takeWhile (text : List Char) : Literal (text.takeWhile (!Pattern.isMark ·)) := by
  constructor <;>
  · intro hmem
    have := List.mem_takeWhile_imp hmem
    simp [Pattern.isMark] at this

theorem mark_of_dropWhile {text rest : List Char} {mark : Char}
    (h : text.dropWhile (!Pattern.isMark ·) = mark :: rest) : mark = ':' ∨ mark = '*' := by
  have hmark := List.head?_dropWhile_not (!Pattern.isMark ·) text
  rw [h] at hmark
  simpa [Pattern.isMark, or_iff_not_imp_left] using hmark

theorem notMem_takeWhile (c : Char) (text : List Char) : c ∉ text.takeWhile (· ≠ c) := by
  intro hmem
  have := List.mem_takeWhile_imp hmem
  simp at this

theorem dropWhile_head (c : Char) (text : List Char) :
    text.dropWhile (· ≠ c) = [] ∨ (text.dropWhile (· ≠ c)).head? = some c := by
  cases h : text.dropWhile (· ≠ c) with
  | nil => exact .inl rfl
  | cons x rest =>
    have hx := List.head?_dropWhile_not (· ≠ c) text
    rw [h] at hx
    exact .inr (by simpa using hx)

namespace Shape

theorem literal?_front {front : List Char} (h : Literal front) (offset : Nat) (rest : List Char) :
    literal? offset (front ++ rest) = (literal? (offset + utf8Length front) rest).map
      fun shape => { shape with path := front ++ shape.path } := by
  induction front generalizing offset with
  | nil => exact Option.map_id'.symm
  | cons c front ih =>
    obtain ⟨hc, hfront⟩ := literal_append.mp (show Literal ([c] ++ front) from h)
    obtain ⟨hcolon, hstar⟩ := literal_singleton.mp hc
    rw [List.cons_append, literal?.eq_4 _ _ _ hcolon hstar, ih hfront, Option.map_map,
      utf8Length_cons, Nat.add_assoc]
    rfl

/-- A parameter's name goes up to the next `/`, and the path goes on behind its mark. -/
theorem param?_name {segment rest : List Char} (h : '/' ∉ segment)
    (hrest : rest = [] ∨ rest.head? = some '/') {offset : Nat} {name : List Char} {shape : Shape}
    (hread : param? offset name (segment ++ rest) = some shape) :
    ∃ inner, literal? (offset + 1) rest = some inner ∧ shape.path = ':' :: inner.path ∧
      shape.params = String.ofList (name ++ segment) :: inner.params := by
  induction segment generalizing name with
  | nil =>
    rw [List.nil_append] at hread
    rw [List.append_nil]
    rcases hrest with rfl | hslash
    · cases hread
      exact ⟨_, rfl, rfl, rfl⟩
    · obtain ⟨rest, rfl⟩ := List.head?_eq_some_iff.mp hslash
      obtain ⟨inner, hinner, rfl⟩ := Option.map_eq_some_iff.mp hread
      refine ⟨{ inner with path := '/' :: inner.path }, ?_, rfl, rfl⟩
      rw [literal?.eq_4 _ _ _ (by decide) (by decide)]
      exact Option.map_eq_some_iff.mpr ⟨inner, hinner, rfl⟩
  | cons c segment ih =>
    obtain ⟨hc, hsegment⟩ := not_or.mp (mt List.mem_cons.mpr h)
    rw [List.cons_append, param?.eq_3 _ _ _ _ (Ne.symm hc)] at hread
    obtain ⟨inner, hinner, hpath, hparams⟩ := ih hsegment hread
    exact ⟨inner, hinner, hpath, by rw [hparams, List.append_assoc]; rfl⟩

/-- The path that is read of a text goes with its pieces. -/
theorem made_of_literal? {offset : Nat} {text : List Char} {shape : Shape}
    (h : literal? offset text = some shape) :
    Made text shape.path shape.params (Piece.ofPattern text) := by
  fun_induction Piece.ofPattern text generalizing offset shape with
  | case1 text hall =>
    have hliteral := literal_takeWhile text
    have htext := List.takeWhile_append_dropWhile (p := (!Pattern.isMark ·)) (l := text)
    rw [hall, List.append_nil] at htext
    rw [htext] at hliteral
    rw [← List.append_nil text, literal?_front hliteral] at h
    cases h
    show Made text (text ++ []) [] [.literal text]
    rw [List.append_nil]
    exact .literal hliteral
  | case2 text rest before =>
    have hmark := ‹text.dropWhile (!Pattern.isMark ·) = '*' :: rest›
    have hliteral := literal_takeWhile text
    have htext := List.takeWhile_append_dropWhile (p := (!Pattern.isMark ·)) (l := text)
    rw [hmark] at htext
    rw [← htext, literal?_front hliteral, literal?, wildcard?] at h
    split at h
    · cases h
    · next hname =>
      cases h
      have hmade := Made.wildcard hliteral hname
      rwa [htext] at hmade
  | case3 text mark rest hmark before hother =>
    rename_i ih
    have hliteral := literal_takeWhile text
    have htext := List.takeWhile_append_dropWhile (p := (!Pattern.isMark ·)) (l := text)
    obtain rfl := (mark_of_dropWhile hmark).resolve_right hother
    rw [hmark] at htext
    rw [← htext, literal?_front hliteral, literal?,
      ← List.takeWhile_append_dropWhile (p := (· ≠ '/')) (l := rest)] at h
    obtain ⟨behind, hbehind, rfl⟩ := Option.map_eq_some_iff.mp h
    obtain ⟨inner, hinner, hpath, hparams⟩ :=
      param?_name (notMem_takeWhile '/' rest) (dropWhile_head '/' rest) hbehind
    have hmade := Made.param hliteral (notMem_takeWhile '/' rest) (dropWhile_head '/' rest)
      (ih hinner)
    rw [List.takeWhile_append_dropWhile, htext] at hmade
    rw [hparams, hpath]
    exact hmade

end Shape

/-- Text without marks is a pattern, and the path of it. -/
theorem Pattern.parse_literal {path : String} (h : Literal path.toList) :
    ∃ pattern, parse path = .ok pattern ∧ pattern.text = normalize path ∧
      pattern.path = (normalize path).toList ∧ Literal (normalize path).toList := by
  have hliteral : Literal (normalize path).toList := by
    unfold normalize
    split
    · exact h
    · rw [String.toList_ofList]
      exact literal_append.mpr ⟨literal_singleton.mpr (by decide), h⟩
  have hshape := Shape.literal?_front hliteral 0 []
  rw [List.append_nil] at hshape
  rw [parse, hshape]
  exact ⟨_, rfl, rfl, List.append_nil _, hliteral⟩

/-- A pattern's path and names go with the pieces of its text. -/
theorem Pattern.made {text : String} {pattern : Pattern} (h : parse text = .ok pattern) :
    Made pattern.text.toList pattern.path pattern.params (Piece.ofPattern pattern.text.toList) := by
  rw [parse] at h
  split at h
  · next shape hshape =>
    cases h
    exact Shape.made_of_literal? hshape
  · cases h

/-- A wildcard's mark ends a path. -/
theorem Made.star_notMem_dropLast {text path : List Char} {names : List String}
    {pieces : List Piece} (h : Made text path names pieces) : '*' ∉ path.dropLast := by
  induction h with
  | literal hliteral => exact fun hmem => hliteral.2 (List.dropLast_subset _ hmem)
  | wildcard hfront => rw [List.dropLast_concat]; exact hfront.2
  | @param front _ _ path _ _ hfront _ _ _ ih =>
    rw [List.dropLast_append_of_ne_nil (List.cons_ne_nil _ _), List.mem_append, not_or]
    refine ⟨hfront.2, ?_⟩
    cases path with
    | nil => simp
    | cons c path =>
      rw [List.dropLast_cons_of_ne_nil (List.cons_ne_nil _ _), List.mem_cons, not_or]
      exact ⟨by decide, ih⟩

/-! ### In bytes

Both scanners slice a pattern's text at its placeholders: in front of each, behind its mark, and
where it ends. -/

namespace Piece

/-- The offsets at which the placeholders among some pieces begin and end, if the first piece
begins at this one. -/
def ranges (start : Nat) : List Piece → List (Nat × Nat)
  | [] => []
  | literal text :: rest => ranges (start + utf8Length text) rest
  | placeholder text :: rest =>
    (start, start + utf8Length text) :: ranges (start + utf8Length text) rest

/-- The pieces of a text put together are the text, and each placeholder begins with a mark. -/
theorem ofPattern_spec (text : List Char) : (ofPattern text).flatMap Piece.text = text ∧
    ∀ part, placeholder part ∈ ofPattern text →
      ∃ mark rest, part = mark :: rest ∧ (mark = ':' ∨ mark = '*') := by
  fun_induction ofPattern text with
  | case1 text => simp [Piece.text]
  | case2 text rest before hmark =>
    have hsplit := List.takeWhile_append_dropWhile (p := (!Pattern.isMark ·)) (l := text)
    rw [hmark] at hsplit
    refine ⟨?_, fun part hpart => ⟨'*', rest, ?_, .inr rfl⟩⟩
    · simp [before, Piece.text, hsplit]
    · simpa [before] using hpart
  | case3 text mark rest hmark before hcolon ih =>
    have hsplit := List.takeWhile_append_dropWhile (p := (!Pattern.isMark ·)) (l := text)
    rw [hmark] at hsplit
    obtain ⟨htext, hmarks⟩ := ih
    refine ⟨?_, fun part hpart => ?_⟩
    · rw [List.flatMap_cons, List.flatMap_cons, htext]
      show text.takeWhile (!Pattern.isMark ·) ++ (mark :: rest.takeWhile (· ≠ '/') ++ _) = text
      rw [List.cons_append, List.takeWhile_append_dropWhile, hsplit]
    · rcases List.mem_cons.mp hpart with hpart | hpart
      · simp [before] at hpart
      rcases List.mem_cons.mp hpart with hpart | hpart
      · exact ⟨mark, _, placeholder.inj hpart, mark_of_dropWhile hmark⟩
      · exact hmarks part hpart

/-- What holds of the ranges of pieces that begin behind a front of a text. -/
theorem ranges_spec {pieces : List Piece} (front : List Char)
    (hmarks : ∀ part, placeholder part ∈ pieces →
      ∃ mark rest, part = mark :: rest ∧ (mark = ':' ∨ mark = '*')) :
    (∀ range ∈ ranges (utf8Length front) pieces, utf8Length front ≤ range.1 ∧
      range.1 < range.2 ∧ ∀ offset ∈ [range.1, range.1 + 1, range.2],
        OnBoundary (front ++ pieces.flatMap Piece.text) offset) ∧
      (ranges (utf8Length front) pieces).Pairwise fun range next => range.2 ≤ next.1 := by
  induction pieces generalizing front with
  | nil => exact ⟨fun _ hrange => (by cases hrange), .nil⟩
  | cons piece rest ih =>
    have hrest := ih (front ++ piece.text) fun part hpart =>
      hmarks part (List.mem_cons_of_mem _ hpart)
    rw [utf8Length_append, List.append_assoc] at hrest
    cases piece with
    | literal text =>
      refine ⟨fun range hrange => ?_, hrest.2⟩
      obtain ⟨hle, hrange⟩ := hrest.1 range hrange
      exact ⟨Nat.le_of_add_right_le hle, hrange⟩
    | placeholder text =>
      obtain ⟨mark, name, rfl, hmark⟩ := hmarks text (List.mem_cons_self ..)
      have hsize : utf8Length [mark] = 1 := by rcases hmark with rfl | rfl <;> rfl
      have hbegins := onBoundary_append front (mark :: name ++ rest.flatMap Piece.text)
      have hname := onBoundary_append (front ++ [mark]) (name ++ rest.flatMap Piece.text)
      have hends := onBoundary_append (front ++ mark :: name) (rest.flatMap Piece.text)
      rw [utf8Length_append, hsize, ← List.append_cons] at hname
      rw [utf8Length_append, List.append_assoc] at hends
      refine ⟨List.forall_mem_cons.mpr ⟨⟨Nat.le_refl _, ?_, ?_⟩, fun range hrange => ?_⟩, ?_⟩
      · have := mark.utf8Size_pos
        rw [utf8Length_cons]
        omega
      · intro offset hoffset
        simp only [List.mem_cons, List.not_mem_nil, or_false] at hoffset
        rcases hoffset with rfl | rfl | rfl
        · exact hbegins
        · exact hname
        · exact hends
      · obtain ⟨hle, hrange⟩ := hrest.1 range hrange
        exact ⟨Nat.le_of_add_right_le hle, hrange⟩
      · exact List.pairwise_cons.mpr ⟨fun range hrange => (hrest.1 range hrange).1, hrest.2⟩

end Piece

namespace Pattern
open Piece

/-- The ranges that are found are those of the placeholders among the pieces. -/
theorem placeholdersFrom_eq (offset : Nat) (text : List Char) :
    placeholdersFrom offset text = ranges offset (ofPattern text) := by
  fun_induction placeholdersFrom offset text with
  | case1 offset text hall => rw [ofPattern, hall]; rfl
  | case2 offset text start rest hmark => rw [ofPattern, hmark]; rfl
  | case3 offset text start mark rest hmark hother stop ih =>
    rw [ofPattern, hmark]
    simp only [hother, if_false, ranges]
    rw [ih]

theorem placeholders_eq (text : List Char) : placeholders text = ranges 0 (ofPattern text) :=
  placeholdersFrom_eq 0 text

/-- A text may be sliced at its placeholders. -/
structure Sliceable (text : List Char) : Prop where
  begins : ∀ range ∈ placeholders text, OnBoundary text range.1
  name : ∀ range ∈ placeholders text, OnBoundary text (range.1 + 1)
  ends : ∀ range ∈ placeholders text, OnBoundary text range.2
  nonempty : ∀ range ∈ placeholders text, range.1 < range.2
  /-- None begins before the one in front of it has ended. -/
  ordered : (placeholders text).Pairwise fun range next => range.2 ≤ next.1

theorem sliceable (text : List Char) : Sliceable text := by
  obtain ⟨htext, hmarks⟩ := ofPattern_spec text
  obtain ⟨hrange, hordered⟩ := ranges_spec [] hmarks
  rw [htext, utf8Length_nil, ← placeholders_eq] at hrange
  rw [utf8Length_nil, ← placeholders_eq] at hordered
  exact {
    begins := fun range h => (hrange range h).2.2 _ (by simp)
    name := fun range h => (hrange range h).2.2 _ (by simp)
    ends := fun range h => (hrange range h).2.2 _ (by simp)
    nonempty := fun range h => (hrange range h).2.1
    ordered := hordered }

end Pattern

end Routing
