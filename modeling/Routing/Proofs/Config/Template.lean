import Mathlib.Data.List.Infix
import Mathlib.Data.List.TakeWhile
import Routing.Config.Template

/-! Filling in references.

A reference has no `{` inside, so no two of them overlap, and what a text has in front of a
reference is filled in as if it stood alone (`reference?_append`). Filling in is then settled by two
laws: a reference gives way to its value and parts what is in front of it from what is behind it,
and a text without references stays as it is (`fill_references`). -/
namespace Routing.Config.Template
open Text

/-! ### References -/

/-- A reference as it is written. -/
structure Reference where
  before : List Char
  name : List Char
  behind : List Char
  blank_before : ∀ c ∈ before, isBlank c = true
  name_ne_nil : name ≠ []
  name_chars : ∀ c ∈ name, isNameChar c = true
  blank_behind : ∀ c ∈ behind, isBlank c = true

namespace Reference

/-- What stands behind the two braces that open a reference. -/
def inside (ref : Reference) : List Char := ref.before ++ (ref.name ++ (ref.behind ++ ['}', '}']))

def text (ref : Reference) : List Char := '{' :: '{' :: ref.inside

theorem inside_ne_nil (ref : Reference) : ref.inside ≠ [] := by simp [inside]

theorem brace_notMem_inside (ref : Reference) : '{' ∉ ref.inside := by
  simp only [inside, List.mem_append, List.mem_cons, List.not_mem_nil, or_false, not_or]
  refine ⟨fun h => ?_, fun h => ?_, fun h => ?_, by decide, by decide⟩
  · exact absurd (ref.blank_before _ h) (by decide)
  · exact absurd (ref.name_chars _ h) (by decide)
  · exact absurd (ref.blank_behind _ h) (by decide)

/-- A reference that begins in front of two braces ends in front of them. -/
theorem text_prefix (ref : Reference) {front back rest : List Char} (hne : front ≠ [])
    (h : front ++ '{' :: '{' :: back = ref.text ++ rest) : ref.text <+: front := by
  rcases List.append_eq_append_iff.mp h with ⟨tail, htext, hbraces⟩ | ⟨tail, hfront, -⟩
  · have hsuffix : tail <:+ '{' :: '{' :: ref.inside := ⟨front, htext.symm⟩
    have hnotMem := ref.brace_notMem_inside
    rcases List.suffix_cons_iff.mp hsuffix with rfl | hsuffix
    · exact absurd (List.append_left_eq_self.mp htext.symm) hne
    · rcases List.suffix_cons_iff.mp hsuffix with rfl | hinside
      · -- The first of the braces would be the second of the reference.
        obtain ⟨c, inside, hinside⟩ := List.exists_cons_of_ne_nil ref.inside_ne_nil
        rw [hinside] at hbraces hnotMem
        injection hbraces with _ hbraces
        injection hbraces with hc _
        exact absurd (hc ▸ List.mem_cons_self) hnotMem
      · cases tail with
        | nil =>
          rw [List.append_nil] at htext
          exact htext ▸ List.prefix_refl _
        | cons c tail =>
          injection hbraces with hc _
          exact absurd (hinside.subset (hc ▸ List.mem_cons_self)) hnotMem
  · exact ⟨tail, hfront.symm⟩

end Reference

/-! ### Reading a reference -/

/-- No name begins with white space, so white space ends where a name begins. -/
theorem not_blank_of_isNameChar {c : Char} (h : isNameChar c = true) : isBlank c = false := by
  have hrange : '0'.val ≤ c.val ∧ c.val ≤ '_'.val := by
    rw [isNameChar, Bool.or_eq_true, Bool.or_eq_true, beq_iff_eq] at h
    rcases h with (hupper | hdigit) | rfl
    · obtain ⟨hlow, hhigh⟩ : 'A'.val ≤ c.val ∧ c.val ≤ 'Z'.val := of_decide_eq_true hupper
      exact ⟨UInt32.le_trans (by decide) hlow, UInt32.le_trans hhigh (by decide)⟩
    · obtain ⟨hlow, hhigh⟩ := Bool.and_eq_true_iff.mp hdigit
      replace hhigh : c.val ≤ '9'.val := of_decide_eq_true hhigh
      exact ⟨of_decide_eq_true hlow, UInt32.le_trans hhigh (by decide)⟩
    · decide
  have hlow : 0x30 ≤ c.toNat := UInt32.le_iff_toNat_le.mp hrange.1
  have hhigh : c.toNat ≤ 0x5F := UInt32.le_iff_toNat_le.mp hrange.2
  simp only [isBlank, within, blankRanges, List.any_cons, List.any_nil, Bool.or_false,
    Bool.or_eq_false_iff, Bool.and_eq_false_imp, decide_eq_true_eq, decide_eq_false_iff_not, not_le]
  omega

/-- The stretch of a text up to the first character that fails a test. -/
theorem span_append {p : Char → Bool} {front : List Char} (hfront : ∀ c ∈ front, p c = true)
    (back : List Char) (hback : ∀ c ∈ back.head?, p c = false) :
    (front ++ back).takeWhile p = front ∧ (front ++ back).dropWhile p = back := by
  rw [List.takeWhile_append_of_pos hfront, List.dropWhile_append_of_pos hfront]
  cases back with
  | nil => simp
  | cons c back => simp [hback c rfl]

theorem reference?_text (ref : Reference) (rest : List Char) :
    reference? (ref.text ++ rest) = some (ref.name, rest) := by
  obtain ⟨first, others, hname⟩ := List.exists_cons_of_ne_nil ref.name_ne_nil
  have hbefore := span_append ref.blank_before (ref.name ++ (ref.behind ++ '}' :: '}' :: rest))
    (by
      rw [hname]
      rintro _ ⟨⟩
      exact not_blank_of_isNameChar (ref.name_chars _ (hname ▸ List.mem_cons_self)))
  have hnamed := span_append ref.name_chars (ref.behind ++ '}' :: '}' :: rest)
    (by
      intro c hc
      rw [List.head?_append] at hc
      rcases Option.or_eq_some_iff.mp hc with hblank | ⟨-, hbrace⟩
      · refine Bool.eq_false_iff.mpr fun hchar => ?_
        have hfalse := not_blank_of_isNameChar hchar
        rw [ref.blank_behind c (List.mem_of_mem_head? hblank)] at hfalse
        cases hfalse
      · cases hbrace
        decide)
  have hbehind := span_append ref.blank_behind ('}' :: '}' :: rest)
    (by
      rintro _ ⟨⟩
      decide)
  have htext : ref.text ++ rest =
      '{' :: '{' :: (ref.before ++ (ref.name ++ (ref.behind ++ '}' :: '}' :: rest))) := by
    simp [Reference.text, Reference.inside]
  rw [htext, reference?]
  simp only [hbefore.2, hnamed.1, hnamed.2, hbehind.2, List.isEmpty_iff, ref.name_ne_nil, if_false]

/-- The reference at the beginning of a text is read, and nothing else is taken for one. -/
theorem reference?_eq_some_iff {text name rest : List Char} :
    reference? text = some (name, rest) ↔
      ∃ ref : Reference, ref.name = name ∧ text = ref.text ++ rest := by
  constructor
  · intro h
    unfold reference? at h
    split at h
    next text =>
      simp only at h
      split at h
      next behind hclosing =>
        split at h
        · cases h
        · next hne =>
          obtain ⟨rfl, rfl⟩ := Prod.mk.inj (Option.some.inj h)
          refine ⟨⟨text.takeWhile isBlank, _, ((text.dropWhile isBlank).dropWhile
            isNameChar).takeWhile isBlank, fun c => List.mem_takeWhile_imp,
            List.isEmpty_iff.not.mp hne, fun c => List.mem_takeWhile_imp,
            fun c => List.mem_takeWhile_imp⟩, rfl, ?_⟩
          simp only [Reference.text, Reference.inside, List.cons_append, List.append_assoc,
            List.nil_append, ← hclosing, List.takeWhile_append_dropWhile]
      next => cases h
    next => cases h
  · rintro ⟨ref, rfl, rfl⟩
    exact reference?_text ref rest

/-- What is in front of a reference is read as if it stood alone. -/
theorem reference?_append {front : List Char} (hne : front ≠ []) (ref : Reference)
    (back : List Char) : reference? (front ++ (ref.text ++ back)) =
      (reference? front).map fun (name, rest) => (name, rest ++ (ref.text ++ back)) := by
  cases hfront : reference? front with
  | some found =>
    obtain ⟨other, hname, rfl⟩ := reference?_eq_some_iff.mp hfront
    rw [List.append_assoc]
    exact reference?_eq_some_iff.mpr ⟨other, hname, rfl⟩
  | none =>
    refine Option.eq_none_iff_forall_ne_some.mpr fun found hfound => ?_
    obtain ⟨other, -, hother⟩ := reference?_eq_some_iff.mp hfound
    obtain ⟨tail, rfl⟩ := other.text_prefix hne hother
    rw [reference?_text] at hfront
    cases hfront

/-! ### Filling in -/

section fill
variable {env : Environment}

theorem fill_of_reference {text name rest : List Char} (h : reference? text = some (name, rest)) :
    fill env text = value env name ++ fill env rest := by
  cases text with
  | nil => cases h
  | cons c text =>
    rw [fill]
    split
    · next found =>
      obtain ⟨rfl, rfl⟩ := Prod.mk.inj (Option.some.inj (found.symm.trans h))
      rfl
    · next found =>
      rw [h] at found
      cases found

theorem fill_of_none {c : Char} {rest : List Char} (h : reference? (c :: rest) = none) :
    fill env (c :: rest) = c :: fill env rest := by
  rw [fill]
  split
  · next found =>
    rw [h] at found
    cases found
  · rfl

/-- A reference parts a text in two, and gives way to its value. -/
theorem fill_append (front : List Char) (ref : Reference) (back : List Char) :
    fill env (front ++ (ref.text ++ back)) =
      fill env front ++ (value env ref.name ++ fill env back) := by
  fun_induction fill env front with
  | case1 => exact fill_of_reference (reference?_text ref back)
  | case2 c rest name behind hfound ih =>
    have happend := reference?_append (List.cons_ne_nil c rest) ref back
    rw [hfound, Option.map_some] at happend
    rw [fill_of_reference happend, ih, List.append_assoc]
  | case3 c rest hnone ih =>
    have happend := reference?_append (List.cons_ne_nil c rest) ref back
    rw [hnone, Option.map_none] at happend
    rw [List.cons_append] at happend ⊢
    rw [fill_of_none happend, ih, List.cons_append]

/-- A text without references. -/
def Plain (text : List Char) : Prop :=
  ∀ front (ref : Reference) back, text ≠ front ++ ref.text ++ back

/-- A text has no references if none of its ends begins with one. -/
theorem plain_iff {text : List Char} :
    Plain text ↔ ∀ rest ∈ text.tails, reference? rest = none := by
  constructor
  · intro h rest hrest
    obtain ⟨front, rfl⟩ := (List.mem_tails _ _).mp hrest
    refine Option.eq_none_iff_forall_ne_some.mpr fun found hfound => ?_
    obtain ⟨ref, -, rfl⟩ := reference?_eq_some_iff.mp hfound
    exact h front ref _ (List.append_assoc ..).symm
  · rintro h front ref back rfl
    rw [List.append_assoc] at h
    have hnone := h _ ((List.mem_tails _ _).mpr (List.suffix_append front _))
    rw [reference?_text] at hnone
    cases hnone

instance (text : List Char) : Decidable (Plain text) := decidable_of_iff _ plain_iff.symm

theorem fill_of_plain {text : List Char} (h : Plain text) : fill env text = text := by
  induction text with
  | nil => simp [fill]
  | cons c rest ih =>
    rw [plain_iff, List.tails_cons, List.forall_mem_cons] at h
    rw [fill_of_none h.1, ih (plain_iff.mpr h.2)]

end fill

/-- Every reference gives way to its value, whatever stands around it, and parts the text in front
of it from the text behind it; a text without references stays as it is. -/
theorem fill_references (env : Environment) :
    (∀ front (ref : Reference) back, fill env (front ++ ref.text ++ back) =
      fill env front ++ value env ref.name ++ fill env back) ∧
    ∀ text, Plain text → fill env text = text := by
  refine ⟨fun front ref back => ?_, fun text => fill_of_plain⟩
  rw [List.append_assoc, fill_append, List.append_assoc]

/-- Neither a brace in front of a reference nor a value that looks like one makes a difference. -/
theorem fill_references_braces :
    (Plain ['{'] ∧ Plain ['}', '}', '{', '{', 'B']) ∧
      fill [("A", "{{B}}"), ("B", "b")]
          (['{'] ++ "{{ A }}".toList ++ ['}', '}', '{', '{', 'B']) =
        ['{'] ++ "{{B}}".toList ++ ['}', '}', '{', '{', 'B'] := by
  let ref : Reference := ⟨[' '], ['A'], [' '], List.forall_mem_singleton.mpr rfl,
    List.cons_ne_nil _ _, List.forall_mem_singleton.mpr rfl, List.forall_mem_singleton.mpr rfl⟩
  have hplain : Plain ['{'] ∧ Plain ['}', '}', '{', '{', 'B'] := by decide
  obtain ⟨hreference, hrest⟩ := fill_references [("A", "{{B}}"), ("B", "b")]
  refine ⟨hplain, (hreference ['{'] ref ['}', '}', '{', '{', 'B']).trans ?_⟩
  rw [hrest _ hplain.1, hrest _ hplain.2]
  decide

end Routing.Config.Template
