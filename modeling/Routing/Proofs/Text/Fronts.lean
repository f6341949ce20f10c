import Routing.Proofs.Text.Offsets

/-! The front that two texts have in common.

The characters in front of the place where two texts part are the greatest front of both: whatever
both texts begin with, these begin with it too (`prefix_shared_iff`). Bytes tell the same: where a
text may be sliced, its bytes in front are whole characters, and another text that has those bytes
has those characters (`prefix_of_bytesBefore_eq`). So it does not matter from which of two texts
the step back to a boundary is taken (`sharedLength_longest`). -/
namespace Routing.Text

/-- A text begins with the bytes of another if it begins with its characters. -/
theorem utf8_prefix_iff {front text : List Char} : utf8 front <+: utf8 text ↔ front <+: text := by
  constructor
  · intro h
    induction front generalizing text with
    | nil => exact List.nil_prefix
    | cons c front ih =>
      obtain ⟨rest, hrest⟩ := h
      cases text with
      | nil =>
        obtain ⟨first, others, hbytes, -⟩ := bytes_of_char c
        rw [utf8, List.flatMap_cons, hbytes] at hrest
        cases hrest
      | cons d text =>
        rw [utf8, utf8, List.flatMap_cons, List.flatMap_cons, List.append_assoc] at hrest
        obtain rfl := encode_injective hrest
        exact List.cons_prefix_cons.mpr ⟨rfl, ih ⟨rest, List.append_cancel_left hrest⟩⟩
  · rintro ⟨back, rfl⟩
    rw [utf8_append]
    exact List.prefix_append ..

theorem utf8Length_le {front text : List Char} (h : front <+: text) :
    utf8Length front ≤ utf8Length text := (utf8_prefix_iff.mpr h).length_le

section shared
variable {front left right : List Char}

/-- What two texts share is the greatest front of both. -/
theorem prefix_shared_iff :
    front <+: (fork left right).shared ↔ front <+: left ∧ front <+: right := by
  obtain ⟨hleft, hright, hparted⟩ := fork_spec left right
  generalize (fork left right).shared = shared at *
  constructor
  · intro h
    exact ⟨h.trans ⟨_, hleft.symm⟩, h.trans ⟨_, hright.symm⟩⟩
  · rintro ⟨⟨behind, hl⟩, ⟨behind', hr⟩⟩
    rw [hleft] at hl
    rw [hright] at hr
    rcases List.append_eq_append_iff.mp hl with ⟨rest, hshared, -⟩ | ⟨rest, hfront, hrest⟩
    · exact ⟨rest, hshared.symm⟩
    · -- A front that goes on behind the shared part goes on with the same character in both texts.
      subst hfront
      rw [List.append_assoc] at hr
      have hrest' := List.append_cancel_left hr
      cases rest with
      | nil => exact ⟨[], by simp⟩
      | cons c rest => exact (hparted c _ c _ hrest hrest'.symm rfl).elim

theorem shared_comm : (fork left right).shared = (fork right left).shared := by
  have hboth (left right : List Char) : (fork left right).shared <+: (fork right left).shared :=
    prefix_shared_iff.mpr (prefix_shared_iff.mp (List.prefix_refl _)).symm
  exact (hboth left right).eq_of_length_le (hboth right left).length_le

end shared

/-- The bytes in front of an offset. -/
def bytesBefore (text : List Char) (offset : Nat) : List UInt8 := (utf8 text).take offset

theorem bytesBefore_append (front back : List Char) :
    bytesBefore (front ++ back) (utf8Length front) = utf8 front := by
  rw [bytesBefore, utf8_append, utf8Length, List.take_left]

/-- A text that has the bytes in front of a boundary of another has the characters. -/
theorem prefix_of_bytesBefore_eq {left right : List Char} {offset : Nat}
    (h : OnBoundary left offset) (hbytes : bytesBefore left offset = bytesBefore right offset) :
    ∃ front, front <+: left ∧ front <+: right ∧ offset = utf8Length front := by
  obtain ⟨front, back, hcut⟩ := onBoundary_iff.mp h
  obtain ⟨rfl, rfl⟩ := cut?_eq_some.mp hcut
  refine ⟨front, List.prefix_append .., utf8_prefix_iff.mp ?_, rfl⟩
  rw [← bytesBefore_append front back, hbytes]
  exact List.take_prefix ..

/-- A length in bytes up to which two texts agree and may be sliced, and beyond which they agree up
to no place where one of them may be. -/
structure LongestFront (left right : List Char) (length : Nat) : Prop where
  boundary : OnBoundary left length ∧ OnBoundary right length
  agree : bytesBefore left length = bytesBefore right length
  longest : ∀ offset, OnBoundary left offset ∨ OnBoundary right offset →
    bytesBefore left offset = bytesBefore right offset → offset ≤ length

theorem longestFront_of_greatest {left right front : List Char}
    (h : ∀ other, other <+: front ↔ other <+: left ∧ other <+: right) :
    LongestFront left right (utf8Length front) := by
  obtain ⟨⟨behind, rfl⟩, ⟨behind', rfl⟩⟩ := (h front).mp (List.prefix_refl front)
  refine ⟨⟨onBoundary_append .., onBoundary_append ..⟩, ?_, fun offset hoffset hbytes => ?_⟩
  · rw [bytesBefore_append, bytesBefore_append]
  · rcases hoffset with hleft | hright
    · obtain ⟨other, hl, hr, rfl⟩ := prefix_of_bytesBefore_eq hleft hbytes
      exact utf8Length_le ((h other).mpr ⟨hl, hr⟩)
    · obtain ⟨other, hr, hl, rfl⟩ := prefix_of_bytesBefore_eq hright hbytes.symm
      exact utf8Length_le ((h other).mpr ⟨hl, hr⟩)

/-- The length at which two texts part is that of the longest front of both. It is a boundary of
both texts, their bytes agree up to it and up to no boundary behind it, and it is the same whichever
text comes first. -/
theorem sharedLength_longest (left right : List Char) :
    (∃ front, sharedLength left right = utf8Length front ∧
      ∀ other, other <+: front ↔ other <+: left ∧ other <+: right) ∧
    LongestFront left right (sharedLength left right) ∧
    sharedLength left right = sharedLength right left := by
  have hlength := sharedLength_eq left right
  refine ⟨⟨_, hlength, fun other => prefix_shared_iff⟩, ?_, ?_⟩
  · rw [hlength]
    exact longestFront_of_greatest fun other => prefix_shared_iff
  · rw [hlength, sharedLength_eq right left, shared_comm]

/-- Two characters with the same first bytes: the bytes in common go beyond the front. -/
example : sharedBytes (utf8 ['€', '₫']) (utf8 ['€', '₭']) = 5 ∧
    sharedLength ['€', '₫'] ['€', '₭'] = 3 := by decide

end Routing.Text
