import Routing.Text.Shared

/-! Offsets in bytes and texts in characters.

`sharedLength` compares bytes and steps back to the beginning of a character. It comes out
where the two texts part as sequences of characters (`sharedLength_eq`), and cutting a text
there gives the two parts (`cut?_append`): what the trie does by offsets it does by
characters. An offset at which a text can be cut is one at which its bytes may be sliced
(`onBoundary_iff`). -/
namespace Routing.Text

/-! ### Lengths -/

theorem utf8_append (left right : List Char) : utf8 (left ++ right) = utf8 left ++ utf8 right :=
  List.flatMap_append

@[simp] theorem utf8Length_nil : utf8Length [] = 0 := rfl

theorem utf8Length_cons (c : Char) (text : List Char) :
    utf8Length (c :: text) = c.utf8Size + utf8Length text := by
  rw [utf8Length, utf8, List.flatMap_cons, List.length_append, String.length_utf8EncodeChar]
  rfl

theorem utf8Length_append (left right : List Char) :
    utf8Length (left ++ right) = utf8Length left + utf8Length right := by
  rw [utf8Length, utf8_append, List.length_append]
  rfl

theorem utf8Length_eq_zero {text : List Char} : utf8Length text = 0 ↔ text = [] := by
  cases text with
  | nil => simp
  | cons c text =>
    have := c.utf8Size_pos
    simp only [utf8Length_cons, reduceCtorEq, iff_false]
    omega

theorem utf8Length_lt_append {front back : List Char} :
    utf8Length front < utf8Length (front ++ back) ↔ back ≠ [] := by
  rw [utf8Length_append, Ne, ← utf8Length_eq_zero]
  omega

theorem cut?_append (front back : List Char) :
    cut? (front ++ back) (utf8Length front) = some (front, back) := by
  induction front with
  | nil => simp [cut?]
  | cons c front ih =>
    obtain ⟨size, hsize⟩ : ∃ size, c.utf8Size = size + 1 :=
      ⟨c.utf8Size - 1, by have := c.utf8Size_pos; omega⟩
    rw [utf8Length_cons, hsize, Nat.add_right_comm, List.cons_append, cut?, hsize,
      if_pos (by omega),
      show size + utf8Length front + 1 - (size + 1) = utf8Length front by omega, ih]
    rfl

theorem cut?_eq_some {text front back : List Char} {offset : Nat} :
    cut? text offset = some (front, back) ↔ text = front ++ back ∧ offset = utf8Length front := by
  constructor
  · intro h
    fun_induction cut? text offset generalizing front with
    | case1 text =>
      obtain ⟨rfl, rfl⟩ := Prod.mk.inj (Option.some.inj h)
      exact ⟨rfl, rfl⟩
    | case2 => cases h
    | case3 c text offset hsize ih =>
      obtain ⟨⟨rest, back⟩, hrest, heq⟩ := Option.map_eq_some_iff.mp h
      obtain ⟨rfl, rfl⟩ := Prod.mk.inj heq
      obtain ⟨rfl, hoffset⟩ := ih hrest
      refine ⟨rfl, ?_⟩
      rw [utf8Length_cons]
      omega
    | case4 => cases h
  · rintro ⟨rfl, rfl⟩
    exact cut?_append front back

theorem ne_nil_of_cut? {text front back : List Char} {offset : Nat}
    (h : cut? text offset = some (front, back)) (hlt : offset < utf8Length text) : back ≠ [] := by
  obtain ⟨rfl, rfl⟩ := cut?_eq_some.mp h
  exact utf8Length_lt_append.mp hlt

theorem cut?_offsetOf (c : Char) (text : List Char) :
    cut? text (offsetOf c text) = some (text.takeWhile (· ≠ c), text.dropWhile (· ≠ c)) := by
  have hcut := cut?_append (text.takeWhile (· ≠ c)) (text.dropWhile (· ≠ c))
  rw [List.takeWhile_append_dropWhile] at hcut
  exact hcut

theorem offsetOf_eq_zero {c : Char} {text : List Char} :
    offsetOf c text = 0 ↔ text.takeWhile (· ≠ c) = [] := utf8Length_eq_zero

/-! ### The bytes of a character -/

theorem continues_tail (n : Nat) : continues (UInt8.ofNat (n % 0x40 + 0x80)) = true := by
  have tail : ∀ m < 0x40, continues (UInt8.ofNat (m + 0x80)) = true := by decide
  exact tail _ (Nat.mod_lt _ (by decide))

theorem continues_ascii {n : Nat} (h : n ≤ 0x7f) : continues (UInt8.ofNat n) = false := by
  have head : ∀ m < 0x80, continues (UInt8.ofNat m) = false := by decide
  exact head n (by omega)

theorem continues_head (n : Nat) : continues (UInt8.ofNat (n % 0x20 + 0xc0)) = false ∧
    continues (UInt8.ofNat (n % 0x10 + 0xe0)) = false ∧
    continues (UInt8.ofNat (n % 0x08 + 0xf0)) = false := by
  have two : ∀ m < 0x20, continues (UInt8.ofNat (m + 0xc0)) = false := by decide
  have three : ∀ m < 0x10, continues (UInt8.ofNat (m + 0xe0)) = false := by decide
  have four : ∀ m < 0x08, continues (UInt8.ofNat (m + 0xf0)) = false := by decide
  exact ⟨two _ (Nat.mod_lt _ (by decide)), three _ (Nat.mod_lt _ (by decide)),
    four _ (Nat.mod_lt _ (by decide))⟩

/-- The first byte of a character begins it and the others continue it. -/
theorem bytes_of_char (c : Char) : ∃ first rest, String.utf8EncodeChar c = first :: rest ∧
    continues first = false ∧ ∀ b ∈ rest, continues b = true := by
  fun_cases String.utf8EncodeChar c with
  | case1 v h => exact ⟨_, _, rfl, continues_ascii h, by simp⟩
  | case2 v =>
    refine ⟨_, _, rfl, (continues_head _).1, ?_⟩
    simp only [List.forall_mem_cons, continues_tail, List.not_mem_nil, false_imp_iff,
      implies_true, and_self]
  | case3 v =>
    refine ⟨_, _, rfl, (continues_head _).2.1, ?_⟩
    simp only [List.forall_mem_cons, continues_tail, List.not_mem_nil, false_imp_iff,
      implies_true, and_self]
  | case4 v =>
    refine ⟨_, _, rfl, (continues_head _).2.2, ?_⟩
    simp only [List.forall_mem_cons, continues_tail, List.not_mem_nil, false_imp_iff,
      implies_true, and_self]

theorem encode_injective {c d : Char} {left right : List UInt8}
    (h : String.utf8EncodeChar c ++ left = String.utf8EncodeChar d ++ right) : c = d := by
  have hc := ByteArray.utf8DecodeChar?_utf8EncodeChar_append (b := left.toByteArray) (c := c)
  have hd := ByteArray.utf8DecodeChar?_utf8EncodeChar_append (b := right.toByteArray) (c := d)
  rw [← List.toByteArray_append, h, List.toByteArray_append, hd] at hc
  exact (Option.some.inj hc).symm

/-! ### The order of bytes -/

theorem codePoint_lt (c : Char) : c.val.toNat < 0x110000 := by
  rcases c.valid with h | ⟨-, h⟩
  · exact Nat.lt_trans h (by decide)
  · exact h

theorem cons_byte_lt {m n : Nat} (hm : m < 256) (hn : n < 256) (left right : List UInt8) :
    UInt8.ofNat m :: left < UInt8.ofNat n :: right ↔ m < n ∨ m = n ∧ left < right := by
  rw [List.cons_lt_cons_iff, UInt8.lt_iff_toNat_lt, ← UInt8.toNat_inj, UInt8.toNat_ofNat',
    UInt8.toNat_ofNat', Nat.mod_eq_of_lt hm, Nat.mod_eq_of_lt hn]

/-- Characters in order have their bytes in order, whatever follows. -/
theorem encode_lt {c d : Char} (h : c < d) (left right : List UInt8) :
    String.utf8EncodeChar c ++ left < String.utf8EncodeChar d ++ right := by
  have hlt : c.val.toNat < d.val.toNat := h
  have hd := codePoint_lt d
  simp only [String.utf8EncodeChar]
  generalize c.val.toNat = v at *
  generalize d.val.toNat = w at *
  have hdiv (n : Nat) : n / 4096 = n / 64 / 64 ∧ n / 262144 = n / 64 / 64 / 64 := by
    rw [Nat.div_div_eq_div_mul, Nat.div_div_eq_div_mul]
    exact ⟨rfl, rfl⟩
  simp only [hdiv]
  -- A shorter encoding has a smaller first byte, and in one as long the bytes are digits.
  repeat' split
  all_goals
    simp (disch := omega) only [List.cons_append, List.nil_append, cons_byte_lt]
    omega

/-- Texts in order have their bytes in order. -/
theorem utf8_lt {left right : List Char} (h : left < right) : utf8 left < utf8 right := by
  induction left generalizing right with
  | nil =>
    cases right with
    | nil => cases h
    | cons d right =>
      obtain ⟨first, rest, hbytes, -⟩ := bytes_of_char d
      rw [utf8, utf8, List.flatMap_cons, hbytes]
      exact List.nil_lt_cons ..
  | cons c left ih =>
    cases right with
    | nil => cases h
    | cons d right =>
      rw [utf8, utf8, List.flatMap_cons, List.flatMap_cons]
      rcases List.cons_lt_cons_iff.mp h with hlt | ⟨rfl, hlt⟩
      · exact encode_lt hlt ..
      · exact List.append_left_lt (ih hlt)

/-! ### Where two texts part -/

/-- Two texts that have nothing in common at their beginning. -/
def Parted (left right : List Char) : Prop :=
  ∀ c l d r, left = c :: l → right = d :: r → c ≠ d

theorem fork_spec (left right : List Char) :
    left = (fork left right).shared ++ (fork left right).left ∧
      right = (fork left right).shared ++ (fork left right).right ∧
      Parted (fork left right).left (fork left right).right := by
  fun_induction fork left right with
  | case1 left a right rest ih =>
    obtain ⟨hl, hr, hp⟩ := ih
    exact ⟨congrArg (a :: ·) hl, congrArg (a :: ·) hr, hp⟩
  | case2 a left b right hne =>
    refine ⟨rfl, rfl, ?_⟩
    rintro c l d r ⟨rfl, rfl⟩ ⟨rfl, rfl⟩
    exact hne
  | case3 left right hne =>
    refine ⟨rfl, rfl, ?_⟩
    rintro c l d r rfl rfl
    exact (hne c l d r rfl rfl).elim

theorem sharedBytes_nil_left (right : List UInt8) : sharedBytes [] right = 0 := by
  rw [sharedBytes]
  simp

theorem sharedBytes_nil_right (left : List UInt8) : sharedBytes left [] = 0 := by
  rw [sharedBytes]
  simp

theorem sharedBytes_append (front left right : List UInt8) :
    sharedBytes (front ++ left) (front ++ right) = front.length + sharedBytes left right := by
  induction front with
  | nil => simp
  | cons b front ih =>
    rw [List.cons_append, List.cons_append, sharedBytes, if_pos rfl, ih, List.length_cons]
    omega

theorem prefix_of_le_sharedBytes (front left right : List UInt8)
    (h : front.length ≤ sharedBytes (front ++ left) right) : ∃ rest, front ++ rest = right := by
  induction front generalizing right with
  | nil => exact ⟨right, rfl⟩
  | cons b front ih =>
    cases right with
    | nil => simp [sharedBytes] at h
    | cons d right =>
      rw [List.cons_append, sharedBytes] at h
      split at h
      · next heq =>
        subst heq
        obtain ⟨rest, rfl⟩ := ih right (by simpa using h)
        exact ⟨rest, rfl⟩
      · simp at h

theorem boundaryBelow_eq {bytes : List UInt8} {low : Nat}
    (hlow : low = 0 ∨ isBoundary bytes low = true) :
    ∀ offset, low ≤ offset → (∀ j, low < j → j ≤ offset → isBoundary bytes j = false) →
      boundaryBelow bytes offset = low
  | 0, hle, _ => by
    rw [boundaryBelow]
    omega
  | offset + 1, hle, hno => by
    rw [boundaryBelow]
    by_cases heq : low = offset + 1
    · have hat : isBoundary bytes (offset + 1) = true := by
        rcases hlow with h | h
        · omega
        · rwa [← heq]
      rw [if_pos hat, heq]
    · rw [if_neg (by simp [hno (offset + 1) (by omega) (by omega)])]
      exact boundaryBelow_eq hlow offset (by omega) fun j hj hle => hno j hj (by omega)

/-- Two characters whose bytes agree as far as the first goes are the same. -/
theorem sharedBytes_lt {c d : Char} (h : c ≠ d) (left right : List Char) :
    sharedBytes (utf8 (c :: left)) (utf8 (d :: right)) < c.utf8Size := by
  rw [← String.length_utf8EncodeChar]
  refine Nat.lt_of_not_le fun hle => ?_
  obtain ⟨rest, hrest⟩ := prefix_of_le_sharedBytes (String.utf8EncodeChar c) (utf8 left)
    (utf8 (d :: right)) hle
  exact h (encode_injective hrest)

theorem continues_of_inside {c : Char} {offset : Nat} (hpos : 0 < offset)
    (h : offset < c.utf8Size) (rest : List UInt8) :
    ∃ b back, (String.utf8EncodeChar c ++ rest).drop offset = b :: back ∧ continues b = true := by
  obtain ⟨first, others, hbytes, -, hothers⟩ := bytes_of_char c
  have hsize : others.length + 1 = c.utf8Size := by
    rw [← String.length_utf8EncodeChar, hbytes, List.length_cons]
  obtain ⟨k, rfl⟩ : ∃ k, offset = k + 1 := ⟨offset - 1, by omega⟩
  have hk : k < others.length := by omega
  refine ⟨others[k], others.drop (k + 1) ++ rest, ?_, hothers _ (List.getElem_mem hk)⟩
  rw [hbytes, List.cons_append, List.drop_succ_cons, List.drop_append_of_le_length (by omega),
    List.drop_eq_getElem_cons hk]
  rfl

/-- Boundaries behind a text are those of what follows it. -/
theorem isBoundary_behind (front text : List Char) (offset : Nat) :
    isBoundary (utf8 (front ++ text)) (utf8Length front + offset) =
      isBoundary (utf8 text) offset := by
  have hdrop : (utf8 (front ++ text)).drop (utf8Length front + offset) =
      (utf8 text).drop offset := by
    rw [utf8_append, utf8Length, ← List.drop_drop, List.drop_left]
  rw [isBoundary, isBoundary, hdrop, utf8_append, List.length_append, utf8Length]
  cases (utf8 text).drop offset with
  | nil =>
    rw [Bool.eq_iff_iff, beq_iff_eq, beq_iff_eq]
    exact Nat.add_left_cancel_iff
  | cons b rest => rfl

/-- A text begins with a boundary, and there is none inside its first character. -/
theorem isBoundary_append (front text : List Char) :
    isBoundary (utf8 (front ++ text)) (utf8Length front) = true ∧
      ∀ c rest, text = c :: rest → ∀ j, 0 < j → j < c.utf8Size →
        isBoundary (utf8 (front ++ text)) (utf8Length front + j) = false := by
  constructor
  · have hzero := isBoundary_behind front text 0
    rw [Nat.add_zero] at hzero
    rw [hzero, isBoundary, List.drop_zero]
    cases text with
    | nil => rfl
    | cons c rest =>
      obtain ⟨first, others, hbytes, hfirst, -⟩ := bytes_of_char c
      rw [utf8, List.flatMap_cons, hbytes]
      simp [hfirst]
  · rintro c rest rfl j hpos hj
    obtain ⟨b, back, hback, hb⟩ := continues_of_inside hpos hj (utf8 rest)
    have hinside : (utf8 (c :: rest)).drop j = b :: back := by
      rw [← hback, utf8, List.flatMap_cons]
      rfl
    rw [isBoundary_behind, isBoundary, hinside]
    simp [hb]

/-- Compared by bytes, two texts have in common what they have in common by characters. -/
theorem sharedLength_eq (left right : List Char) :
    sharedLength left right = utf8Length (fork left right).shared := by
  obtain ⟨hleft, hright, hparted⟩ := fork_spec left right
  generalize (fork left right).shared = shared at *
  generalize (fork left right).left = l at *
  generalize (fork left right).right = r at *
  subst hleft hright
  obtain ⟨hat, hinside⟩ := isBoundary_append shared l
  have hshared : sharedBytes (utf8 (shared ++ l)) (utf8 (shared ++ r)) =
      utf8Length shared + sharedBytes (utf8 l) (utf8 r) := by
    rw [utf8_append, utf8_append, sharedBytes_append]
    rfl
  rw [sharedLength, hshared]
  apply boundaryBelow_eq (.inr hat) _ (Nat.le_add_right ..)
  intro j hlow hle
  -- Beyond the shared characters only bytes of one character can agree.
  cases l with
  | nil =>
    rw [utf8, List.flatMap_nil, sharedBytes_nil_left] at hle
    omega
  | cons c l =>
    cases r with
    | nil =>
      rw [utf8, utf8, List.flatMap_nil, sharedBytes_nil_right] at hle
      omega
    | cons d r =>
      have hlt := sharedBytes_lt (hparted c l d r rfl rfl) l r
      have hj := hinside c l rfl (j - utf8Length shared) (by omega) (by omega)
      rwa [Nat.add_sub_of_le (by omega)] at hj

/-- Two characters that begin with the same byte have nothing in common. -/
example : sharedBytes (utf8 ['/', 'é']) (utf8 ['/', 'è']) = 2 ∧
    sharedLength ['/', 'é'] ['/', 'è'] = 1 := by decide

/-- Two texts where they part, at the offset that the trie computes. -/
theorem exists_shared (left right : List Char) : ∃ shared l r, left = shared ++ l ∧
    right = shared ++ r ∧ Parted l r ∧ sharedLength left right = utf8Length shared := by
  obtain ⟨hleft, hright, hparted⟩ := fork_spec left right
  exact ⟨_, _, _, hleft, hright, hparted, sharedLength_eq left right⟩

/-- A text and a front of it part behind the front. -/
theorem sharedLength_append (front back : List Char) :
    sharedLength (front ++ back) front = utf8Length front := by
  obtain ⟨shared, l, r, hleft, hright, hparted, hlength⟩ := exists_shared (front ++ back) front
  have hl : l = r ++ back := by
    rw [hright, List.append_assoc, List.append_cancel_left_eq] at hleft
    exact hleft.symm
  have hr : r = [] := by
    cases r with
    | nil => rfl
    | cons c r => exact (hparted c (r ++ back) c r hl rfl rfl).elim
  rw [hlength, hright, hr, List.append_nil]

theorem sharedLength_nil (text : List Char) : sharedLength text [] = 0 := by
  obtain ⟨shared, left, right, -, htext, -, hlength⟩ := exists_shared text []
  rw [hlength, utf8Length_eq_zero]
  exact (List.append_eq_nil_iff.mp htext.symm).1

/-! ### Slicing -/

/-- An offset at which a text may be sliced: it is within the text, and a character begins there
or the text ends. -/
structure OnBoundary (text : List Char) (offset : Nat) : Prop where
  within : offset ≤ utf8Length text
  boundary : isBoundary (utf8 text) offset = true

theorem onBoundary_append (front back : List Char) :
    OnBoundary (front ++ back) (utf8Length front) where
  within := by
    rw [utf8Length_append]
    exact Nat.le_add_right ..
  boundary := (isBoundary_append front back).1

/-- A text may be sliced where it can be cut, and nowhere else. -/
theorem onBoundary_iff {text : List Char} {offset : Nat} :
    OnBoundary text offset ↔ ∃ front back, cut? text offset = some (front, back) := by
  simp only [cut?_eq_some]
  constructor
  · intro h
    induction text generalizing offset with
    | nil => exact ⟨[], [], rfl, Nat.le_zero.mp h.within⟩
    | cons c text ih =>
      rcases Nat.eq_zero_or_pos offset with rfl | hpos
      · exact ⟨[], c :: text, rfl, rfl⟩
      rcases Nat.lt_or_ge offset c.utf8Size with hinside | hbehind
      · have hno := (isBoundary_append [] (c :: text)).2 c text rfl offset hpos hinside
        rw [utf8Length_nil, Nat.zero_add, List.nil_append, h.boundary] at hno
        cases hno
      · obtain ⟨rest, rfl⟩ := Nat.exists_eq_add_of_le hbehind
        have hwithin := h.within
        have hboundary := isBoundary_behind [c] text rest
        rw [utf8Length_cons, utf8Length_nil, Nat.add_zero, List.singleton_append, h.boundary]
          at hboundary
        rw [utf8Length_cons] at hwithin
        obtain ⟨front, back, rfl, rfl⟩ := ih ⟨Nat.le_of_add_le_add_left hwithin, hboundary.symm⟩
        exact ⟨c :: front, back, rfl, (utf8Length_cons c front).symm⟩
  · rintro ⟨front, back, rfl, rfl⟩
    exact onBoundary_append front back

/-- Both texts may be sliced where they part. -/
theorem onBoundary_sharedLength (left right : List Char) :
    OnBoundary left (sharedLength left right) ∧ OnBoundary right (sharedLength left right) := by
  obtain ⟨shared, l, r, rfl, rfl, -, hlength⟩ := exists_shared left right
  rw [hlength]
  exact ⟨onBoundary_append shared l, onBoundary_append shared r⟩

theorem onBoundary_offsetOf (c : Char) (text : List Char) : OnBoundary text (offsetOf c text) :=
  onBoundary_iff.mpr ⟨_, _, cut?_offsetOf c text⟩

/-- What is left of a text behind an offset at which it may be sliced. -/
def Tail (text rest : List Char) : Prop :=
  ∃ offset front, OnBoundary text offset ∧ cut? text offset = some (front, rest)

theorem tail_iff {text rest : List Char} : Tail text rest ↔ rest <:+ text := by
  constructor
  · rintro ⟨offset, front, -, hcut⟩
    exact ⟨front, (cut?_eq_some.mp hcut).1.symm⟩
  · rintro ⟨front, rfl⟩
    exact ⟨_, front, onBoundary_append front rest, cut?_append front rest⟩

theorem Tail.refl (text : List Char) : Tail text text := tail_iff.mpr (List.suffix_refl text)

theorem Tail.trans {text rest last : List Char} (h : Tail text rest) (h' : Tail rest last) :
    Tail text last := tail_iff.mpr ((tail_iff.mp h').trans (tail_iff.mp h))

end Routing.Text
