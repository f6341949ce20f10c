import Mathlib.Data.List.Chain
import Routing.Proofs.Pattern.Pieces

/-! Which texts are patterns, and what is read of them.

A text is refused where a `/` follows a `*`, and for nothing else; a `*` that a `:` takes for its
name does not count. The path of a pattern that is accepted tells everything else about it: how it
ends, how many names there are and where it is cut (`Pattern.parse_accepts`). -/
namespace Routing

namespace Text

/-! ### Names aside -/

/-- What is left of a text when each `:` swallows what stands behind it, up to the next `/`. -/
def unswallowed (swallowing : Bool) : List Char → List Char
  | [] => []
  | c :: rest =>
    if c = '/' then c :: unswallowed false rest
    else if swallowing || c == ':' then unswallowed true rest
    else c :: unswallowed false rest

/-- A `/` follows the first `*` that is left. -/
def StarInside (text : List Char) : Prop :=
  '/' ∈ (unswallowed false text).dropWhile (· ≠ '*')

instance (text : List Char) : Decidable (StarInside text) :=
  inferInstanceAs (Decidable ('/' ∈ (unswallowed false text).dropWhile (· ≠ '*')))

theorem mem_dropWhile {p : Char → Bool} {c : Char} (h : p c = false) {text : List Char} :
    c ∈ text.dropWhile p ↔ c ∈ text := by
  refine ⟨fun hc => (List.dropWhile_suffix p).subset hc, fun hc => ?_⟩
  rw [← List.takeWhile_append_dropWhile (p := p) (l := text), List.mem_append] at hc
  refine hc.resolve_left fun hfront => ?_
  rw [List.mem_takeWhile_imp hfront] at h
  cases h

theorem mem_trim {c : Char} (h : isBlank c = false) {text : List Char} :
    c ∈ trim text ↔ c ∈ text := by
  rw [trim, List.mem_reverse, mem_dropWhile h, List.mem_reverse, mem_dropWhile h]

/-- No `/` is swallowed. -/
theorem slash_mem_unswallowed (swallowing : Bool) (text : List Char) :
    '/' ∈ unswallowed swallowing text ↔ '/' ∈ text := by
  induction text generalizing swallowing with
  | nil => rfl
  | cons c rest ih =>
    rw [unswallowed]
    split
    · next hslash => simp [hslash]
    · next hslash =>
      rw [List.mem_cons, or_iff_right (Ne.symm hslash)]
      split
      · exact ih true
      · rw [List.mem_cons, or_iff_right (Ne.symm hslash)]
        exact ih false

end Text

namespace Shape
open Text

/-- Reading fails at a `*` that is not part of a name, with a `/` behind it. -/
theorem read_eq_none_iff (text : List Char) :
    (∀ offset, literal? offset text = none ↔ StarInside text) ∧
      ∀ offset name, param? offset name text = none ↔
        '/' ∈ (unswallowed true text).dropWhile (· ≠ '*') := by
  induction text with
  | nil => exact ⟨fun offset => by simp [literal?, StarInside, unswallowed],
      fun offset name => by simp [param?, unswallowed]⟩
  | cons c rest ih =>
    obtain ⟨hliteral, hparam⟩ := ih
    refine ⟨fun offset => ?_, fun offset name => ?_⟩
    · by_cases hcolon : c = ':'
      · subst hcolon
        rw [literal?, hparam]
        rfl
      by_cases hstar : c = '*'
      · subst hstar
        have hname : '/' ∈ trim rest ↔ '/' ∈ rest := mem_trim (by decide)
        rw [literal?, wildcard?, StarInside, unswallowed]
        simp [hname, slash_mem_unswallowed]
      rw [literal?.eq_4 _ _ _ hcolon hstar, Option.map_eq_none_iff, hliteral, StarInside,
        StarInside, unswallowed]
      by_cases hslash : c = '/' <;> simp [hslash, hcolon, hstar]
    · by_cases hslash : c = '/'
      · subst hslash
        rw [param?, Option.map_eq_none_iff, hliteral, StarInside, unswallowed]
        simp
      · rw [param?.eq_3 _ _ _ _ hslash, hparam, unswallowed]
        simp [hslash]

end Shape

namespace Cut
open Text

/-! ### Where a path is cut -/

/-- The cuts of a path that begins at an offset: one in front of each mark, and one behind each `:`
that something follows. -/
def around (offset : Nat) : List Char → List Cut
  | [] => []
  | c :: rest =>
    (if c = ':' ∨ c = '*' then [⟨.static, offset⟩] else []) ++
      (if c = ':' ∧ rest ≠ [] then [⟨.param, offset + 1⟩] else []) ++
        around (offset + c.utf8Size) rest

theorem around_literal {stretch : List Char} (h : Literal stretch) (offset : Nat)
    (rest : List Char) :
    around offset (stretch ++ rest) = around (offset + utf8Length stretch) rest := by
  induction stretch generalizing offset with
  | nil => rfl
  | cons c stretch ih =>
    obtain ⟨hc, hstretch⟩ := literal_append.mp (show Literal ([c] ++ stretch) from h)
    obtain ⟨hcolon, hstar⟩ := literal_singleton.mp hc
    rw [List.cons_append, around, if_neg (by simp [hcolon, hstar]), if_neg (by simp [hcolon]),
      ih hstretch, List.nil_append, List.nil_append, utf8Length_cons, Nat.add_assoc]

end Cut

namespace Stop
open Text

/-- Literal text may begin here. -/
def Seam (path : List Char) : Prop := path = [] ∨ path.getLast? = some ':'

/-- The path ends in literal text. -/
def EndsLiteral (path : List Char) : Prop := ∃ c, path.getLast? = some c ∧ Literal [c]

theorem EndsLiteral.not_seam {path : List Char} (h : EndsLiteral path) : ¬ Seam path := by
  obtain ⟨c, hc, hliteral⟩ := h
  rintro (rfl | hcolon)
  · cases hc
  · obtain rfl := Option.some.inj (hc.symm.trans hcolon)
    exact hliteral.1 (List.mem_singleton_self _)

theorem endsLiteral_append {stretch : List Char} (h : Literal stretch) (hne : stretch ≠ [])
    (path : List Char) : EndsLiteral (path ++ stretch) :=
  ⟨_, getLast?_append hne path, literal_getLast h hne⟩

theorem not_endsLiteral_mark {mark : Char} (h : mark = ':' ∨ mark = '*') (path : List Char) :
    ¬ EndsLiteral (path ++ [mark]) := by
  rintro ⟨c, hc, hliteral⟩
  rw [List.getLast?_concat] at hc
  obtain rfl := Option.some.inj hc
  obtain ⟨hcolon, hstar⟩ := literal_singleton.mp hliteral
  exact h.elim hcolon hstar

theorem not_seam_star (path : List Char) : ¬ Seam (path ++ ['*']) := by
  rintro (hnil | hcolon)
  · simp at hnil
  · simp at hcolon

/-- The cuts of a chain are those around the marks of what it leads over. Where it begins in front
of a mark, the cut there is the one before the chain. -/
theorem Chain.around_eq {pre : List Char} {stops : List Stop} {last : Stop}
    (h : Chain pre (stops ++ [last])) : ∃ rest, last.path = pre ++ rest ∧ rest ≠ [] ∧
      (Seam pre ∧ Cut.around (utf8Length pre) rest = stops.map Stop.cut ∨
        EndsLiteral pre ∧ Cut.around (utf8Length pre) rest =
          ⟨.static, utf8Length pre⟩ :: stops.map Stop.cut) := by
  induction stops generalizing pre with
  | nil =>
    cases h with
    | @cons _ stretch kind _ hadds _ =>
      refine ⟨stretch, rfl, hadds.ne_nil, ?_⟩
      cases kind with
      | static =>
        obtain ⟨-, hliteral, hpre⟩ := hadds
        have haround := Cut.around_literal hliteral (utf8Length pre) []
        rw [List.append_nil] at haround
        exact .inl ⟨hpre, haround⟩
      | param =>
        obtain ⟨rfl, hpre⟩ := hadds
        exact .inr ⟨hpre, rfl⟩
      | wildcard =>
        obtain ⟨rfl, hpre⟩ := hadds
        exact .inr ⟨hpre, rfl⟩
  | cons stop stops ih =>
    cases h with
    | @cons _ stretch kind _ hadds hrest =>
      obtain ⟨rest, hlast, hne, hcuts⟩ := ih hrest
      refine ⟨stretch ++ rest, by rw [hlast, List.append_assoc], by simp [hne], ?_⟩
      rw [utf8Length_append] at hcuts
      cases kind with
      | static =>
        have hends := endsLiteral_append hadds.2.1 hadds.ne_nil pre
        obtain ⟨-, haround⟩ := hcuts.resolve_left fun h => hends.not_seam h.1
        refine .inl ⟨hadds.2.2, ?_⟩
        rw [Cut.around_literal hadds.2.1, haround, List.map_cons, Stop.cut, utf8Length_append]
      | param =>
        obtain ⟨rfl, hpre⟩ := hadds
        obtain ⟨-, haround⟩ := hcuts.resolve_right fun h => not_endsLiteral_mark (.inl rfl) pre h.1
        refine .inr ⟨hpre, ?_⟩
        rw [List.singleton_append, Cut.around, if_pos (.inl rfl), if_pos ⟨rfl, hne⟩, List.map_cons,
          Stop.cut, utf8Length_append, ← haround]
        rfl
      | wildcard =>
        obtain ⟨rfl, -⟩ := hadds
        rcases hcuts with ⟨hseam, -⟩ | ⟨hends, -⟩
        · exact (not_seam_star pre hseam).elim
        · exact (not_endsLiteral_mark (.inr rfl) pre hends).elim

/-- Each stop of a chain is behind the one before it. -/
theorem Chain.offset_lt {pre : List Char} {stops : List Stop} (h : Chain pre stops) :
    (∀ stop ∈ stops, utf8Length pre < stop.cut.offset) ∧
      (stops.map fun stop => stop.cut.offset).Pairwise (· < ·) := by
  induction h with
  | nil => simp
  | @cons pre stretch kind rest hadds _ ih =>
    obtain ⟨hbehind, hordered⟩ := ih
    have hlonger : utf8Length pre < utf8Length (pre ++ stretch) :=
      utf8Length_lt_append.mpr hadds.ne_nil
    refine ⟨List.forall_mem_cons.mpr ⟨hlonger, fun stop hstop => ?_⟩, ?_⟩
    · exact Nat.lt_trans hlonger (hbehind stop hstop)
    · rw [List.map_cons, List.pairwise_cons, List.forall_mem_map]
      exact ⟨hbehind, hordered⟩

/-- What follows a `:` is a `/`. -/
def ColonSlash (path : List Char) : Prop := path.IsChain fun c next => c = ':' → next = '/'

theorem Adds.colonSlash {pre stretch : List Char} {kind : Kind} (h : Adds pre kind stretch)
    (hpre : ColonSlash pre) : ColonSlash (pre ++ stretch) := by
  -- A mark comes behind literal text, so the `:` before it is not the last character.
  have hmark (mark : Char) (hends : EndsLiteral pre) : ColonSlash (pre ++ [mark]) := by
    refine List.isChain_append.mpr ⟨hpre, .singleton mark, fun c hc next _ heq => ?_⟩
    subst heq
    exact (hends.not_seam (.inr hc)).elim
  cases kind with
  | static =>
    obtain ⟨hslash, hliteral, -⟩ := h
    have hstretch : ColonSlash stretch := by
      refine (List.pairwise_of_forall_mem_list fun c hc next _ heq => ?_).isChain
      subst heq
      exact (hliteral.1 hc).elim
    refine List.isChain_append.mpr ⟨hpre, hstretch, fun c _ next hnext _ => ?_⟩
    rw [hslash] at hnext
    exact (Option.some.inj hnext).symm
  | param =>
    obtain ⟨rfl, hends⟩ := h
    exact hmark ':' hends
  | wildcard =>
    obtain ⟨rfl, hends⟩ := h
    exact hmark '*' hends

theorem Chain.colonSlash {pre : List Char} {stops : List Stop} (h : Chain pre stops)
    (hpre : ColonSlash pre) : ∀ stop ∈ stops, ColonSlash stop.path := by
  induction h with
  | nil => simp
  | cons hadds _ ih =>
    have hnext := hadds.colonSlash hpre
    exact List.forall_mem_cons.mpr ⟨hnext, ih hnext⟩

/-- How a path is matched at its end shows in its last character. -/
theorem Adds.kind_eq {pre stretch : List Char} {kind : Kind} (h : Adds pre kind stretch) :
    kind = match (pre ++ stretch).getLast? with
      | some ':' => .param
      | some '*' => .wildcard
      | _ => .static := by
  cases kind with
  | static =>
    obtain ⟨hcolon, hstar⟩ := literal_singleton.mp (literal_getLast h.2.1 h.ne_nil)
    rw [getLast?_append h.ne_nil]
    split <;> simp_all
  | param =>
    obtain ⟨rfl, -⟩ := h
    rw [List.getLast?_concat]
    rfl
  | wildcard =>
    obtain ⟨rfl, -⟩ := h
    rw [List.getLast?_concat]
    rfl

theorem Chain.exists_adds {pre : List Char} {stops : List Stop} (h : Chain pre stops) :
    ∀ stop ∈ stops, ∃ front stretch, stop.path = front ++ stretch ∧
      Adds front stop.kind stretch := by
  induction h with
  | nil => simp
  | @cons pre stretch _ _ hadds _ ih =>
    exact List.forall_mem_cons.mpr ⟨⟨pre, stretch, rfl, hadds⟩, ih⟩

end Stop

namespace Pattern
open Text Stop

/-- What the path of a pattern looks like, and what follows from it. -/
structure Regular (pattern : Pattern) : Prop where
  slash : pattern.path.head? = some '/'
  /-- Only at its end is there a `*`. -/
  star : '*' ∉ pattern.path.dropLast
  colon : ∀ front rest, pattern.path = front ++ ':' :: rest → rest = [] ∨ rest.head? = some '/'
  terminal : pattern.terminal = match pattern.path.getLast? with
    | some ':' => .param
    | some '*' => .wildcard
    | _ => .static
  params : pattern.params.length = pattern.path.count ':' + pattern.path.count '*'
  cuts : pattern.cuts = Cut.around 0 pattern.path
  boundary : ∀ cut ∈ pattern.cuts, OnBoundary pattern.path cut.offset
  ordered : (pattern.cuts.map Cut.offset).Pairwise (· < ·)
  within : ∀ cut ∈ pattern.cuts, 0 < cut.offset ∧ cut.offset < utf8Length pattern.path
  /-- The pattern's own text reads as the pattern. -/
  again : parse pattern.text = .ok pattern

theorem regular_of_parse {text : String} {pattern : Pattern} (h : parse text = .ok pattern) :
    pattern.Regular := by
  obtain ⟨hparams, hstaged⟩ := reads_of_parse h
  have hchain := hstaged.chain
  obtain ⟨hbehind, hordered⟩ := hchain.offset_lt
  have hend : (⟨pattern.terminal, pattern.path⟩ : Stop) ∈ pattern.stops :=
    List.mem_append_right _ (List.mem_singleton_self _)
  rw [Shape.stops, List.map_append, List.pairwise_append] at hordered
  refine ⟨?slash, (made h).star_notMem_dropLast, ?colon, ?terminal, hparams, ?cuts,
    hstaged.onBoundary, ?ordered, fun cut hcut => ?within, (parse_text h).1⟩
  case slash =>
    obtain ⟨kind, stretch, rest, hadds, hpath⟩ := hchain.exists_head
    rw [show pattern.path = stretch ++ rest from hpath, List.head?_append]
    cases kind with
    | static => rw [hadds.1, Option.some_or]
    | param | wildcard =>
      obtain ⟨-, c, hc, -⟩ := hadds
      cases hc
  case colon =>
    intro front rest hpath
    have hchained : ColonSlash pattern.path := hchain.colonSlash .nil _ hend
    rw [hpath] at hchained
    cases rest with
    | nil => exact .inl rfl
    | cons c rest =>
      have hbehind := (List.isChain_append.mp hchained).2.1
      exact .inr (congrArg some ((List.isChain_cons_cons.mp hbehind).1 rfl))
  case terminal =>
    obtain ⟨front, stretch, hpath, hadds⟩ := hchain.exists_adds _ hend
    rw [show pattern.path = front ++ stretch from hpath]
    exact hadds.kind_eq
  case cuts =>
    obtain ⟨rest, hpath, -, hcuts⟩ := hchain.around_eq
    obtain rfl : pattern.path = rest := hpath
    rw [hstaged.cuts]
    exact (hcuts.resolve_right fun h => h.1.not_seam (.inl rfl)).2.symm
  case ordered =>
    rw [hstaged.cuts, List.map_map]
    exact hordered.1
  case within =>
    rw [hstaged.cuts] at hcut
    obtain ⟨stop, hstop, rfl⟩ := List.mem_map.mp hcut
    exact ⟨hbehind stop (List.mem_append_left _ hstop),
      hordered.2.2 _ (List.mem_map_of_mem hstop) _ (List.mem_singleton_self _)⟩

/-- A text is refused exactly where a `/` follows a `*` that no name has taken. If not, it is a
pattern, and all of the pattern can be told from its path. -/
theorem parse_accepts (text : String) :
    match parse text with
    | .error e => StarInside (normalize text).toList ∧ e = .textAfterWildcard (normalize text) ∧
      e.kind = .invalidPattern
    | .ok pattern => ¬ StarInside (normalize text).toList ∧ pattern.text = normalize text ∧
      pattern.Regular := by
  have hnone := (Shape.read_eq_none_iff (normalize text).toList).1 0
  cases hparse : parse text with
  | error e =>
    rw [parse] at hparse
    split at hparse
    · cases hparse
    · next hread =>
      obtain rfl := Except.error.inj hparse
      exact ⟨hnone.mp hread, rfl, rfl⟩
  | ok pattern =>
    refine ⟨fun hstar => ?_, text_of_parse hparse, regular_of_parse hparse⟩
    rw [parse, hnone.mpr hstar] at hparse
    cases hparse

/-- A `*` may be part of a name, and then anything may follow it. -/
example : StarInside "/a/*b:c/d".toList ∧ ¬ StarInside "/a/:*b/d".toList := by decide

end Pattern

end Routing
