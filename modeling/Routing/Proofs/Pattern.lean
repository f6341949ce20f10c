import Routing.Pattern
import Routing.Proofs.Text.Offsets

/-! What the reading of a pattern gives.

A path is literal text and marks, a `:` or `*` for each placeholder (`Text.marks`). A pattern is
cut where its path may be sliced, and the path up to each cut and to its end is a `Stop`
(`Shape.stops`). The stops are a chain: each goes one stretch further than the one before, and a
stretch is either one mark or literal text (`Pattern.reads_of_parse`). A mark comes behind
literal text, and literal text behind a mark begins with `/`. -/
namespace Routing

namespace Text

/-- Text without marks. -/
def Literal (text : List Char) : Prop := ':' ∉ text ∧ '*' ∉ text

instance (text : List Char) : Decidable (Literal text) :=
  inferInstanceAs (Decidable (':' ∉ text ∧ '*' ∉ text))

/-- How many placeholders a path has. -/
def marks (path : List Char) : Nat := path.count ':' + path.count '*'

theorem literal_append {front back : List Char} :
    Literal (front ++ back) ↔ Literal front ∧ Literal back := by
  simp only [Literal, List.mem_append, not_or]
  exact and_and_and_comm

theorem literal_singleton {c : Char} : Literal [c] ↔ c ≠ ':' ∧ c ≠ '*' := by
  simp only [Literal, List.mem_singleton]
  exact and_congr ⟨Ne.symm, Ne.symm⟩ ⟨Ne.symm, Ne.symm⟩

theorem getLast?_append {stretch : List Char} (hne : stretch ≠ []) (pre : List Char) :
    (pre ++ stretch).getLast? = some (stretch.getLast hne) := by
  rw [List.getLast?_append, List.getLast?_eq_some_getLast hne, Option.some_or]

theorem literal_getLast {text : List Char} (h : Literal text) (hne : text ≠ []) :
    Literal [text.getLast hne] :=
  literal_singleton.mpr
    ⟨fun heq => h.1 (heq ▸ List.getLast_mem hne), fun heq => h.2 (heq ▸ List.getLast_mem hne)⟩

theorem marks_append (front back : List Char) :
    marks (front ++ back) = marks front + marks back := by
  simp only [marks, List.count_append]
  omega

theorem marks_of_literal {text : List Char} (h : Literal text) : marks text = 0 := by
  rw [marks, List.count_eq_zero.mpr h.1, List.count_eq_zero.mpr h.2]

end Text

/-- A front of a path, and how the last stretch of it is matched. -/
structure Stop where
  kind : Kind
  path : List Char

namespace Stop
open Text

/-- The cut at which a front ends. -/
def cut (s : Stop) : Cut := ⟨s.kind, utf8Length s.path⟩

/-- What a stretch of this kind adds to the path in front of it. -/
def Adds (pre : List Char) : Kind → List Char → Prop
  | .static, stretch =>
    stretch.head? = some '/' ∧ Literal stretch ∧ (pre = [] ∨ pre.getLast? = some ':')
  | .param, stretch => stretch = [':'] ∧ ∃ c, pre.getLast? = some c ∧ Literal [c]
  | .wildcard, stretch => stretch = ['*'] ∧ ∃ c, pre.getLast? = some c ∧ Literal [c]

/-- Stops that each go one stretch further, from the path up to the one before them. -/
inductive Chain : List Char → List Stop → Prop
  | nil {pre : List Char} : Chain pre []
  | cons {pre stretch : List Char} {kind : Kind} {rest : List Stop} :
    Adds pre kind stretch → Chain (pre ++ stretch) rest → Chain pre (⟨kind, pre ++ stretch⟩ :: rest)

theorem Adds.ne_nil {pre stretch : List Char} {kind : Kind} (h : Adds pre kind stretch) :
    stretch ≠ [] := by
  rintro rfl
  cases kind with
  | static => cases h.1
  | param => cases h.1
  | wildcard => cases h.1

/-- The beginning of a chain is one. -/
theorem Chain.of_append {pre : List Char} {front : List Stop} {stop : Stop} {back : List Stop}
    (h : Chain pre (front ++ stop :: back)) : Chain pre (front ++ [stop]) := by
  induction front generalizing pre with
  | nil =>
    cases h with
    | cons hadds _ => exact .cons hadds .nil
  | cons cut front ih =>
    cases h with
    | cons hadds hrest => exact .cons hadds (ih hrest)

theorem Chain.exists_append {pre : List Char} {stops : List Stop} (h : Chain pre stops)
    {stop : Stop} (hstop : stop ∈ stops) : ∃ rest, stop.path = pre ++ rest := by
  induction h with
  | nil => cases hstop
  | @cons pre stretch _ _ _ _ ih =>
    rcases List.mem_cons.mp hstop with rfl | hstop
    · exact ⟨stretch, rfl⟩
    · obtain ⟨rest, hrest⟩ := ih hstop
      exact ⟨stretch ++ rest, by rw [hrest, List.append_assoc]⟩

/-- Each cut of a chain is a front of what comes behind it. -/
theorem Chain.prefix_last {pre : List Char} {cuts : List Stop} {last : Stop}
    (h : Chain pre (cuts ++ [last])) : ∀ cut ∈ cuts, cut.path <+: last.path := by
  induction cuts generalizing pre with
  | nil => simp
  | cons cut rest ih =>
    cases h with
    | cons hadds hrest =>
      obtain ⟨back, hback⟩ :=
        hrest.exists_append (List.mem_append_right _ (List.mem_singleton_self _))
      exact List.forall_mem_cons.mpr ⟨⟨back, hback.symm⟩, ih hrest⟩

theorem Chain.exists_head {pre : List Char} {cuts : List Stop} {last : Stop}
    (h : Chain pre (cuts ++ [last])) :
    ∃ kind stretch rest, Adds pre kind stretch ∧ last.path = pre ++ stretch ++ rest := by
  cases cuts with
  | nil =>
    cases h with
    | cons hadds _ => exact ⟨_, _, [], hadds, (List.append_nil _).symm⟩
  | cons cut cuts =>
    cases h with
    | cons hadds hrest =>
      obtain ⟨rest, hlast⟩ :=
        hrest.exists_append (List.mem_append_right _ (List.mem_singleton_self _))
      exact ⟨_, _, rest, hadds, hlast⟩

/-- The path is cut in front of a mark or behind one. -/
theorem Chain.exists_mark {pre : List Char} {cuts : List Stop} {last : Stop}
    (h : Chain pre (cuts ++ [last])) : ∀ cut ∈ cuts, ∃ front mark rest, ¬ Literal [mark] ∧
      last.path = front ++ mark :: rest ∧
        (cut.path = front ++ [mark] ∨ front ≠ [] ∧ cut.path = front) := by
  induction cuts generalizing pre with
  | nil => simp
  | cons cut cuts ih =>
    cases h with
    | @cons _ stretch kind _ hadds hrest =>
      refine List.forall_mem_cons.mpr ⟨?_, ih hrest⟩
      have hne : pre ++ stretch ≠ [] := List.append_ne_nil_of_right_ne_nil _ hadds.ne_nil
      obtain ⟨next, stretch', rest, hnext, hlast⟩ := hrest.exists_head
      cases next with
      | static =>
        -- What follows a parameter is cut off behind its mark.
        obtain ⟨front, hfront⟩ := List.getLast?_eq_some_iff.mp (hnext.2.2.resolve_left hne)
        refine ⟨front, ':', stretch' ++ rest, by decide, ?_, .inl hfront⟩
        rw [hlast, hfront]
        simp
      | param =>
        obtain ⟨rfl, -⟩ := hnext
        exact ⟨_, ':', rest, by decide, by simp [hlast], .inr ⟨hne, rfl⟩⟩
      | wildcard =>
        obtain ⟨rfl, -⟩ := hnext
        exact ⟨_, '*', rest, by decide, by simp [hlast], .inr ⟨hne, rfl⟩⟩

end Stop

namespace Shape
open Text Stop

/-- The path up to each cut. -/
def scaffolds (shape : Shape) : List Stop :=
  shape.cuts.map fun cut => ⟨cut.kind, ((cut? shape.path cut.offset).map Prod.fst).getD []⟩

/-- The path up to each cut, and all of it. -/
def stops (shape : Shape) : List Stop := shape.scaffolds ++ [⟨shape.terminal, shape.path⟩]

/-- Slicing a path at the ends of some of its fronts gives these. -/
theorem scaffolds_eq {shape : Shape} {stops : List Stop} (hcuts : shape.cuts = stops.map Stop.cut)
    (hfronts : ∀ stop ∈ stops, stop.path <+: shape.path) : shape.scaffolds = stops := by
  rw [scaffolds, hcuts, List.map_map]
  refine (List.map_congr_left fun stop hstop => ?_).trans (List.map_id _)
  obtain ⟨back, hback⟩ := hfronts stop hstop
  rw [Function.comp_apply, ← hback, Stop.cut, cut?_append]
  rfl

/-- What is read of a pattern behind a path: its placeholders are counted, and it is cut where
they stand, from the last cut in that path on. -/
structure Reads (pre path : List Char) (shape : Shape) : Prop where
  params : shape.params.length = marks shape.path
  chain : ∃ stops, Chain pre (stops ++ [⟨shape.terminal, path ++ shape.path⟩]) ∧
    shape.cuts = stops.map Stop.cut

theorem adds_param {pre stretch : List Char} (h : Adds pre .static stretch) :
    Adds (pre ++ stretch) .param [':'] :=
  ⟨rfl, _, getLast?_append h.ne_nil pre, literal_getLast h.2.1 h.ne_nil⟩

theorem adds_wildcard {pre stretch : List Char} (h : Adds pre .static stretch) :
    Adds (pre ++ stretch) .wildcard ['*'] :=
  ⟨rfl, _, getLast?_append h.ne_nil pre, literal_getLast h.2.1 h.ne_nil⟩

theorem adds_behind_param (pre : List Char) : Adds (pre ++ [':']) .static ['/'] :=
  ⟨rfl, literal_singleton.mpr (by decide), .inr List.getLast?_concat⟩

theorem reads_wildcard {pre stretch rest : List Char} {shape : Shape} (h : Adds pre .static stretch)
    (hread : wildcard? (utf8Length (pre ++ stretch)) rest = some shape) :
    Reads pre (pre ++ stretch) shape := by
  rw [wildcard?] at hread
  split at hread
  · cases hread
  · cases hread
    exact ⟨rfl, [⟨.static, pre ++ stretch⟩], .cons h (.cons (adds_wildcard h) .nil), rfl⟩

mutual

theorem reads_literal {pre stretch : List Char} {shape : Shape} (h : Adds pre .static stretch) :
    ∀ text, literal? (utf8Length (pre ++ stretch)) text = some shape →
      Reads pre (pre ++ stretch) shape
  | [], hread => by
    cases hread
    refine ⟨rfl, [], ?_, rfl⟩
    rw [List.append_nil]
    exact .cons h .nil
  | c :: rest, hread => by
    by_cases hparam : c = ':'
    · subst hparam
      exact reads_param h [] rest hread
    by_cases hwildcard : c = '*'
    · subst hwildcard
      exact reads_wildcard h hread
    have hc : Literal [c] := literal_singleton.mpr ⟨hparam, hwildcard⟩
    have hlonger : Adds pre .static (stretch ++ [c]) := by
      refine ⟨?_, literal_append.mpr ⟨h.2.1, hc⟩, h.2.2⟩
      rw [List.head?_append, h.1, Option.some_or]
    have hoffset : utf8Length (pre ++ (stretch ++ [c])) =
        utf8Length (pre ++ stretch) + c.utf8Size := by
      rw [← List.append_assoc, utf8Length_append (pre ++ stretch), utf8Length_cons, utf8Length_nil,
        Nat.add_zero]
    rw [literal?.eq_4 _ _ _ hparam hwildcard, ← hoffset] at hread
    obtain ⟨inner, hinner, rfl⟩ := Option.map_eq_some_iff.mp hread
    obtain ⟨hparams, stops, hchain, hcuts⟩ := reads_literal hlonger rest hinner
    refine ⟨?_, stops, ?_, hcuts⟩
    · have hmarks : marks (c :: inner.path) = marks [c] + marks inner.path :=
        marks_append [c] inner.path
      rw [hmarks, marks_of_literal hc, Nat.zero_add]
      exact hparams
    · rw [← List.append_assoc, ← List.append_cons] at hchain
      exact hchain

theorem reads_param {pre stretch : List Char} {shape : Shape} (h : Adds pre .static stretch) :
    ∀ name text, param? (utf8Length (pre ++ stretch)) name text = some shape →
      Reads pre (pre ++ stretch) shape
  | name, [], hread => by
    cases hread
    exact ⟨rfl, [⟨.static, pre ++ stretch⟩], .cons h (.cons (adds_param h) .nil), rfl⟩
  | name, c :: rest, hread => by
    by_cases hc : c = '/'
    · subst hc
      have hmark : utf8Length (pre ++ stretch ++ [':']) = utf8Length (pre ++ stretch) + 1 :=
        utf8Length_append ..
      have hoffset : utf8Length (pre ++ stretch ++ [':'] ++ ['/']) =
          utf8Length (pre ++ stretch) + 2 := by
        rw [utf8Length_append, hmark]
        rfl
      rw [param?, ← hoffset] at hread
      obtain ⟨inner, hinner, rfl⟩ := Option.map_eq_some_iff.mp hread
      obtain ⟨hparams, stops, hchain, hcuts⟩ :=
        reads_literal (adds_behind_param (pre ++ stretch)) rest hinner
      refine ⟨?_, ⟨.static, pre ++ stretch⟩ :: ⟨.param, pre ++ stretch ++ [':']⟩ :: stops, ?_, ?_⟩
      · have hmarks : marks (':' :: '/' :: inner.path) = 1 + marks inner.path :=
          marks_append [':', '/'] inner.path
        rw [hmarks, List.length_cons, hparams, Nat.add_comm]
      · rw [List.append_assoc _ ['/'], List.append_assoc _ [':']] at hchain
        exact .cons h (.cons (adds_param h) hchain)
      · rw [List.map_cons, List.map_cons, ← hcuts, Stop.cut, Stop.cut, hmark]
    · rw [param?.eq_3 _ _ _ _ hc] at hread
      exact reads_param h (name ++ [c]) rest hread

end

end Shape

namespace Pattern
open Text Stop

theorem normalize_slash (text : String) : ∃ rest, (normalize text).toList = '/' :: rest := by
  unfold normalize
  split
  · next h => exact List.head?_eq_some_iff.mp h
  · exact ⟨text.toList, String.toList_ofList ..⟩

theorem normalize_normalize (text : String) : normalize (normalize text) = normalize text := by
  obtain ⟨rest, h⟩ := normalize_slash text
  exact if_pos (by rw [h]; rfl)

theorem parse_normalize (text : String) : parse (normalize text) = parse text := by
  rw [parse, parse, normalize_normalize]

theorem text_of_parse {text : String} {pattern : Pattern} (h : parse text = .ok pattern) :
    pattern.text = normalize text := by
  rw [parse] at h
  split at h
  · cases h
    rfl
  · cases h

theorem slash_of_parse {text : String} {pattern : Pattern} (h : parse text = .ok pattern) :
    ∃ rest, pattern.text.toList = '/' :: rest :=
  text_of_parse h ▸ normalize_slash text

/-- A pattern's text is a pattern, and the same one. -/
theorem parse_text {text : String} {pattern : Pattern} (h : parse text = .ok pattern) :
    parse pattern.text = .ok pattern ∧ pattern.text ≠ "" := by
  have htext := text_of_parse h
  refine ⟨?_, fun hempty => ?_⟩
  · rw [htext]
    rw [parse] at h ⊢
    rw [normalize_normalize]
    exact h
  · obtain ⟨rest, hrest⟩ := normalize_slash text
    rw [← htext, hempty] at hrest
    cases hrest

/-- The stops of a pattern are a chain up to its whole path, and its cuts are at their ends. -/
structure Staged (pattern : Pattern) : Prop where
  chain : Chain [] pattern.stops
  cuts : pattern.cuts = pattern.scaffolds.map Stop.cut

/-- The path may be sliced at the cuts. -/
theorem Staged.onBoundary {pattern : Pattern} (h : pattern.Staged) :
    ∀ cut ∈ pattern.cuts, OnBoundary pattern.path cut.offset := by
  intro cut hcut
  rw [h.cuts] at hcut
  obtain ⟨stop, hstop, rfl⟩ := List.mem_map.mp hcut
  obtain ⟨back, hback⟩ := h.chain.prefix_last stop hstop
  rw [show pattern.path = stop.path ++ back from hback.symm]
  exact onBoundary_append stop.path back

/-- A pattern has a name for every placeholder of its path, and is cut where its stops end. -/
theorem reads_of_parse {text : String} {pattern : Pattern} (h : parse text = .ok pattern) :
    pattern.params.length = marks pattern.path ∧ pattern.Staged := by
  obtain ⟨rest, hrest⟩ := normalize_slash text
  rw [parse, hrest] at h
  split at h
  · next shape hshape =>
    cases h
    rw [Shape.literal?.eq_4 _ _ _ (by decide) (by decide)] at hshape
    obtain ⟨inner, hinner, rfl⟩ := Option.map_eq_some_iff.mp hshape
    have hstart : Adds [] .static ['/'] := ⟨rfl, literal_singleton.mpr (by decide), .inl rfl⟩
    obtain ⟨hparams, stops, hchain, hcuts⟩ := Shape.reads_literal hstart rest hinner
    have hscaffolds : Shape.scaffolds { inner with path := '/' :: inner.path } = stops :=
      Shape.scaffolds_eq hcuts hchain.prefix_last
    refine ⟨hparams, ?_, ?_⟩
    · rw [Shape.stops, hscaffolds]
      exact hchain
    · rw [hscaffolds]
      exact hcuts
  · cases h

end Pattern

end Routing
