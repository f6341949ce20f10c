import Routing.Proofs.Trie.Canonical
import Routing.Proofs.Trie.Locate

/-! All the ways that a path may go.

At a node with text left a path may go on with any child: a static one whose text comes next, a
parameter if there is a segment for it, a wildcard. `Tree.Way` has all of these, in no order. The
recursion takes one of them (`Tree.way_of_enter`), and gives up only where there is none
(`Formed.no_way`), so nothing that it passes by could have been a match. A search leaves the
captures of the way it has found, and of no other (`Holds.search?_eq_enter`). -/
namespace Routing.Trie
variable {H : Type}

/-- What is left of a path behind a node that it comes to. Only static nodes match text of
their own. -/
def Tree.passes (n : Tree H) (path : List Char) : Option (List Char) :=
  if n.content.kind = .static then Text.after? n.content.text path else some path

theorem Tree.enter_eq {n : Tree H} {path rest : List Char} (h : n.passes path = some rest) :
    n.enter path = n.seek rest := by
  show (n.passes path).bind n.seek = _
  rw [h, Option.bind_some]

/-- A path that comes to a node may end at another, with these texts captured. -/
inductive Tree.Way : Tree H → List Char → Tree H → List (List Char) → Prop
  | here {n : Tree H} {path : List Char} : n.passes path = some [] → n.accepts = true →
    Way n path n []
  | static {n m found : Tree H} {path rest : List Char} {texts : List (List Char)} :
    n.passes path = some rest → rest ≠ [] → m ∈ n.children → m.content.kind = .static →
    Way m rest found texts → Way n path found texts
  | param {n m found : Tree H} {path rest : List Char} {texts : List (List Char)} :
    n.passes path = some rest → rest.takeWhile (· ≠ '/') ≠ [] → m ∈ n.children →
    m.content.kind = .param → Way m (rest.dropWhile (· ≠ '/')) found texts →
    Way n path found (rest.takeWhile (· ≠ '/') :: texts)
  | wildcard {n m : Tree H} {path rest : List Char} :
    n.passes path = some rest → rest ≠ [] → m ∈ n.children → m.content.kind = .wildcard →
    Way n path m [rest]

/-! ### The recursion takes a way -/

namespace Tree

section found
variable {n found : Tree H} {path rest : List Char} {texts : List (List Char)}
  (ih : ∀ m ∈ n.children, ∀ {path : List Char} {texts : List (List Char)},
    m.enter path = some (found, texts) → m.Way path found texts)
  (hpass : n.passes path = some rest)
include ih hpass

theorem way_of_static (hne : rest ≠ []) (h : n.static rest = some (found, texts)) :
    n.Way path found texts := by
  obtain ⟨m, hchild, henter⟩ := Option.bind_eq_some_iff.mp h
  obtain ⟨hm, htest⟩ := child?_mem hchild
  have hkind : m.content.kind = .static := eq_of_beq (Bool.and_eq_true_iff.mp htest).2
  exact .static hpass hne hm hkind (ih m hm henter)

theorem way_of_param (h : n.param rest = some (found, texts)) : n.Way path found texts := by
  obtain ⟨m, hchild, h⟩ := Option.bind_eq_some_iff.mp h
  obtain ⟨hm, htest⟩ := child?_mem hchild
  split at h
  · cases h
  · next hsegment =>
    obtain ⟨⟨found', texts'⟩, henter, heq⟩ := Option.map_eq_some_iff.mp h
    obtain ⟨rfl, rfl⟩ := Prod.mk.inj heq
    exact .param hpass hsegment hm (eq_of_beq htest) (ih m hm henter)

omit ih in
theorem way_of_wildcard (hne : rest ≠ []) (h : n.wildcard rest = some (found, texts)) :
    n.Way path found texts := by
  obtain ⟨m, hchild, heq⟩ := Option.map_eq_some_iff.mp h
  obtain ⟨rfl, rfl⟩ := Prod.mk.inj heq
  obtain ⟨hm, htest⟩ := child?_mem hchild
  exact .wildcard hpass hne hm (eq_of_beq htest)

end found

/-- What the recursion finds is the end of a way, and it captures what the way does. -/
theorem way_of_enter {n found : Tree H} {path : List Char} {texts : List (List Char)}
    (h : n.enter path = some (found, texts)) : n.Way path found texts := by
  induction n using Tree.induction generalizing path texts with
  | step slot content children ih =>
    generalize hn : node slot content children = n at *
    have hbelow : ∀ m ∈ n.children, ∀ {path : List Char} {texts : List (List Char)},
        m.enter path = some (found, texts) → m.Way path found texts := by
      rw [← hn]
      exact fun m hm => ih m hm
    obtain ⟨rest, hpass, hseek⟩ := Option.bind_eq_some_iff.mp h
    cases rest with
    | nil =>
      rw [seek_nil] at hseek
      split at hseek
      · next haccepts =>
        obtain ⟨rfl, rfl⟩ := Prod.mk.inj (Option.some.inj hseek)
        exact .here hpass haccepts
      · cases hseek
    | cons c rest =>
      have hne : c :: rest ≠ [] := List.cons_ne_nil c rest
      rw [seek_cons, Option.or_eq_some_iff, Option.or_eq_some_iff] at hseek
      rcases hseek with hstatic | ⟨-, hparam | ⟨-, hwildcard⟩⟩
      · exact way_of_static hbelow hpass hne hstatic
      · exact way_of_param hbelow hpass hparam
      · exact way_of_wildcard hpass hne hwildcard

end Tree

/-! ### And there is none that it misses -/

/-- The only child that passes a test is the first. -/
theorem Tree.child?_eq_some {n m : Tree H} (hm : m ∈ n.children) {test : Content H → Bool}
    (htest : test m.content = true)
    (honly : ∀ m' ∈ n.children, test m'.content = true → m' = m) : n.child? test = some m :=
  Assoc.find?_eq_some_of_only hm htest honly

namespace Part
variable {whole n m found : Tree H} {C : Context H} {path rest : List Char}
  {texts : List (List Char)}

theorem static_eq (h : Part whole C n) (hm : m ∈ n.children) (hkind : m.content.kind = .static)
    (hlabel : labelOf path = m.content.label) : n.static path = m.enter path := by
  have hchild : (n.child? fun c => c.label == labelOf path && c.kind == .static) = some m := by
    refine Tree.child?_eq_some hm (by simp [hkind, hlabel]) fun m' hm' htest => ?_
    have hlabel' := eq_of_beq (Bool.and_eq_true_iff.mp htest).1
    exact Tree.eq_of_label_eq h.top hm' hm (hlabel'.trans hlabel)
  rw [Tree.static, hchild, Option.bind_some]

theorem param_eq (h : Part whole C n) (hm : m ∈ n.children) (hkind : m.content.kind = .param)
    (hsegment : path.takeWhile (· ≠ '/') ≠ []) : n.param path =
      behind [path.takeWhile (· ≠ '/')] (m.enter (path.dropWhile (· ≠ '/'))) := by
  have hchild : n.child? (·.kind == .param) = some m :=
    Tree.child?_eq_some hm (beq_iff_eq.mpr hkind) fun _ hm' htest =>
      h.eq_of_kind hm hm' hkind (eq_of_beq htest) (by decide)
  rw [Tree.param, hchild, Option.bind_some, if_neg hsegment]
  rfl

theorem wildcard_eq (h : Part whole C n) (hm : m ∈ n.children)
    (hkind : m.content.kind = .wildcard) : n.wildcard path = some (m, [path]) := by
  have hchild : n.child? (·.kind == .wildcard) = some m :=
    Tree.child?_eq_some hm (beq_iff_eq.mpr hkind) fun _ hm' htest =>
      h.eq_of_kind hm hm' hkind (eq_of_beq htest) (by decide)
  rw [Tree.wildcard, hchild, Option.map_some]

/-- A static child whose text comes next is labelled with the next character. -/
theorem labelOf_eq (h : Part whole C n) (hm : m ∈ n.children) (hkind : m.content.kind = .static)
    (hpass : m.passes path = some rest) : labelOf path = m.content.label := by
  obtain ⟨text, htext⟩ := (h.child_sound hm).text_eq
  rw [Tree.passes, if_pos hkind] at hpass
  rw [Text.after?_eq_some.mp hpass, htext]
  rfl

end Part

/-- A way begins with passing the node that the path comes to. -/
theorem Tree.Way.exists_passes {n found : Tree H} {path : List Char} {texts : List (List Char)}
    (h : n.Way path found texts) : ∃ rest, n.passes path = some rest := by
  cases h with
  | here hpass => exact ⟨_, hpass⟩
  | static hpass => exact ⟨_, hpass⟩
  | param hpass => exact ⟨_, hpass⟩
  | wildcard hpass => exact ⟨_, hpass⟩

/-- Where there is a way the recursion does not give up. -/
theorem Part.enter_ne_none {whole n found : Tree H} {C : Context H} (h : Part whole C n)
    {path : List Char} {texts : List (List Char)} (hway : n.Way path found texts) :
    n.enter path ≠ none := by
  induction hway generalizing C with
  | here hpass haccepts =>
    rw [Tree.enter_eq hpass, Tree.seek_nil, haccepts]
    exact Option.some_ne_none _
  | static hpass hne hm hkind hway ih =>
    obtain ⟨D, hD, -⟩ := h.child hm
    obtain ⟨c, rest, rfl⟩ := List.exists_cons_of_ne_nil hne
    obtain ⟨left, hleft⟩ := hway.exists_passes
    rw [Tree.enter_eq hpass, Tree.seek_cons, h.static_eq hm hkind (h.labelOf_eq hm hkind hleft)]
    exact fun hnone => ih hD (Option.or_eq_none_iff.mp hnone).1
  | @param n m found path rest texts hpass hsegment hm hkind hway ih =>
    obtain ⟨D, hD, -⟩ := h.child hm
    cases rest with
    | nil => exact (hsegment rfl).elim
    | cons c rest =>
      rw [Tree.enter_eq hpass, Tree.seek_cons, h.param_eq hm hkind hsegment]
      intro hnone
      have hparam := (Option.or_eq_none_iff.mp (Option.or_eq_none_iff.mp hnone).2).1
      exact ih hD (Option.map_eq_none_iff.mp hparam)
  | wildcard hpass hne hm hkind =>
    obtain ⟨c, rest, rfl⟩ := List.exists_cons_of_ne_nil hne
    rw [Tree.enter_eq hpass, Tree.seek_cons, h.wildcard_eq hm hkind]
    intro hnone
    cases (Option.or_eq_none_iff.mp (Option.or_eq_none_iff.mp hnone).2).2

/-- Without routes there is no way. -/
theorem bare_no_way {found : Tree H} {path : List Char} {texts : List (List Char)} :
    ¬ (bare : Tree H).Way path found texts := by
  intro h
  cases h with
  | here _ haccepts => cases haccepts
  | static _ _ hm => cases hm
  | param _ _ hm => cases hm
  | wildcard _ _ hm => cases hm

theorem bare_enter (path : List Char) : (bare : Tree H).enter path = none :=
  Option.eq_none_iff_forall_ne_some.mpr fun _ hfound => bare_no_way (Tree.way_of_enter hfound)

/-- The recursion gives up where no way leads anywhere. -/
theorem Formed.no_way {n : Tree H} (h : Formed n) {path : List Char} (hnone : n.enter path = none)
    (found : Tree H) (texts : List (List Char)) : ¬ n.Way path found texts := by
  cases h with
  | bare => exact bare_no_way
  | full hsound htight =>
    have hpart : Part n .hole n := ⟨rfl, hsound, htight⟩
    exact fun hway => hpart.enter_ne_none hway hnone

/-- What the recursion finds stands for the first of the routes that match. -/
theorem Formed.settles {n : Tree H} (h : Formed n) (path : List Char) :
    Settles n n.routes [] path (n.enter path) := by
  cases h with
  | bare =>
    rw [bare_enter]
    intro route hroute
    cases hroute
  | full hsound htight => exact Tree.settles hsound htight path

/-! ### The search takes the same way -/

/-- A search that begins without captures leaves those of the way it has found, and none if it
finds none. -/
theorem Holds.search?_eq_enter {σ : Type} [Sink σ] [LawfulSink σ] {t : Trie H} {n : Tree H}
    (h : t.Holds n) (hn : Formed n) (path : List Char) {captures : σ}
    (hsize : Sink.size captures = 0) :
    t.search? path captures = some (match n.enter path with
      | some (m, texts) => (some m.slot, pushed captures texts)
      | none => (none, captures)) := by
  have hnothing : Sink.truncate captures 0 = captures := by
    rw [← hsize]
    exact LawfulSink.truncate_size captures
  cases hempty : t.isEmpty with
  | false =>
    have hsearch := h.search?_eq hempty path captures
    rw [hnothing] at hsearch
    exact hsearch
  | true =>
    have hroutes : n.routes = [] := by
      rw [← List.isEmpty_iff, ← h.isEmpty_eq hn]
      exact hempty
    rw [search?, if_pos hempty, hn.eq_bare hroutes, bare_enter]

theorem size_pushed {σ : Type} [Sink σ] [LawfulSink σ] (captures : σ)
    (texts : List (List Char)) :
    Sink.size (pushed captures texts) = Sink.size captures + texts.length := by
  induction texts generalizing captures with
  | nil => rfl
  | cons text rest ih =>
    show Sink.size (pushed (Sink.push captures text) rest) = _
    rw [ih, LawfulSink.size_push, List.length_cons]
    omega

/-- Where a search ends does not depend on where its captures go, and there are as many of them
either way. -/
theorem Holds.search?_sinks {σ σ' : Type} [Sink σ] [LawfulSink σ] [Sink σ'] [LawfulSink σ']
    {t : Trie H} {n : Tree H} (h : t.Holds n) (hn : Formed n) (path : List Char) {captures : σ}
    {captures' : σ'} (hsize : Sink.size captures = 0) (hsize' : Sink.size captures' = 0) :
    ∃ found left left', t.search? path captures = some (found, left) ∧
      t.search? path captures' = some (found, left') ∧ Sink.size left' = Sink.size left := by
  rw [h.search?_eq_enter hn path hsize, h.search?_eq_enter hn path hsize']
  cases n.enter path with
  | none => exact ⟨none, captures, captures', rfl, rfl, hsize'.trans hsize.symm⟩
  | some found =>
    obtain ⟨m, texts⟩ := found
    refine ⟨some m.slot, _, _, rfl, rfl, ?_⟩
    rw [size_pushed, size_pushed, hsize, hsize']

end Routing.Trie
