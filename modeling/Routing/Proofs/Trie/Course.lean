import Mathlib.Algebra.BigOperators.Group.Multiset.Basic
import Mathlib.Algebra.Order.BigOperators.Group.List
import Mathlib.Data.Multiset.Bind
import Mathlib.Data.Multiset.OrderedMonoid
import Mathlib.Tactic.Abel
import Routing.Proofs.Trie.Seek

/-! What a search does at most.

A search may do three things with a node (`Deed`): go down to it, take a step there, and leave a
mark there. It may do each of them once. `Tree.ahead` is what a search can still do that has come
to a node, and what it can do from its marks comes on top (`Owes`). A turn takes what it does out
of that (`Owes.turn`), so nothing is done twice, and the search ends when nothing is left: a step
is one turn, and a mark is one more, to come back to it (`Owes.course`). -/
namespace Routing.Trie
variable {H : Type}

/-! ### Deeds -/

/-- What a search may do once with a node. -/
inductive Deed where
  | down (slot : Slot)
  | step (phase : Phase) (slot : Slot)
  | mark (kind : Kind) (slot : Slot)
  deriving DecidableEq

namespace Deed

def slot : Deed → Slot
  | down slot => slot
  | step _ slot => slot
  | mark _ slot => slot

/-- The turns that a deed stands for: a step is one, and a mark is one to come back to. -/
def turns : Deed → Nat
  | down _ => 0
  | step .. => 1
  | mark .. => 1

/-- All that may be done with a node. -/
def all (slot : Slot) : Multiset Deed :=
  {down slot, step .enter slot, step (.ask .static) slot, mark .param slot, step (.ask .param) slot,
    mark .wildcard slot, step (.ask .wildcard) slot}

theorem nodup_all (slot : Slot) : (all slot).Nodup := by
  simp [all]

theorem slot_of_mem_all {slot : Slot} {d : Deed} (h : d ∈ all slot) : d.slot = slot := by
  simp only [all, Multiset.insert_eq_cons, Multiset.mem_cons, Multiset.mem_singleton] at h
  rcases h with rfl | rfl | rfl | rfl | rfl | rfl | rfl <;> rfl

theorem kind_of_mem_all {slot slot' : Slot} {kind : Kind} (h : mark kind slot' ∈ all slot) :
    kind ∈ [Kind.param, Kind.wildcard] := by
  simp only [all, Multiset.insert_eq_cons, Multiset.mem_cons, Multiset.mem_singleton, reduceCtorEq,
    mark.injEq, false_or, or_false] at h
  rcases h with ⟨rfl, -⟩ | ⟨rfl, -⟩ <;> decide

end Deed

/-- How many turns some deeds stand for. -/
def cost (deeds : Multiset Deed) : Nat := (deeds.map Deed.turns).sum

theorem cost_add (deeds more : Multiset Deed) : cost (deeds + more) = cost deeds + cost more := by
  rw [cost, Multiset.map_add, Multiset.sum_add]
  rfl

namespace Tree

/-- All that may be done with a node and those below it. -/
def deeds (n : Tree H) : Multiset Deed := Multiset.bind n.slots Deed.all

/-- All that may be done below the children of a kind. -/
def childDeeds (kind : Kind) (n : Tree H) : Multiset Deed :=
  ((n.children.filter (·.content.kind == kind)).map deeds).sum

/-- What may come of asking a node for a child of a kind. -/
def asks (kind : Kind) (n : Tree H) : Multiset Deed :=
  {.step (.ask kind) n.slot} + n.childDeeds kind

/-- What a search may still do at a node and below it. -/
def ahead (n : Tree H) : Phase → Multiset Deed
  | .goBack => 0
  | .ask .wildcard => n.asks .wildcard
  | .ask .param => n.asks .param + ({.mark .wildcard n.slot} + n.asks .wildcard)
  | .ask .static => n.asks .static + ({.mark .param n.slot} +
      (n.asks .param + ({.mark .wildcard n.slot} + n.asks .wildcard)))
  | .enter => {.step .enter n.slot} + (n.asks .static + ({.mark .param n.slot} +
      (n.asks .param + ({.mark .wildcard n.slot} + n.asks .wildcard))))

theorem deeds_eq (n : Tree H) : n.deeds = Deed.all n.slot + (n.children.map deeds).sum := by
  rw [deeds, slots_eq, ← Multiset.cons_coe, Multiset.cons_bind]
  congr 1
  induction n.children with
  | nil => rfl
  | cons m rest ih =>
    rw [List.flatMap_cons, ← Multiset.coe_add, Multiset.add_bind, ih, List.map_cons, List.sum_cons]
    rfl

/-- Every child is of one of the three kinds. -/
theorem sum_deeds_children (n : Tree H) :
    (n.children.map deeds).sum =
      n.childDeeds .static + n.childDeeds .param + n.childDeeds .wildcard := by
  unfold childDeeds
  induction n.children with
  | nil => rfl
  | cons m rest ih =>
    rw [List.map_cons, List.sum_cons, ih]
    cases hkind : m.content.kind with
    | static => simp [hkind, add_assoc]
    | param => simp [hkind, add_assoc, add_left_comm]
    | wildcard => simp [hkind, add_assoc, add_left_comm]

/-- Going down to a node and going on from there is all that may be done with it. -/
theorem down_add_ahead (n : Tree H) : {.down n.slot} + n.ahead .enter = n.deeds := by
  rw [deeds_eq, sum_deeds_children, ahead, asks, asks, asks, Deed.all]
  simp only [Multiset.insert_eq_cons, ← Multiset.singleton_add]
  abel

theorem nodup_deeds {n : Tree H} (h : n.slots.Nodup) : n.deeds.Nodup := by
  rw [deeds, Multiset.nodup_bind]
  refine ⟨fun slot _ => Deed.nodup_all slot, n.slots, rfl, h.imp fun {a b} hne => ?_⟩
  refine Multiset.disjoint_left.mpr fun {d} ha hb => hne ?_
  rw [← Deed.slot_of_mem_all ha, Deed.slot_of_mem_all hb]

theorem cost_deeds (n : Tree H) : cost n.deeds = 6 * n.slots.length := by
  rw [deeds]
  induction n.slots with
  | nil => rfl
  | cons slot rest ih =>
    rw [← Multiset.cons_coe, Multiset.cons_bind, cost_add, ih, List.length_cons,
      show cost (Deed.all slot) = 6 from rfl]
    omega

end Tree

/-! ### Courses -/

namespace Search
variable {σ : Type}

/-- The step that a turn is, unless it only goes back. -/
def step? (s : Search σ) : Option (Phase × Slot) :=
  if s.phase = .goBack then none else some (s.phase, s.slot)

/-- The mark that a turn leaves. -/
def mark? (s : Search σ) : Turn σ → Option Mark
  | .going next => if s.marks.length < next.marks.length then next.marks.head? else none
  | .ended .. => none

/-- The node that a turn goes down to. -/
def down? (s : Search σ) : Turn σ → Option Slot
  | .going next => if next.phase = .enter then some next.slot else none
  | .ended found _ => if s.phase = .ask .wildcard then found else none

def deeds (s : Search σ) (turn : Turn σ) : Multiset Deed :=
  (s.step?.elim 0 fun (phase, slot) => {.step phase slot}) +
    ((s.mark? turn).elim 0 fun mark => {.mark mark.kind mark.slot}) +
    ((s.down? turn).elim 0 fun slot => {.down slot})

/-- What a search asks for now, and from its marks. -/
def places (s : Search σ) : List (Phase × Slot) :=
  (s.phase, s.slot) :: s.marks.map fun mark => (.ask mark.kind, mark.slot)

/-- The turns of a search up to its end, each with what it comes to. -/
inductive Course [Sink σ] (t : Trie H) :
    Search σ → List (Search σ × Turn σ) → Option Slot → σ → Prop
  | ended {s : Search σ} {found : Option Slot} {left : σ} :
    s.next? t = some (.ended found left) → Course t s [(s, .ended found left)] found left
  | going {s next : Search σ} {course : List (Search σ × Turn σ)} {found : Option Slot} {left : σ} :
    s.next? t = some (.going next) → Course t next course found left →
    Course t s ((s, .going next) :: course) found left

/-- All that is done in the turns of a course. -/
def done (course : List (Search σ × Turn σ)) : Multiset Deed :=
  (course.map fun (s, turn) => s.deeds turn).sum

end Search

section search
variable {σ : Type} [Sink σ] {t : Trie H}

/-- A search that may take as many turns as its course has comes to the end of it. -/
theorem Search.Course.run?_eq {s : Search σ} {course : List (Search σ × Turn σ)}
    {found : Option Slot} {left : σ} (h : Course t s course found left) {turns : Nat}
    (hturns : course.length ≤ turns) : Search.run? t turns s = some (found, left) := by
  induction h generalizing turns with
  | ended hnext =>
    obtain ⟨turns, rfl⟩ := Nat.exists_eq_add_of_le' hturns
    exact run?_ended hnext turns
  | going hnext _ ih =>
    rw [List.length_cons] at hturns
    obtain ⟨turns, rfl⟩ := Nat.exists_eq_add_of_le' (Nat.le_of_add_left_le hturns)
    rw [run?_going hnext]
    exact ih (by omega)

/-! ### What is owed -/

/-- What a search may still do that has these places to go on from. -/
inductive Owes (t : Trie H) : List (Phase × Slot) → Multiset Deed → Prop
  | nil : Owes t [] 0
  | cons {parent : Option Slot} {n : Tree H} {phase : Phase} {places : List (Phase × Slot)}
    {owed : Multiset Deed} : t.Stores parent n → Owes t places owed →
    Owes t ((phase, n.slot) :: places) (n.ahead phase + owed)

/-- A turn comes to the end, or to a search that owes less: what the turn does is out, and so is
the turn. -/
def Pays (t : Trie H) (s : Search σ) (owed : Multiset Deed) : Prop :=
  ∃ turn, s.next? t = some turn ∧ match turn with
    | .ended .. => s.deeds turn ≤ owed
    | .going next => ∃ owed', Owes t next.places owed' ∧ s.deeds turn + owed' ≤ owed ∧
        next.marks.length + 1 ≤ cost (s.deeds turn) + s.marks.length

/-! ### A turn -/

section turn
variable {parent : Option Slot} {n : Tree H} {path : List Char} {marks : List Mark} {captures : σ}
  {owed : Multiset Deed}

/-- A child of a kind has its share in what may be done below that kind. -/
theorem Tree.deeds_le_childDeeds {n m : Tree H} {kind : Kind} (hm : m ∈ n.children)
    (hkind : m.content.kind = kind) : m.deeds ≤ n.childDeeds kind := by
  have hmem : m ∈ n.children.filter (·.content.kind == kind) :=
    List.mem_filter.mpr ⟨hm, beq_iff_eq.mpr hkind⟩
  exact List.le_sum_of_mem (List.mem_map_of_mem hmem)

/-- A turn that stays at the node and leaves no mark. -/
theorem Pays.stay {phase phase' : Phase} {path' : List Char} (h : t.Stores parent n)
    (hmarks : Owes t (marks.map fun mark => (.ask mark.kind, mark.slot)) owed)
    (hnext : (⟨phase, n.slot, path, marks, captures⟩ : Search σ).next? t =
      some (.going ⟨phase', n.slot, path', marks, captures⟩))
    (hphase : phase ≠ .goBack) (hphase' : phase' ≠ .enter)
    (hle : {.step phase n.slot} + n.ahead phase' ≤ n.ahead phase) :
    Pays t ⟨phase, n.slot, path, marks, captures⟩ (n.ahead phase + owed) := by
  have hdeeds : Search.deeds ⟨phase, n.slot, path, marks, captures⟩
      (.going ⟨phase', n.slot, path', marks, captures⟩) = {.step phase n.slot} := by
    simp [Search.deeds, Search.step?, Search.mark?, Search.down?, hphase, hphase']
  refine ⟨_, hnext, _, .cons h hmarks, ?_, ?_⟩
  · rw [hdeeds, ← add_assoc]
    exact add_le_add_left hle owed
  · rw [hdeeds]
    show marks.length + 1 ≤ 1 + marks.length
    omega

/-- A turn that goes down to a child, and leaves a mark for the later kinds if there is a child
of one. -/
theorem Pays.descend {kind later : Kind} {m : Tree H} {path' : List Char} {captures' : σ}
    (h : t.Stores parent n)
    (hmarks : Owes t (marks.map fun mark => (.ask mark.kind, mark.slot)) owed)
    (hm : m ∈ n.children) (hkind : m.content.kind = kind)
    (hnext : (⟨.ask kind, n.slot, path, marks, captures⟩ : Search σ).next? t =
      some (.going ⟨.enter, m.slot, path', n.marked later path captures marks, captures'⟩))
    (hahead : n.ahead (.ask kind) =
      n.asks kind + ({.mark later n.slot} + n.ahead (.ask later))) :
    Pays t ⟨.ask kind, n.slot, path, marks, captures⟩ (n.ahead (.ask kind) + owed) := by
  have hbelow : {.down m.slot} + m.ahead .enter ≤ n.childDeeds kind := by
    rw [Tree.down_add_ahead]
    exact Tree.deeds_le_childDeeds hm hkind
  have hasks : {.step (.ask kind) n.slot} + ({.down m.slot} + m.ahead .enter) ≤ n.asks kind :=
    add_le_add_right hbelow _
  rw [hahead]
  unfold Tree.marked at hnext
  split at hnext
  · have hdeeds : Search.deeds ⟨.ask kind, n.slot, path, marks, captures⟩ (.going ⟨.enter, m.slot,
        path', ⟨n.slot, later, path, Sink.size captures⟩ :: marks, captures'⟩) =
        {.step (.ask kind) n.slot} + {.mark later n.slot} + {.down m.slot} := by
      simp [Search.deeds, Search.step?, Search.mark?, Search.down?]
    refine ⟨_, hnext, _, .cons (h.child hm) (.cons h hmarks), ?_, ?_⟩
    · rw [hdeeds]
      calc {.step (.ask kind) n.slot} + {.mark later n.slot} + {.down m.slot} +
            (m.ahead .enter + (n.ahead (.ask later) + owed))
        _ = {.step (.ask kind) n.slot} + ({.down m.slot} + m.ahead .enter) +
            ({.mark later n.slot} + n.ahead (.ask later) + owed) := by abel
        _ ≤ n.asks kind + ({.mark later n.slot} + n.ahead (.ask later) + owed) :=
          add_le_add_left hasks _
        _ = n.asks kind + ({.mark later n.slot} + n.ahead (.ask later)) + owed := by abel
    · rw [hdeeds]
      show marks.length + 1 + 1 ≤ 2 + marks.length
      omega
  · have hdeeds : Search.deeds ⟨.ask kind, n.slot, path, marks, captures⟩ (.going ⟨.enter, m.slot,
        path', marks, captures'⟩) = {.step (.ask kind) n.slot} + {.down m.slot} := by
      simp [Search.deeds, Search.step?, Search.mark?, Search.down?]
    refine ⟨_, hnext, _, .cons (h.child hm) hmarks, ?_, ?_⟩
    · rw [hdeeds]
      calc {.step (.ask kind) n.slot} + {.down m.slot} + (m.ahead .enter + owed)
        _ = {.step (.ask kind) n.slot} + ({.down m.slot} + m.ahead .enter) + owed := by abel
        _ ≤ n.asks kind + owed := add_le_add_left hasks _
        _ ≤ n.asks kind + ({.mark later n.slot} + n.ahead (.ask later)) + owed :=
          add_le_add_left (Multiset.le_add_right ..) _
    · rw [hdeeds]
      show marks.length + 1 ≤ 1 + marks.length
      omega

/-! Each phase in turn. -/

section phases
variable (h : t.Stores parent n)
  (hmarks : Owes t (marks.map fun mark => (.ask mark.kind, mark.slot)) owed)
include h hmarks

theorem pays_enter : Pays t ⟨.enter, n.slot, path, marks, captures⟩ (n.ahead .enter + owed) := by
  generalize hafter : (if n.content.kind = .static then Text.after? n.content.text path
    else some path) = after
  have hnext := next?_enter h hafter marks captures
  have hback : {.step .enter n.slot} + n.ahead .goBack ≤ n.ahead .enter :=
    add_le_add_right (Multiset.zero_le _) _
  match after with
  | none => exact .stay h hmarks hnext (by decide) (by decide) hback
  | some (c :: rest) => exact .stay h hmarks hnext (by decide) (by decide) (le_refl _)
  | some [] =>
    cases haccepts : n.accepts with
    | false =>
      rw [haccepts] at hnext
      exact .stay h hmarks hnext (by decide) (by decide) hback
    | true =>
      rw [haccepts] at hnext
      exact ⟨_, hnext, le_add_right (le_add_right (le_refl _))⟩

theorem pays_static :
    Pays t ⟨.ask .static, n.slot, path, marks, captures⟩ (n.ahead (.ask .static) + owed) := by
  have hnext := next?_static h path marks captures
  cases hfind : n.child? fun m => m.label == labelOf path && m.kind == .static with
  | none =>
    rw [hfind] at hnext
    refine .stay h hmarks hnext (by decide) (by decide) ?_
    exact add_le_add (Multiset.le_add_right ..) (Multiset.le_add_left ..)
  | some m =>
    rw [hfind] at hnext
    obtain ⟨hm, htest⟩ := Tree.child?_mem hfind
    exact .descend h hmarks hm (eq_of_beq (Bool.and_eq_true_iff.mp htest).2) hnext rfl

theorem pays_param :
    Pays t ⟨.ask .param, n.slot, path, marks, captures⟩ (n.ahead (.ask .param) + owed) := by
  have hnext := next?_param h path marks captures
  have hpass : {.step (.ask .param) n.slot} + n.ahead (.ask .wildcard) ≤ n.ahead (.ask .param) :=
    add_le_add (Multiset.le_add_right ..) (Multiset.le_add_left ..)
  cases hfind : n.child? (·.kind == Kind.param) with
  | none =>
    rw [hfind] at hnext
    exact .stay h hmarks hnext (by decide) (by decide) hpass
  | some m =>
    rw [hfind] at hnext
    obtain ⟨hm, htest⟩ := Tree.child?_mem hfind
    by_cases hsegment : path.takeWhile (· ≠ '/') = []
    · simp only [hsegment, if_true] at hnext
      exact .stay h hmarks hnext (by decide) (by decide) hpass
    · simp only [hsegment, if_false] at hnext
      exact .descend h hmarks hm (eq_of_beq htest) hnext rfl

theorem pays_wildcard :
    Pays t ⟨.ask .wildcard, n.slot, path, marks, captures⟩ (n.ahead (.ask .wildcard) + owed) := by
  have hnext := next?_wildcard h path marks captures
  cases hfind : n.child? (·.kind == Kind.wildcard) with
  | none =>
    rw [hfind] at hnext
    refine .stay h hmarks hnext (by decide) (by decide) ?_
    exact add_le_add_right (Multiset.zero_le _) _
  | some m =>
    rw [hfind] at hnext
    obtain ⟨hm, htest⟩ := Tree.child?_mem hfind
    have hdown : {.down m.slot} ≤ n.childDeeds .wildcard := by
      refine le_trans ?_ (Tree.deeds_le_childDeeds hm (eq_of_beq htest))
      rw [← Tree.down_add_ahead]
      exact Multiset.le_add_right ..
    exact ⟨_, hnext, le_add_right (add_le_add_right hdown _)⟩

end phases

/-- Going back takes the last mark up, which was left for this. -/
theorem pays_goBack {slot : Slot} {captures : σ}
    (hmarks : Owes t (marks.map fun mark => (.ask mark.kind, mark.slot)) owed) :
    Pays t ⟨.goBack, slot, path, marks, captures⟩ owed := by
  cases marks with
  | nil => exact ⟨_, rfl, Multiset.zero_le _⟩
  | cons mark marks =>
    have hdeeds : Search.deeds ⟨.goBack, slot, path, mark :: marks, captures⟩
        (.going ⟨.ask mark.kind, mark.slot, mark.rest, marks,
          Sink.truncate captures mark.captured⟩) = 0 := by
      simp [Search.deeds, Search.step?, Search.mark?, Search.down?]
    refine ⟨.going ⟨.ask mark.kind, mark.slot, mark.rest, marks, _⟩, rfl, owed, hmarks, ?_, ?_⟩
    · rw [hdeeds, zero_add]
    · rw [hdeeds]
      exact Nat.le_add_left ..

end turn

/-- Every turn is paid for by what it does. -/
theorem Owes.turn {s : Search σ} {owed : Multiset Deed} (h : Owes t s.places owed) :
    Pays t s owed := by
  obtain ⟨phase, slot, path, marks, captures⟩ := s
  obtain ⟨⟩ | ⟨hstored, hmarks⟩ := h
  match phase with
  | .enter => exact pays_enter hstored hmarks
  | .ask .static => exact pays_static hstored hmarks
  | .ask .param => exact pays_param hstored hmarks
  | .ask .wildcard => exact pays_wildcard hstored hmarks
  | .goBack =>
    rw [Tree.ahead, zero_add]
    exact pays_goBack hmarks

/-- A search comes to its end within the turns that it owes, and does nothing that it does not
owe. -/
theorem Owes.course {s : Search σ} {owed : Multiset Deed} (h : Owes t s.places owed) :
    ∃ course found left, Search.Course t s course found left ∧
      course.length ≤ cost owed + s.marks.length + 1 ∧ Search.done course ≤ owed := by
  induction hturns : cost owed + s.marks.length using Nat.strongRecOn generalizing s owed with
  | _ turns ih =>
    obtain ⟨turn, hnext, hpays⟩ := h.turn
    cases turn with
    | ended found left =>
      refine ⟨_, found, left, .ended hnext, Nat.le_add_left .., ?_⟩
      rw [Search.done, List.map_singleton, List.sum_singleton]
      exact hpays
    | going next =>
      obtain ⟨owed', howed', hle, hmarks⟩ := hpays
      obtain ⟨rest, hrest⟩ := Multiset.le_iff_exists_add.mp hle
      have hcost : cost owed = cost (s.deeds (.going next)) + cost owed' + cost rest := by
        rw [hrest, cost_add, cost_add]
      obtain ⟨course, found, left, hcourse, hlength, hdone⟩ := ih _ (by omega) howed' rfl
      refine ⟨_, found, left, .going hnext hcourse, ?_, ?_⟩
      · rw [List.length_cons]
        omega
      · rw [Search.done, List.map_cons, List.sum_cons]
        exact le_trans (add_le_add_right hdone _) hle

/-- A search from the root goes no further than once to each node. -/
theorem Holds.course {n : Tree H} (h : t.Holds n) (path : List Char) (captures : σ) :
    ∃ course found left, Search.Course t (Search.start path captures) course found left ∧
      course.length ≤ 6 * t.nodeCount + 1 ∧ {.down root} + Search.done course ≤ n.deeds := by
  have howes : Owes t (Search.start path captures).places (n.ahead .enter + 0) := by
    rw [Search.places, show (Search.start path captures).slot = n.slot from h.rooted.symm]
    exact .cons h.stored .nil
  rw [add_zero] at howes
  obtain ⟨course, found, left, hcourse, hlength, hdone⟩ := howes.course
  refine ⟨course, found, left, hcourse, ?_, ?_⟩
  · have hcost := n.cost_deeds
    rw [← Tree.down_add_ahead, cost_add, Tree.slots, List.length_map, ← h.nodeCount_eq] at hcost
    have hmarks : (Search.start path captures).marks.length = 0 := rfl
    omega
  · rw [← Tree.down_add_ahead, show n.slot = root from h.rooted]
    exact add_le_add_right hdone _

end search

/-! ### What is done once -/

namespace Search
variable {σ : Type} {course : List (Search σ × Turn σ)}

/-- What each turn does of one sort is part of all that is done. -/
theorem map_filterMap_le_done {α : Type} (f : Search σ × Turn σ → Option α) (g : α → Deed)
    (h : ∀ s turn, ((f (s, turn)).elim 0 fun a => {g a}) ≤ s.deeds turn)
    (course : List (Search σ × Turn σ)) :
    (((course.filterMap f).map g : List Deed) : Multiset Deed) ≤ done course := by
  induction course with
  | nil => exact Multiset.zero_le _
  | cons entry rest ih =>
    obtain ⟨s, turn⟩ := entry
    have hfirst := h s turn
    rw [done, List.map_cons, List.sum_cons, List.filterMap_cons]
    cases hf : f (s, turn) with
    | none => exact le_add_left ih
    | some a =>
      rw [hf] at hfirst
      exact add_le_add hfirst ih

theorem steps_le_done (course : List (Search σ × Turn σ)) :
    (((course.filterMap (·.1.step?)).map fun place => .step place.1 place.2 : List Deed) :
      Multiset Deed) ≤ done course :=
  map_filterMap_le_done _ _ (fun _ _ => le_add_right (le_add_right (le_refl _))) course

theorem marks_le_done (course : List (Search σ × Turn σ)) :
    (((course.filterMap fun entry => entry.1.mark? entry.2).map fun mark =>
      .mark mark.kind mark.slot : List Deed) : Multiset Deed) ≤ done course :=
  map_filterMap_le_done _ _ (fun _ _ => le_add_right (le_add_left (le_refl _))) course

theorem downs_le_done (course : List (Search σ × Turn σ)) :
    (((course.filterMap fun entry => entry.1.down? entry.2).map .down : List Deed) :
      Multiset Deed) ≤ done course :=
  map_filterMap_le_done _ _ (fun _ _ => le_add_left (le_refl _)) course

end Search

section once
variable {σ : Type} {n : Tree H} {course : List (Search σ × Search.Turn σ)}
  (hnodup : n.slots.Nodup) (hdone : {.down root} + Search.done course ≤ n.deeds)
include hnodup hdone

theorem nodup_done : ({.down root} + Search.done course : Multiset Deed).Nodup :=
  Multiset.nodup_of_le hdone (Tree.nodup_deeds hnodup)

theorem nodup_steps : (course.filterMap (·.1.step?)).Nodup := by
  have hle := (Search.steps_le_done course).trans (Multiset.le_add_left _ {.down root})
  exact (Multiset.coe_nodup.mp (Multiset.nodup_of_le hle (nodup_done hnodup hdone))).of_map _

/-- The root counts as gone down to. -/
theorem nodup_downs : (root :: course.filterMap fun entry => entry.1.down? entry.2).Nodup := by
  have hle := add_le_add_right (Search.downs_le_done course) {.down root}
  have hcoe := Multiset.nodup_of_le hle (nodup_done hnodup hdone)
  rw [Multiset.singleton_add, Multiset.cons_coe, ← List.map_cons] at hcoe
  exact (Multiset.coe_nodup.mp hcoe).of_map _

/-- A mark is left for a parameter or for a wildcard, so there are two at a node at most. -/
theorem length_marks_le (slot : Slot) :
    ((course.filterMap fun entry => entry.1.mark? entry.2).filter (·.slot = slot)).length ≤ 2 := by
  have hle := ((Search.marks_le_done course).trans (Multiset.le_add_left _ _)).trans hdone
  generalize (course.filterMap fun entry => entry.1.mark? entry.2) = marks at hle
  have hmarks := Multiset.coe_nodup.mp (Multiset.nodup_of_le hle (Tree.nodup_deeds hnodup))
  have hat : (marks.filter (·.slot = slot)).map (fun mark => Deed.mark mark.kind mark.slot) =
      ((marks.filter (·.slot = slot)).map (·.kind)).map (.mark · slot) := by
    rw [List.map_map]
    refine List.map_congr_left fun mark hmark => ?_
    rw [of_decide_eq_true (List.mem_filter.mp hmark).2]
    rfl
  have hkinds : ((marks.filter (·.slot = slot)).map (·.kind)).Nodup := by
    have hfiltered : ((marks.filter (·.slot = slot)).map fun mark =>
        Deed.mark mark.kind mark.slot).Nodup := hmarks.sublist (List.filter_sublist.map _)
    rw [hat] at hfiltered
    exact hfiltered.of_map _
  have hlater : (marks.filter (·.slot = slot)).map (·.kind) ⊆ [.param, .wildcard] := by
    intro kind hkind
    obtain ⟨mark, hmark, rfl⟩ := List.mem_map.mp hkind
    have hmem : Deed.mark mark.kind mark.slot ∈ n.deeds := Multiset.mem_of_le hle
      (Multiset.mem_coe.mpr (List.mem_map_of_mem (List.mem_filter.mp hmark).1))
    obtain ⟨_, -, hmem⟩ := Multiset.mem_bind.mp hmem
    exact Deed.kind_of_mem_all hmem
  have hlength := (hkinds.subperm hlater).length_le
  rwa [List.length_map] at hlength

end once

end Routing.Trie
