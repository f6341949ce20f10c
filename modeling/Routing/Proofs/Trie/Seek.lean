import Mathlib.Algebra.GroupWithZero.Nat
import Mathlib.Algebra.Order.BigOperators.Group.List
import Mathlib.Algebra.Order.Group.Nat
import Routing.Proofs.Text.Offsets
import Routing.Proofs.Trie.Holds
import Routing.Proofs.Trie.Sound
import Routing.Trie.Search

/-! The search as a recursion.

`Tree.seek` says where a path leads: the static child is tried to the end, then the parameter,
then the wildcard. The search with marks does the same (`Holds.search?_eq`). A search that has
come to a node leads on to where the path leads from there, or comes to a dead end with the
marks it had (`Leads`), and a mark left at a node puts the next kind of child behind the one
being tried (`Leads.or`). Each node costs six turns at most. -/
namespace Routing.Trie
variable {H : Type}

/-! ### The recursion -/

namespace Tree

/-- The first child that passes a test. -/
def child? (n : Tree H) (test : Content H → Bool) : Option (Tree H) :=
  n.children.find? fun m => test m.content

theorem child?_mem {n m : Tree H} {test : Content H → Bool} (h : n.child? test = some m) :
    m ∈ n.children ∧ test m.content = true :=
  ⟨List.mem_of_find?_eq_some h, List.find?_some (p := fun m : Tree H => test m.content) h⟩

theorem sizeOf_child {n m : Tree H} (h : m ∈ n.children) : sizeOf m < sizeOf n := by
  obtain ⟨slot, c, nodes⟩ := n
  have hlt : sizeOf m < sizeOf nodes := List.sizeOf_lt_of_mem h
  rw [node.sizeOf_spec]
  omega

def accepts (n : Tree H) : Bool := n.content.hasRoute || (n.child? (·.kind == .wildcard)).isSome

/-- Where a path leads that has passed a node's text, and the texts captured on the way. -/
def seek (n : Tree H) (path : List Char) : Option (Tree H × List (List Char)) :=
  match path with
  | [] => if n.accepts then some (n, []) else none
  | c :: rest =>
    let static := match _child : n.child? fun m => m.label == c && m.kind == .static with
      | some m => (Text.after? m.content.text (c :: rest)).bind m.seek
      | none => none
    let param := match _child : n.child? (·.kind == .param) with
      | some m =>
        let segment := (c :: rest).takeWhile (· ≠ '/')
        if segment = [] then none
        else (m.seek ((c :: rest).dropWhile (· ≠ '/'))).map
          fun (found : Tree H × List (List Char)) => (found.1, segment :: found.2)
      | none => none
    static.or (param.or ((n.child? (·.kind == Kind.wildcard)).map (·, [c :: rest])))
termination_by sizeOf n
decreasing_by
  · exact sizeOf_child (child?_mem _child).1
  · exact sizeOf_child (child?_mem _child).1

/-- Where a path leads that comes to a node. -/
def enter (n : Tree H) (path : List Char) : Option (Tree H × List (List Char)) :=
  (if n.content.kind = .static then Text.after? n.content.text path else some path).bind n.seek

/-! The three ways on, in their order. -/

def static (n : Tree H) (path : List Char) : Option (Tree H × List (List Char)) :=
  (n.child? fun m => m.label == labelOf path && m.kind == .static).bind (·.enter path)

def param (n : Tree H) (path : List Char) : Option (Tree H × List (List Char)) :=
  (n.child? (·.kind == .param)).bind fun m =>
    if path.takeWhile (· ≠ '/') = [] then none
    else (m.enter (path.dropWhile (· ≠ '/'))).map fun found =>
      (found.1, path.takeWhile (· ≠ '/') :: found.2)

def wildcard (n : Tree H) (path : List Char) : Option (Tree H × List (List Char)) :=
  (n.child? (·.kind == .wildcard)).map (·, [path])

theorem seek_nil (n : Tree H) : n.seek [] = if n.accepts then some (n, []) else none := by
  rw [seek]

theorem seek_cons (n : Tree H) (c : Char) (rest : List Char) :
    n.seek (c :: rest) =
      (n.static (c :: rest)).or ((n.param (c :: rest)).or (n.wildcard (c :: rest))) := by
  rw [seek, static, param, labelOf_cons]
  congr 1
  · cases hchild : n.child? fun m => m.label == c && m.kind == .static with
    | none => rfl
    | some m =>
      have hkind : m.content.kind = .static := by
        have htest := (child?_mem hchild).2
        rw [Bool.and_eq_true, beq_iff_eq, beq_iff_eq] at htest
        exact htest.2
      rw [Option.bind_some, enter, if_pos hkind]
  · congr 1
    cases hchild : n.child? (·.kind == .param) with
    | none => rfl
    | some m =>
      have hkind : m.content.kind = .param := eq_of_beq (child?_mem hchild).2
      have hother : ¬ m.content.kind = .static := by
        rw [hkind]
        decide
      simp only [Option.bind_some, enter, if_neg hother]

end Tree

/-! ### Captures -/

/-- Captures are put behind one another, and the first of them can be had again. -/
class LawfulSink (σ : Type) [Sink σ] : Prop where
  size_push (captures : σ) (text : List Char) :
    Sink.size (Sink.push captures text) = Sink.size captures + 1
  truncate_size (captures : σ) : Sink.truncate captures (Sink.size captures) = captures
  truncate_push (captures : σ) (text : List Char) (count : Nat) : count ≤ Sink.size captures →
    Sink.truncate (Sink.push captures text) count = Sink.truncate captures count

instance : LawfulSink Nat where
  size_push _ _ := rfl
  truncate_size _ := rfl
  truncate_push _ _ _ _ := rfl

section search
variable {σ : Type} [Sink σ]

/-- Captures with more behind them. -/
def pushed (captures : σ) (texts : List (List Char)) : σ := texts.foldl Sink.push captures

theorem pushed_append (captures : σ) (texts more : List (List Char)) :
    pushed captures (texts ++ more) = pushed (pushed captures texts) more := List.foldl_append

theorem truncate_pushed [LawfulSink σ] (texts : List (List Char)) {captures : σ} {count : Nat}
    (h : count ≤ Sink.size captures) :
    Sink.truncate (pushed captures texts) count = Sink.truncate captures count := by
  induction texts generalizing captures with
  | nil => rfl
  | cons text rest ih =>
    show Sink.truncate (pushed (Sink.push captures text) rest) count = _
    rw [ih (by rw [LawfulSink.size_push]; omega), LawfulSink.truncate_push _ _ _ h]

/-! ### Turns -/

/-- A search comes to its end here, or to a dead end with the marks it has now. -/
def Leads (t : Trie H) (s : Search σ) (turns : Nat) (found : Option (Tree H × List (List Char))) :
    Prop :=
  ∃ cost ≤ turns, match found with
    | some (m, texts) => ∀ more, Search.run? t (cost + more) s =
        some (some m.slot, pushed s.captures texts)
    | none => ∃ slot rest texts, ∀ more, Search.run? t (cost + more) s =
        Search.run? t more ⟨.goBack, slot, rest, s.marks, pushed s.captures texts⟩

/-- The texts captured so far, in front of those to come. -/
def behind (texts : List (List Char)) (found : Option (Tree H × List (List Char))) :
    Option (Tree H × List (List Char)) := found.map fun (m, more) => (m, texts ++ more)

theorem behind_nil (found : Option (Tree H × List (List Char))) : behind [] found = found := by
  cases found <;> rfl

theorem run?_going {t : Trie H} {s s' : Search σ} (h : s.next? t = some (.going s')) (turns : Nat) :
    Search.run? t (turns + 1) s = Search.run? t turns s' := by
  rw [Search.run?, h]
  rfl

theorem run?_ended {t : Trie H} {s : Search σ} {slot : Option Slot} {captures : σ}
    (h : s.next? t = some (.ended slot captures)) (turns : Nat) :
    Search.run? t (turns + 1) s = some (slot, captures) := by
  rw [Search.run?, h]
  rfl

theorem Leads.mono {t : Trie H} {s : Search σ} {turns turns' : Nat}
    {found : Option (Tree H × List (List Char))} (h : Leads t s turns found)
    (hle : turns ≤ turns') : Leads t s turns' found := by
  obtain ⟨cost, hcost, hrun⟩ := h
  exact ⟨cost, Nat.le_trans hcost hle, hrun⟩

theorem Leads.ended {t : Trie H} {s : Search σ} {m : Tree H} {texts : List (List Char)}
    (hnext : s.next? t = some (.ended (some m.slot) (pushed s.captures texts))) :
    Leads t s 1 (some (m, texts)) := by
  refine ⟨1, Nat.le_refl _, fun more => ?_⟩
  rw [Nat.add_comm, run?_ended hnext]

theorem Leads.dead {t : Trie H} {s : Search σ}
    (hnext : s.next? t = some (.going { s with phase := .goBack })) : Leads t s 1 none := by
  refine ⟨1, Nat.le_refl _, s.slot, s.rest, [], fun more => ?_⟩
  rw [Nat.add_comm, run?_going hnext]
  rfl

/-- A turn that leaves the marks alone. -/
theorem Leads.step {t : Trie H} {s s' : Search σ} {turns : Nat}
    {found : Option (Tree H × List (List Char))} {texts : List (List Char)}
    (hnext : s.next? t = some (.going s')) (hmarks : s'.marks = s.marks)
    (hcaptures : s'.captures = pushed s.captures texts) (h : Leads t s' turns found) :
    Leads t s (turns + 1) (behind texts found) := by
  obtain ⟨cost, hcost, hrun⟩ := h
  refine ⟨cost + 1, Nat.succ_le_succ hcost, ?_⟩
  cases found with
  | some found =>
    intro more
    rw [Nat.add_right_comm, run?_going hnext, hrun more, hcaptures, pushed_append]
  | none =>
    obtain ⟨slot, rest, more, hrun⟩ := hrun
    refine ⟨slot, rest, texts ++ more, fun turns => ?_⟩
    rw [Nat.add_right_comm, run?_going hnext, hrun turns, hmarks, hcaptures, pushed_append]

/-- A turn that leaves a mark: what is marked comes behind what is tried now. -/
theorem Leads.or [LawfulSink σ] {t : Trie H} {s s' : Search σ} {turns turns' : Nat}
    {found found' : Option (Tree H × List (List Char))} {texts : List (List Char)} {kind : Kind}
    (hnext : s.next? t = some (.going s'))
    (hmarks : s'.marks = ⟨s.slot, kind, s.rest, Sink.size s.captures⟩ :: s.marks)
    (hcaptures : s'.captures = pushed s.captures texts) (h : Leads t s' turns found)
    (h' : Leads t { s with phase := .ask kind } turns' found') :
    Leads t s (turns + turns' + 2) ((behind texts found).or found') := by
  obtain ⟨cost, hcost, hrun⟩ := h
  cases found with
  | some found =>
    refine ⟨cost + 1, by omega, fun more => ?_⟩
    rw [Nat.add_right_comm, run?_going hnext, hrun more, hcaptures, pushed_append]
  | none =>
    obtain ⟨slot, rest, more, hrun⟩ := hrun
    obtain ⟨cost', hcost', hrun'⟩ := h'
    have hback : ∀ turns, Search.run? t (cost + 1 + 1 + turns) s =
        Search.run? t turns { s with phase := .ask kind } := by
      intro turns
      rw [show cost + 1 + 1 + turns = cost + (turns + 1) + 1 by omega, run?_going hnext,
        hrun (turns + 1), hmarks]
      refine (run?_going rfl turns).trans ?_
      rw [hcaptures, ← pushed_append, truncate_pushed _ (Nat.le_refl _), LawfulSink.truncate_size]
    refine ⟨cost + 1 + 1 + cost', by omega, ?_⟩
    cases found' with
    | some found' =>
      intro more
      rw [Nat.add_assoc, hback, hrun' more]
    | none =>
      obtain ⟨slot, rest, more, hrun'⟩ := hrun'
      refine ⟨slot, rest, more, fun turns => ?_⟩
      rw [Nat.add_assoc, hback, hrun' turns]

/-! ### One node -/

/-- The turns that a search below a child may take. -/
def below (child : Option (Tree H)) : Nat := child.elim 0 fun m => 6 * m.slots.length

theorem child?_eq_none {n : Tree H} {test test' : Content H → Bool} (h : n.child? test = none)
    (himp : ∀ c, test' c = true → test c = true) : n.child? test' = none :=
  List.find?_eq_none.mpr fun m hm htest => List.find?_eq_none.mp h m hm (himp _ htest)

/-! The turns at a stored node. -/

/-- The marks with one for a kind, if there is a child of it or of a later one. -/
def Tree.marked (n : Tree H) (kind : Kind) (path : List Char) (captures : σ) (marks : List Mark) :
    List Mark :=
  if (n.child? fun c => decide (kind.rank ≤ c.kind.rank)).isSome then
    ⟨n.slot, kind, path, Sink.size captures⟩ :: marks
  else marks

section turn
variable {t : Trie H} {parent : Option Slot} {n : Tree H} (h : t.Stores parent n)
include h

theorem markFor?_eq (phase : Phase) (kind : Kind) (path : List Char) (marks : List Mark)
    (captures : σ) : (⟨phase, n.slot, path, marks, captures⟩ : Search σ).markFor? t kind =
      some (n.marked kind path captures marks) := by
  have hchild : t.child? n.slot (fun c => decide (kind.rank ≤ c.kind.rank)) =
      some ((n.child? fun c => decide (kind.rank ≤ c.kind.rank)).map Tree.slot) := h.child?_eq _
  rw [Search.markFor?, hchild, Tree.marked]
  cases n.child? fun c => decide (kind.rank ≤ c.kind.rank) <;> rfl

theorem next?_static (path : List Char) (marks : List Mark) (captures : σ) :
    (⟨.ask .static, n.slot, path, marks, captures⟩ : Search σ).next? t = some (.going (
      match n.child? fun m => m.label == labelOf path && m.kind == .static with
      | some m => ⟨.enter, m.slot, path, n.marked .param path captures marks, captures⟩
      | none => ⟨.ask .param, n.slot, path, marks, captures⟩)) := by
  have hchild : t.child? n.slot (fun m => m.label == labelOf path && m.kind == .static) =
      some ((n.child? fun m => m.label == labelOf path && m.kind == .static).map Tree.slot) :=
    h.child?_eq _
  rw [Search.next?, Search.askStatic?, hchild]
  cases n.child? fun m => m.label == labelOf path && m.kind == .static with
  | none => rfl
  | some m =>
    rw [Option.map_some, markFor?_eq h]
    rfl

theorem next?_param (path : List Char) (marks : List Mark) (captures : σ) :
    (⟨.ask .param, n.slot, path, marks, captures⟩ : Search σ).next? t = some (.going (
      match n.child? (·.kind == .param) with
      | some m =>
        if path.takeWhile (· ≠ '/') = [] then ⟨.ask .wildcard, n.slot, path, marks, captures⟩
        else ⟨.enter, m.slot, path.dropWhile (· ≠ '/'), n.marked .wildcard path captures marks,
          Sink.push captures (path.takeWhile (· ≠ '/'))⟩
      | none => ⟨.ask .wildcard, n.slot, path, marks, captures⟩)) := by
  have hchild : t.childOfKind? n.slot .param =
      some ((n.child? (·.kind == Kind.param)).map Tree.slot) := h.child?_eq _
  rw [Search.next?, Search.askParam?, hchild]
  cases n.child? (·.kind == Kind.param) with
  | none => rfl
  | some m =>
    simp only [Option.map_some, Option.bind_eq_bind, Option.bind_some, Text.offsetOf_eq_zero]
    split
    · rfl
    · rw [markFor?_eq h, Text.cut?_offsetOf]
      rfl

theorem next?_wildcard (path : List Char) (marks : List Mark) (captures : σ) :
    (⟨.ask .wildcard, n.slot, path, marks, captures⟩ : Search σ).next? t = some (
      match n.child? (·.kind == .wildcard) with
      | some m => .ended (some m.slot) (Sink.push captures path)
      | none => .going ⟨.goBack, n.slot, path, marks, captures⟩) := by
  have hchild : t.childOfKind? n.slot .wildcard =
      some ((n.child? (·.kind == Kind.wildcard)).map Tree.slot) := h.child?_eq _
  rw [Search.next?, Search.askWildcard?, hchild]
  cases n.child? (·.kind == Kind.wildcard) <;> rfl

end turn

section node
variable {t : Trie H} {parent : Option Slot} {n : Tree H} {path : List Char} {marks : List Mark}
  {captures : σ}

/-- Going down to a child, with a mark for the later kinds if there is a child of one. -/
theorem Leads.descend [LawfulSink σ] {phase : Phase} {m : Tree H} {rest : List Char}
    {texts : List (List Char)} {kind : Kind} {turns turns' : Nat}
    {found found' : Option (Tree H × List (List Char))}
    (hnext : (⟨phase, n.slot, path, marks, captures⟩ : Search σ).next? t = some
      (.going ⟨.enter, m.slot, rest, n.marked kind path captures marks, pushed captures texts⟩))
    (hbelow : ∀ (marks : List Mark) (captures : σ),
      Leads t ⟨.enter, m.slot, rest, marks, captures⟩ turns found)
    (hlater : Leads t ⟨.ask kind, n.slot, path, marks, captures⟩ turns' found')
    (hnone : (n.child? fun c => decide (kind.rank ≤ c.kind.rank)) = none → found' = none) :
    Leads t ⟨phase, n.slot, path, marks, captures⟩ (turns + turns' + 2)
      ((behind texts found).or found') := by
  unfold Tree.marked at hnext
  cases hfind : n.child? fun c => decide (kind.rank ≤ c.kind.rank) with
  | some later =>
    rw [hfind, Option.isSome_some, if_pos rfl] at hnext
    exact Leads.or hnext rfl rfl (hbelow ..) hlater
  | none =>
    rw [hfind, Option.isSome_none, if_neg Bool.false_ne_true] at hnext
    rw [hnone hfind, Option.or_none]
    exact (Leads.step hnext rfl rfl (hbelow ..)).mono (by omega)

/-- Passing a kind by. -/
theorem Leads.pass {kind : Kind} {turns : Nat} {found : Option (Tree H × List (List Char))}
    {phase : Phase} (hnext : (⟨phase, n.slot, path, marks, captures⟩ : Search σ).next? t =
      some (.going ⟨.ask kind, n.slot, path, marks, captures⟩))
    (h : Leads t ⟨.ask kind, n.slot, path, marks, captures⟩ turns found) :
    Leads t ⟨phase, n.slot, path, marks, captures⟩ (turns + 1) found := by
  have hleads := Leads.step hnext rfl (show captures = pushed captures [] from rfl) h
  rw [behind_nil] at hleads
  exact hleads

theorem leads_wildcard (h : t.Stores parent n) :
    Leads t ⟨.ask .wildcard, n.slot, path, marks, captures⟩ 1 (n.wildcard path) := by
  have hnext := next?_wildcard h path marks captures
  unfold Tree.wildcard
  cases hfind : n.child? (·.kind == Kind.wildcard) with
  | some m =>
    rw [hfind] at hnext
    have hended : (⟨.ask .wildcard, n.slot, path, marks, captures⟩ : Search σ).next? t =
      some (.ended (some m.slot) (pushed captures [path])) := hnext
    exact Leads.ended hended
  | none =>
    rw [hfind] at hnext
    exact Leads.dead hnext

theorem wildcard_eq_none {kind : Kind}
    (h : (n.child? fun c => decide (kind.rank ≤ c.kind.rank)) = none) : n.wildcard path = none := by
  rw [Tree.wildcard, child?_eq_none h]
  · rfl
  · intro c hc
    rw [eq_of_beq hc]
    cases kind <;> rfl

theorem param_eq_none (h : (n.child? fun c => decide (Kind.param.rank ≤ c.kind.rank)) = none) :
    n.param path = none := by
  rw [Tree.param, child?_eq_none h]
  · rfl
  · intro c hc
    rw [eq_of_beq hc]
    rfl

section children
variable [LawfulSink σ] (h : t.Stores parent n)
  (ih : ∀ m ∈ n.children, ∀ (path : List Char) (marks : List Mark) (captures : σ),
    Leads t ⟨.enter, m.slot, path, marks, captures⟩ (6 * m.slots.length) (m.enter path))
include h ih

theorem leads_param : Leads t ⟨.ask .param, n.slot, path, marks, captures⟩
    (below (n.child? (·.kind == Kind.param)) + 3) ((n.param path).or (n.wildcard path)) := by
  have hnext := next?_param h path marks captures
  have hpass (hnone : n.param path = none)
      (hnext : (⟨.ask .param, n.slot, path, marks, captures⟩ : Search σ).next? t =
        some (.going ⟨.ask .wildcard, n.slot, path, marks, captures⟩)) :
      Leads t ⟨.ask .param, n.slot, path, marks, captures⟩
        (below (n.child? (·.kind == Kind.param)) + 3) ((n.param path).or (n.wildcard path)) := by
    rw [hnone, Option.none_or]
    exact (Leads.pass hnext (leads_wildcard h)).mono (by omega)
  cases hfind : n.child? (·.kind == Kind.param) with
  | none =>
    rw [hfind] at hpass hnext
    exact hpass (by rw [Tree.param, hfind]; rfl) hnext
  | some m =>
    rw [hfind] at hpass hnext
    by_cases hstop : path.takeWhile (· ≠ '/') = []
    · simp only [hstop, if_true] at hnext
      exact hpass (by rw [Tree.param, hfind, Option.bind_some, if_pos hstop]) hnext
    · simp only [hstop, if_false] at hnext
      have hparam : n.param path = behind [path.takeWhile (· ≠ '/')]
          (m.enter (path.dropWhile (· ≠ '/'))) := by
        rw [Tree.param, hfind, Option.bind_some, if_neg hstop]
        rfl
      rw [hparam]
      exact (Leads.descend hnext (ih m (Tree.child?_mem hfind).1 _) (leads_wildcard h)
        wildcard_eq_none).mono (by simp only [below, Option.elim_some]; omega)

theorem leads_static : Leads t ⟨.ask .static, n.slot, path, marks, captures⟩
    (below (n.child? fun m => m.label == labelOf path && m.kind == .static) +
      below (n.child? (·.kind == Kind.param)) + 5)
    ((n.static path).or ((n.param path).or (n.wildcard path))) := by
  have hnext := next?_static h path marks captures
  cases hfind : n.child? fun m => m.label == labelOf path && m.kind == .static with
  | none =>
    rw [hfind] at hnext
    rw [Tree.static, hfind, Option.bind_none, Option.none_or]
    exact (Leads.pass hnext (leads_param h ih)).mono
      (by simp only [below, Option.elim_none]; omega)
  | some m =>
    rw [hfind] at hnext
    have hstatic : n.static path = behind [] (m.enter path) := by
      rw [Tree.static, hfind, behind_nil]
      rfl
    rw [hstatic]
    refine (Leads.descend hnext (ih m (Tree.child?_mem hfind).1 _) (leads_param h ih)
      fun hnone => ?_).mono (by simp only [below, Option.elim_some]; omega)
    rw [param_eq_none hnone, wildcard_eq_none hnone]
    rfl

end children

theorem accepts?_eq (h : t.Stores parent n) : Search.accepts? t n.slot = some n.accepts := by
  have hchild : t.childOfKind? n.slot .wildcard =
      some ((n.child? (·.kind == Kind.wildcard)).map Tree.slot) := h.child?_eq _
  rw [Search.accepts?, h.node?_eq, Tree.accepts]
  show (if n.content.hasRoute = true then _ else _) = _
  cases n.content.hasRoute with
  | true => rfl
  | false =>
    rw [if_neg Bool.false_ne_true, hchild, Bool.false_or]
    cases n.child? (·.kind == Kind.wildcard) <;> rfl

end node

/-- What two children take is no more than what all take. -/
theorem add_le_sum_of_mem {α : Type} (f : α → Nat) {l : List α} {a b : α} (ha : a ∈ l)
    (hb : b ∈ l) (hne : a ≠ b) : f a + f b ≤ (l.map f).sum := by
  induction l with
  | nil => cases ha
  | cons x rest ih =>
    rw [List.map_cons, List.sum_cons]
    rcases List.mem_cons.mp ha with rfl | ha'
    · rcases List.mem_cons.mp hb with rfl | hb'
      · exact (hne rfl).elim
      · exact Nat.add_le_add_left (List.le_sum_of_mem (List.mem_map_of_mem hb')) _
    · rcases List.mem_cons.mp hb with rfl | hb'
      · rw [Nat.add_comm]
        exact Nat.add_le_add_left (List.le_sum_of_mem (List.mem_map_of_mem ha')) _
      · exact Nat.le_add_left_of_le (ih ha' hb')

/-- A static and a parameter child are two of a node's children. -/
theorem below_add_below_le (n : Tree H) (label : Char) :
    below (n.child? fun m => m.label == label && m.kind == .static) +
      below (n.child? (·.kind == Kind.param)) + 6 ≤ 6 * n.slots.length := by
  have hslots : n.slots.length = (n.children.map fun m => m.slots.length).sum + 1 := by
    rw [Tree.slots_eq, List.length_cons, List.length_flatMap]
  have hle {m : Tree H} (hm : m ∈ n.children) :
      m.slots.length ≤ (n.children.map fun m => m.slots.length).sum :=
    List.le_sum_of_mem (List.mem_map_of_mem hm)
  cases hstatic : n.child? fun m => m.label == label && m.kind == .static with
  | none =>
    cases hparam : n.child? (·.kind == Kind.param) with
    | none =>
      simp only [below, Option.elim_none]
      omega
    | some p =>
      have := hle (Tree.child?_mem hparam).1
      simp only [below, Option.elim_none, Option.elim_some]
      omega
  | some s =>
    cases hparam : n.child? (·.kind == Kind.param) with
    | none =>
      have := hle (Tree.child?_mem hstatic).1
      simp only [below, Option.elim_none, Option.elim_some]
      omega
    | some p =>
      have hne : s ≠ p := by
        rintro rfl
        have hkind := (Bool.and_eq_true_iff.mp (Tree.child?_mem hstatic).2).2
        rw [eq_of_beq (Tree.child?_mem hparam).2] at hkind
        cases hkind
      have := add_le_sum_of_mem (fun m : Tree H => m.slots.length) (Tree.child?_mem hstatic).1
        (Tree.child?_mem hparam).1 hne
      simp only [below, Option.elim_some]
      omega

/-- What a search does that comes to a node. -/
theorem next?_enter {t : Trie H} {parent : Option Slot} {n : Tree H} (h : t.Stores parent n)
    {path : List Char} {after : Option (List Char)} (hafter : (if n.content.kind = .static then
      Text.after? n.content.text path else some path) = after) (marks : List Mark) (captures : σ) :
    (⟨.enter, n.slot, path, marks, captures⟩ : Search σ).next? t = some (match after with
      | none => .going ⟨.goBack, n.slot, path, marks, captures⟩
      | some [] =>
        if n.accepts then .ended (some n.slot) captures
        else .going ⟨.goBack, n.slot, path, marks, captures⟩
      | some rest => .going ⟨.ask .static, n.slot, rest, marks, captures⟩) := by
  rw [Search.next?, Search.enter?, h.node?_eq]
  simp only [Option.bind_eq_bind, Option.bind_some, hafter]
  match after with
  | none => rfl
  | some [] =>
    simp only [accepts?_eq h, Option.bind_some]
    cases n.accepts <;> rfl
  | some (c :: rest) => rfl

/-- A search that comes to a node goes where the recursion does. -/
theorem leads_enter [LawfulSink σ] {t : Trie H} {parent : Option Slot} {n : Tree H}
    (h : t.Stores parent n) (path : List Char) (marks : List Mark) (captures : σ) :
    Leads t ⟨.enter, n.slot, path, marks, captures⟩ (6 * n.slots.length) (n.enter path) := by
  induction n using Tree.induction generalizing parent path marks captures with
  | step slot content children ih =>
    generalize hn : Tree.node slot content children = n at *
    have hchildren : ∀ m ∈ n.children, ∀ (path : List Char) (marks : List Mark) (captures : σ),
        Leads t ⟨.enter, m.slot, path, marks, captures⟩ (6 * m.slots.length) (m.enter path) := by
      intro m hm
      refine ih m ?_ (h.child hm)
      rw [← hn] at hm
      exact hm
    have hpos : 1 ≤ 6 * n.slots.length := by
      rw [Tree.slots_eq, List.length_cons]
      omega
    unfold Tree.enter
    generalize hafter : (if n.content.kind = .static then Text.after? n.content.text path
      else some path) = after
    have hnext := next?_enter h hafter marks captures
    match after with
    | none => exact (Leads.dead hnext).mono hpos
    | some [] =>
      rw [Option.bind_some, Tree.seek_nil]
      cases haccepts : n.accepts with
      | true =>
        rw [haccepts] at hnext
        have hended : (⟨.enter, n.slot, path, marks, captures⟩ : Search σ).next? t =
          some (.ended (some n.slot) (pushed captures [])) := hnext
        exact (Leads.ended hended).mono hpos
      | false =>
        rw [haccepts] at hnext
        exact (Leads.dead hnext).mono hpos
    | some (c :: rest) =>
      rw [Option.bind_some, Tree.seek_cons]
      have hleads := Leads.step hnext rfl (show captures = pushed captures [] from rfl)
        (leads_static h hchildren)
      rw [behind_nil] at hleads
      have := below_add_below_le n (labelOf (c :: rest))
      exact hleads.mono (by omega)

/-- The search finds what the recursion finds, and turns do not run out. Where nothing is found
nothing stays captured. -/
theorem Holds.search?_eq [LawfulSink σ] {t : Trie H} {n : Tree H} (h : t.Holds n)
    (hnonempty : t.isEmpty = false) (path : List Char) (captures : σ) :
    t.search? path captures = some (match n.enter path with
      | some (m, texts) => (some m.slot, pushed captures texts)
      | none => (none, Sink.truncate captures 0)) := by
  obtain ⟨cost, hcost, hrun⟩ := leads_enter h.stored path [] captures
  obtain ⟨more, hmore⟩ : ∃ more, 6 * t.nodeCount + 1 = cost + (more + 1) := by
    refine ⟨6 * t.nodeCount - cost, ?_⟩
    rw [h.nodeCount_eq]
    rw [Tree.slots, List.length_map] at hcost
    omega
  rw [search?, hnonempty, if_neg Bool.false_ne_true, hmore, Search.start,
    show root = n.slot from h.rooted.symm]
  cases hfound : n.enter path with
  | some found =>
    rw [hfound] at hrun
    exact hrun (more + 1)
  | none =>
    rw [hfound] at hrun
    obtain ⟨slot, rest, texts, hrun⟩ := hrun
    rw [hrun (more + 1), run?_ended rfl]
    exact congrArg (fun c => some (none, c)) (truncate_pushed texts (Nat.zero_le _))

end search

end Routing.Trie
