import Routing.Params
import Routing.Proofs.Trie.Course

/-! How much a search captures.

At a node a search has captured a text for each placeholder of the node's path at most, and each
mark goes back to no more than its node's path has (`Search.Within`). Going down to a parameter or
a wildcard captures one text and adds one placeholder, so a turn keeps it like that
(`Holds.next?_within`), and it holds in every turn of a search, whether it leads anywhere or not
(`Search.Course.within`). -/
namespace Routing

namespace Params

theorem size_push (params : Params) (text : List Char) :
    Params.size (Trie.Sink.push params text) = params.size + 1 := List.length_append

theorem size_truncate_le (params : Params) (count : Nat) :
    Params.size (Trie.Sink.truncate params count) ≤ count := List.length_take_le ..

end Params

open Text

theorem Kind.Fits.marks_eq_one {kind : Kind} {text : List Char} (h : kind.Fits text)
    (hkind : kind ≠ .static) : marks text = 1 := by
  cases kind with
  | static => exact (hkind rfl).elim
  | param =>
    rw [show text = [':'] from h]
    rfl
  | wildcard =>
    rw [show text = ['*'] from h]
    rfl

namespace Trie
variable {H : Type}

/-- The path of a node has so many placeholders at least. -/
def Tree.Affords (n : Tree H) (slot : Slot) (count : Nat) : Prop :=
  ∃ c ∈ n.all, c.slot = slot ∧ count ≤ marks c.path

namespace Search

/-- What has been captured, and what the marks go back to, is within the placeholders there are
up to the nodes. -/
structure Within (n : Tree H) (s : Search Params) : Prop where
  captured : n.Affords s.slot s.captures.size
  marks : ∀ mark ∈ s.marks, n.Affords mark.slot mark.captured

namespace Turn

/-- What is captured after a turn. -/
def captures : Turn Params → Params
  | going next => next.captures
  | ended _ left => left

def Within (n : Tree H) : Turn Params → Prop
  | going next => next.Within n
  | ended (some slot) left => n.Affords slot left.size
  | ended none left => left.size = 0

end Turn

end Search

/-! ### A turn -/

section part
variable {t : Trie H} {C : Context H} {n m : Tree H} {count : Nat}

theorem affords_child (hm : m ∈ n.children) (h : count ≤ marks (C.above ++ n.content.text)) :
    (C.plug n).Affords m.slot count := by
  refine ⟨_, Context.mem_of_part (Tree.mem_cells_of_child hm Tree.top_mem), rfl, ?_⟩
  rw [Tree.top_path, marks_append]
  exact Nat.le_add_right_of_le h

/-- A parameter or a wildcard has one placeholder more than the node above it. -/
theorem affords_mark (hfits : ∀ c ∈ (C.plug n).all, c.content.kind.Fits c.content.text)
    {kind : Kind} (hfind : n.child? (·.kind == kind) = some m) (hkind : kind ≠ .static)
    (h : count ≤ marks (C.above ++ n.content.text)) : (C.plug n).Affords m.slot (count + 1) := by
  obtain ⟨hm, htest⟩ := Tree.child?_mem hfind
  have hcell : m.top (C.above ++ n.content.text) (some n.slot) ∈ (C.plug n).all :=
    Context.mem_of_part (Tree.mem_cells_of_child hm Tree.top_mem)
  have hsame : m.content.kind = kind := eq_of_beq htest
  have hone : marks m.content.text = 1 := (hfits _ hcell).marks_eq_one (hsame ▸ hkind)
  refine ⟨_, hcell, rfl, ?_⟩
  rw [Tree.top_path, marks_append, hone]
  exact Nat.add_le_add_right h 1

variable {path : List Char} {left : List Mark} {captures : Params}
  (hcount : captures.size ≤ marks (C.above ++ n.content.text))
  (hmarks : ∀ mark ∈ left, (C.plug n).Affords mark.slot mark.captured)
include hcount hmarks

theorem within_stay (phase : Phase) (path : List Char) :
    (⟨phase, n.slot, path, left, captures⟩ : Search Params).Within (C.plug n) :=
  ⟨⟨_, Context.top_mem, rfl, hcount⟩, hmarks⟩

theorem affords_marked (kind : Kind) (path : List Char) :
    ∀ mark ∈ n.marked kind path captures left, (C.plug n).Affords mark.slot mark.captured := by
  unfold Tree.marked
  split
  · exact List.forall_mem_cons.mpr ⟨⟨_, Context.top_mem, rfl, hcount⟩, hmarks⟩
  · exact hmarks

/-! Each phase in turn. -/

section phases
variable (h : t.Stores C.parent n) {turn : Search.Turn Params}
include h

theorem within_enter
    (hnext : (⟨.enter, n.slot, path, left, captures⟩ : Search Params).next? t = some turn) :
    turn.Within (C.plug n) := by
  generalize hafter : (if n.content.kind = .static then Text.after? n.content.text path
    else some path) = after
  rw [next?_enter h hafter] at hnext
  obtain rfl := Option.some.inj hnext
  match after with
  | none | some (_ :: _) => exact within_stay hcount hmarks ..
  | some [] =>
    cases haccepts : n.accepts with
    | false => exact within_stay hcount hmarks ..
    | true => exact ⟨_, Context.top_mem, rfl, hcount⟩

theorem within_static
    (hnext : (⟨.ask .static, n.slot, path, left, captures⟩ : Search Params).next? t = some turn) :
    turn.Within (C.plug n) := by
  rw [next?_static h] at hnext
  obtain rfl := Option.some.inj hnext
  cases hfind : n.child? fun m => m.label == labelOf path && m.kind == .static with
  | none => exact within_stay hcount hmarks ..
  | some m =>
    exact ⟨affords_child (Tree.child?_mem hfind).1 hcount, affords_marked hcount hmarks _ _⟩

variable (hfits : ∀ c ∈ (C.plug n).all, c.content.kind.Fits c.content.text)
include hfits

theorem within_param
    (hnext : (⟨.ask .param, n.slot, path, left, captures⟩ : Search Params).next? t = some turn) :
    turn.Within (C.plug n) := by
  rw [next?_param h] at hnext
  obtain rfl := Option.some.inj hnext
  cases hfind : n.child? (·.kind == Kind.param) with
  | none => exact within_stay hcount hmarks ..
  | some m =>
    by_cases hsegment : path.takeWhile (· ≠ '/') = []
    · simp only [hsegment, if_true]
      exact within_stay hcount hmarks ..
    · simp only [hsegment, if_false]
      refine ⟨?_, affords_marked hcount hmarks _ _⟩
      rw [Params.size_push]
      exact affords_mark hfits hfind (by decide) hcount

theorem within_wildcard
    (hnext : (⟨.ask .wildcard, n.slot, path, left, captures⟩ : Search Params).next? t = some turn) :
    turn.Within (C.plug n) := by
  rw [next?_wildcard h] at hnext
  obtain rfl := Option.some.inj hnext
  cases hfind : n.child? (·.kind == Kind.wildcard) with
  | none => exact within_stay hcount hmarks ..
  | some m =>
    show (C.plug n).Affords m.slot _
    rw [Params.size_push]
    exact affords_mark hfits hfind (by decide) hcount

end phases

end part

theorem Tree.Affords.mono {n : Tree H} {slot : Slot} {count less : Nat} (h : n.Affords slot count)
    (hle : less ≤ count) : n.Affords slot less := by
  obtain ⟨c, hc, hslot, hcount⟩ := h
  exact ⟨c, hc, hslot, hle.trans hcount⟩

/-- Going back drops what was captured since the mark was left. -/
theorem Search.Within.goBack {n : Tree H} {s : Search Params} (h : s.Within n) :
    s.goBack.Within n := by
  obtain ⟨phase, slot, path, left, captures⟩ := s
  cases left with
  | nil => exact Nat.le_zero.mp (Params.size_truncate_le captures 0)
  | cons mark left =>
    obtain ⟨hmark, hleft⟩ := List.forall_mem_cons.mp h.marks
    exact ⟨hmark.mono (Params.size_truncate_le ..), hleft⟩

section run
variable {t : Trie H} {n : Tree H} (h : t.Holds n)
  (hfits : ∀ c ∈ n.all, c.content.kind.Fits c.content.text)
include h hfits

theorem Holds.next?_within {s : Search Params} (hs : s.Within n) {turn : Search.Turn Params}
    (hnext : s.next? t = some turn) : turn.Within n := by
  obtain ⟨phase, slot, path, left, captures⟩ := s
  obtain ⟨⟨c, hc, rfl, hcount⟩, hmarks⟩ := hs
  obtain ⟨C, m, rfl, rfl⟩ := Context.exists_plug (C := .hole) hc
  match phase with
  | .enter => exact within_enter hcount hmarks h.part hnext
  | .ask .static => exact within_static hcount hmarks h.part hnext
  | .ask .param => exact within_param hcount hmarks h.part hfits hnext
  | .ask .wildcard => exact within_wildcard hcount hmarks h.part hfits hnext
  | .goBack =>
    obtain rfl := Option.some.inj hnext
    exact Search.Within.goBack ⟨⟨_, hc, rfl, hcount⟩, hmarks⟩

/-- Whatever a search does, it stays within what the nodes have placeholders for. -/
theorem Search.Course.within {s : Search Params}
    {course : List (Search Params × Search.Turn Params)} {found : Option Slot} {left : Params}
    (hcourse : Search.Course t s course found left) (hs : s.Within n) :
    (∀ entry ∈ course, entry.1.Within n ∧ entry.2.Within n) ∧
      (Search.Turn.ended found left).Within n := by
  induction hcourse with
  | ended hnext =>
    have hend := h.next?_within hfits hs hnext
    exact ⟨List.forall_mem_singleton.mpr ⟨hs, hend⟩, hend⟩
  | going hnext _ ih =>
    have hgoing := h.next?_within hfits hs hnext
    obtain ⟨hall, hend⟩ := ih hgoing
    exact ⟨List.forall_mem_cons.mpr ⟨⟨hs, hgoing⟩, hall⟩, hend⟩

/-- A search that starts with nothing captured stays within it. -/
theorem Holds.search_within (path : List Char) (params : Params) : ∃ course found left,
    Search.Course t (Search.start path params.clear) course found left ∧
      t.search? path params.clear =
        some (if t.isEmpty then (none, params.clear) else (found, left)) ∧
      (∀ entry ∈ course, entry.1.Within n ∧ entry.2.Within n) ∧
      (Search.Turn.ended found left).Within n := by
  obtain ⟨course, found, left, hcourse, hlength, -⟩ := h.course path params.clear
  have hstart : (Search.start path params.clear).Within n :=
    ⟨⟨_, Tree.top_mem, h.rooted, Nat.zero_le _⟩, fun mark hmark => (List.not_mem_nil hmark).elim⟩
  obtain ⟨hall, hend⟩ := hcourse.within h hfits hstart
  refine ⟨course, found, left, hcourse, ?_, hall, hend⟩
  rw [search?, hcourse.run?_eq hlength]
  split <;> rfl

end run

end Trie

end Routing
