import Mathlib.Logic.Relation
import Routing.Proofs.Trie.Locate
import Routing.Proofs.Trie.Seek

/-! What the loops come to.

A loop over a trie goes from node to node by the numbers it reads in them, and slices texts at
offsets it computes. Each loop has a relation for the turns that go on (`AtTurn`, `SearchTurn` and
so on), and what it comes to is what such turns lead to (`Relation.ReflTransGen`). In a closed trie
(`Closed`) a node in use only leads to nodes in use, so a loop comes to no other. -/
namespace Routing.Trie
open Relation Text
variable {H : Type}

/-! ### Places in use -/

/-- A place whose number may be used: there is one, it is not given back, and nodes lead from the
root to the one there. -/
structure InUse (t : Trie H) (slot : Slot) : Prop where
  stored : slot < t.nodes.size
  kept : slot ∉ t.free
  live : t.Live slot

/-- All numbers that can be read lead to places in use, and those to be given out again to
places there are. -/
structure Closed (t : Trie H) : Prop where
  root : t.InUse root
  child : ∀ {slot child : Slot} {n : Node H}, t.InUse slot → t.node? slot = some n →
    child ∈ n.children → t.InUse child
  parent : ∀ {slot parent : Slot} {n : Node H}, t.InUse slot → t.node? slot = some n →
    n.parent = some parent → t.InUse parent
  free : ∀ slot ∈ t.free, slot < t.nodes.size

theorem Holds.inUse_iff {t : Trie H} {n : Tree H} (h : t.Holds n) {slot : Slot} :
    t.InUse slot ↔ slot ∈ n.slots := by
  refine ⟨fun hslot => h.live_iff.mp hslot.live, fun hslot => ⟨?_, ?_, h.live_iff.mpr hslot⟩⟩
  · exact List.mem_range.mp (h.slots.mem_iff.mp (List.mem_append_left _ hslot))
  · exact List.disjoint_of_nodup_append h.nodup hslot

theorem Holds.inUse {t : Trie H} {C : Context H} {n : Tree H} (h : t.Holds (C.plug n)) :
    t.InUse n.slot :=
  h.inUse_iff.mpr ((C.slots_plug n).mem_iff.mpr (List.mem_append_left _ (Tree.slot_mem_slots n)))

theorem Holds.closed {t : Trie H} {n : Tree H} (h : t.Holds n) : t.Closed where
  root := h.rooted ▸ h.inUse (C := .hole)
  child := by
    intro slot child node hslot hnode hchild
    obtain ⟨C, c, left, right, m, rfl, rfl⟩ :=
      h.slot_mem_of_child (h.inUse_iff.mp hslot) hnode hchild
    exact h.inUse
  parent := by
    intro slot parent node hslot hnode hparent
    obtain ⟨C, m, rfl, rfl⟩ := Context.exists_plug_of_slot (h.inUse_iff.mp hslot)
    obtain rfl := Option.some.inj (hnode.symm.trans h.node?_eq)
    cases C with
    | hole => cases hparent
    | under outer slot c left right =>
      obtain rfl : slot = parent := Option.some.inj hparent
      have hup : t.Holds (outer.plug (.node slot c (left ++ m :: right))) := h
      exact hup.inUse
  free := fun _ hslot =>
    List.mem_range.mp (h.slots.mem_iff.mp (List.mem_append_right _ hslot))

theorem InUse.exists_node {t : Trie H} {slot : Slot} (h : t.InUse slot) :
    ∃ n, t.node? slot = some n := ⟨_, Array.getElem?_eq_getElem h.stored⟩

theorem firstOf?_inUse {t : Trie H} {slots : List Slot} (h : ∀ slot ∈ slots, t.InUse slot)
    (test : Content H → Bool) : ∃ found, t.firstOf? test slots = some found ∧
      ∀ child ∈ found, child ∈ slots ∧ ∃ n, t.node? child = some n ∧ test n.toContent = true := by
  induction slots with
  | nil => exact ⟨none, rfl, by simp⟩
  | cons slot rest ih =>
    obtain ⟨n, hnode⟩ := (h slot (List.mem_cons_self ..)).exists_node
    rw [firstOf?, hnode]
    by_cases htest : test n.toContent = true
    · refine ⟨some slot, if_pos htest, ?_⟩
      rintro _ ⟨⟩
      exact ⟨List.mem_cons_self .., n, hnode, htest⟩
    · obtain ⟨found, hfound, hchild⟩ := ih fun s hs => h s (List.mem_cons_of_mem _ hs)
      refine ⟨found, (if_neg htest).trans hfound, fun child hc => ?_⟩
      exact (hchild child hc).imp_left (List.mem_cons_of_mem _)

section closed
variable {t : Trie H} (hclosed : t.Closed)
include hclosed

/-- A node in use can be asked for a child, and has one in use or none. -/
theorem Closed.child? {slot : Slot} (h : t.InUse slot) (test : Content H → Bool) :
    ∃ found, t.child? slot test = some found ∧ ∀ child ∈ found, t.InUse child ∧
      ∃ n, t.node? child = some n ∧ test n.toContent = true := by
  obtain ⟨n, hnode⟩ := h.exists_node
  obtain ⟨found, hfound, hchild⟩ :=
    firstOf?_inUse (fun child hmem => hclosed.child h hnode hmem) test
  refine ⟨found, ?_, fun child hc => (hchild child hc).imp_left (hclosed.child h hnode)⟩
  rw [Trie.child?, hnode]
  exact hfound

theorem Closed.of_child? {slot child : Slot} (h : t.InUse slot) {test : Content H → Bool}
    (hchild : t.child? slot test = some (some child)) :
    t.InUse child ∧ ∃ n, t.node? child = some n ∧ test n.toContent = true := by
  obtain ⟨found, hfound, hinUse⟩ := hclosed.child? h test
  exact hinUse child (Option.some.inj (hfound.symm.trans hchild) ▸ rfl)

end closed

/-! ### Down, up and over all nodes -/

/-- A turn of `atFrom?` that goes on. -/
inductive AtTurn (t : Trie H) : Slot × List Char → Slot × List Char → Prop
  | child {slot child : Slot} {n : Node H} {path rest : List Char} {c : Char} :
    t.node? slot = some n → Text.after? n.text path = some (c :: rest) →
    t.childLabelled? slot c = some (some child) → AtTurn t (slot, path) (child, c :: rest)

/-- A turn of `lineage?` that goes on. -/
inductive LineageTurn (t : Trie H) : Slot → Slot → Prop
  | parent {slot parent : Slot} {n : Node H} :
    t.node? slot = some n → n.parent = some parent → LineageTurn t slot parent

/-- A turn of `walkFrom?`. -/
inductive WalkTurn (t : Trie H) : List Slot → List Slot → Prop
  | node {slot : Slot} {n : Node H} {rest : List Slot} :
    t.node? slot = some n → WalkTurn t (slot :: rest) (n.children ++ rest)

/-- A turn of `linesFrom?`. -/
inductive LinesTurn (t : Trie H) : List (Slot × Nat) → List (Slot × Nat) → Prop
  | node {slot : Slot} {depth : Nat} {n : Node H} {rest : List (Slot × Nat)} :
    t.node? slot = some n →
    LinesTurn t ((slot, depth) :: rest) (n.children.map (·, depth + 1) ++ rest)

/-- The way down goes on by a turn, or ends here however many turns are left. -/
theorem atFrom?_turn (t : Trie H) (slot : Slot) (path : List Char) :
    (∃ slot' path', t.AtTurn (slot, path) (slot', path') ∧
      ∀ turns, t.atFrom? (turns + 1) slot path = t.atFrom? turns slot' path') ∨
    ∃ result, ∀ turns, t.atFrom? (turns + 1) slot path = result := by
  cases hnode : t.node? slot with
  | none => exact .inr ⟨none, fun turns => by rw [atFrom?, hnode]; rfl⟩
  | some n =>
    simp only [atFrom?, hnode, Option.bind_eq_bind, Option.bind_some]
    rcases hafter : after? n.text path with - | (- | ⟨c, rest⟩)
    · exact .inr ⟨_, fun _ => rfl⟩
    · exact .inr ⟨_, fun _ => rfl⟩
    · simp only
      rcases hchild : t.childLabelled? slot c with - | (- | child)
      · exact .inr ⟨none, fun _ => rfl⟩
      · exact .inr ⟨_, fun _ => rfl⟩
      · exact .inl ⟨child, c :: rest, .child hnode hafter hchild, fun _ => rfl⟩

/-- The way up goes on by a turn, or ends here however many turns are left. -/
theorem lineage?_turn (t : Trie H) (slot : Slot) :
    (∃ parent n, t.LineageTurn slot parent ∧
      ∀ turns, t.lineage? (turns + 1) slot = (t.lineage? turns parent).map (n :: ·)) ∨
    ∃ result, ∀ turns, t.lineage? (turns + 1) slot = result := by
  cases hnode : t.node? slot with
  | none => exact .inr ⟨none, fun turns => by rw [lineage?, hnode]; rfl⟩
  | some n =>
    simp only [lineage?, hnode, Option.bind_eq_bind, Option.bind_some]
    cases hparent : n.parent with
    | none => exact .inr ⟨_, fun _ => rfl⟩
    | some parent =>
      exact .inl ⟨parent, n, .parent hnode hparent, fun _ => (Option.map_eq_bind ..).symm⟩

/-- The walk goes on by a turn as long as there is a stack. -/
theorem walkFrom?_turn (t : Trie H) (slot : Slot) (rest : List Slot) :
    (∃ stack, t.WalkTurn (slot :: rest) stack ∧ ∀ turns,
      t.walkFrom? (turns + 1) (slot :: rest) = (t.walkFrom? turns stack).map (slot :: ·)) ∨
    ∀ turns, t.walkFrom? (turns + 1) (slot :: rest) = none := by
  cases hnode : t.node? slot with
  | none => exact .inr fun turns => by rw [walkFrom?, hnode]; rfl
  | some n =>
    refine .inl ⟨_, .node hnode, fun turns => ?_⟩
    rw [walkFrom?, hnode, Option.map_eq_bind]
    rfl

/-- The outline goes on by a turn as long as there is a stack. -/
theorem linesFrom?_turn (t : Trie H) (slot : Slot) (depth : Nat) (rest : List (Slot × Nat)) :
    (∃ (stack : List (Slot × Nat)) (written : Option String),
      t.LinesTurn ((slot, depth) :: rest) stack ∧ ∀ turns,
        t.linesFrom? (turns + 1) ((slot, depth) :: rest) =
          (t.linesFrom? turns stack).bind fun lines => written.map (· :: lines)) ∨
    ∀ turns, t.linesFrom? (turns + 1) ((slot, depth) :: rest) = none := by
  cases hnode : t.node? slot with
  | none => exact .inr fun turns => by rw [linesFrom?, hnode]; rfl
  | some n =>
    refine .inl ⟨_, line? depth n.toContent, .node hnode, fun turns => ?_⟩
    rw [linesFrom?, hnode]
    simp only [Option.bind_eq_bind, Option.bind_some]
    exact congrArg _ (funext fun lines => (Option.map_eq_bind ..).symm)

section turns
variable {t : Trie H}

/-- The stack of `linesFrom?` has the places that the stack of `walkFrom?` has. -/
theorem LinesTurn.walk {stack stack' : List (Slot × Nat)} (h : t.LinesTurn stack stack') :
    t.WalkTurn (stack.map Prod.fst) (stack'.map Prod.fst) := by
  cases h with
  | @node slot depth n rest hnode =>
    rw [List.map_append, List.map_map, List.map_cons]
    rw [show Prod.fst ∘ (·, depth + 1) = (id : Slot → Slot) from rfl, List.map_id]
    exact .node hnode

variable (hclosed : t.Closed)
include hclosed

theorem Closed.atTurns {s s' : Slot × List Char} (h : ReflTransGen t.AtTurn s s')
    (hs : t.InUse s.1) : t.InUse s'.1 := by
  induction h with
  | refl => exact hs
  | tail _ hturn ih =>
    cases hturn with
    | child _ _ hchild => exact (hclosed.of_child? ih hchild).1

theorem Closed.lineageTurns {slot slot' : Slot} (h : ReflTransGen t.LineageTurn slot slot')
    (hslot : t.InUse slot) : t.InUse slot' := by
  induction h with
  | refl => exact hslot
  | tail _ hturn ih =>
    cases hturn with
    | parent hnode hparent => exact hclosed.parent ih hnode hparent

theorem Closed.walkTurns {stack stack' : List Slot} (h : ReflTransGen t.WalkTurn stack stack')
    (hstack : ∀ slot ∈ stack, t.InUse slot) : ∀ slot ∈ stack', t.InUse slot := by
  induction h with
  | refl => exact hstack
  | tail _ hturn ih =>
    cases hturn with
    | node hnode =>
      obtain ⟨hfirst, hrest⟩ := List.forall_mem_cons.mp ih
      exact List.forall_mem_append.mpr ⟨fun _ => hclosed.child hfirst hnode, hrest⟩

end turns

/-! ### Searching -/

section search
variable {σ : Type} [Sink σ] {t : Trie H} {path : List Char}

/-- A turn of a search that goes on. -/
def SearchTurn (t : Trie H) (s s' : Search σ) : Prop := s.next? t = some (.going s')

/-- The node and the text that a search has come to, and those it may go back to. -/
structure Search.InBounds (t : Trie H) (path : List Char) (s : Search σ) : Prop where
  slot : t.InUse s.slot
  rest : Tail path s.rest
  marks : ∀ mark ∈ s.marks, t.InUse mark.slot ∧ Tail path mark.rest

/-- A search goes on in bounds, or ends with a place in use or with none. -/
def Search.Turn.InBounds (t : Trie H) (path : List Char) : Search.Turn σ → Prop
  | going s => s.InBounds t path
  | ended found _ => ∀ slot ∈ found, t.InUse slot

/-- A search only uses places in use, and slices on boundaries; the segment that a parameter
takes is part of the rest. -/
structure SearchSafe (t : Trie H) (path : List Char) (captures : σ) : Prop where
  visits : ∀ {s : Search σ}, ReflTransGen t.SearchTurn (Search.start path captures) s →
    s.InBounds t path ∧ OnBoundary s.rest (offsetOf '/' s.rest) ∧ s.next? t ≠ none
  ends : ∃ found left, t.search? path captures = some (found, left) ∧ ∀ slot ∈ found, t.InUse slot

namespace Search
variable {s : Search σ}

theorem accepts?_inUse (hclosed : t.Closed) {slot : Slot} (h : t.InUse slot) :
    ∃ accepts, accepts? t slot = some accepts := by
  obtain ⟨n, hnode⟩ := h.exists_node
  obtain ⟨found, hfound, -⟩ := hclosed.child? h (·.kind == .wildcard)
  rw [accepts?, hnode]
  simp only [Option.bind_eq_bind, Option.bind_some, childOfKind?, hfound]
  split
  · exact ⟨true, rfl⟩
  · exact ⟨_, rfl⟩

theorem InBounds.markFor? (hclosed : t.Closed) (h : s.InBounds t path) (kind : Kind) :
    ∃ marks, s.markFor? t kind = some marks ∧
      ∀ mark ∈ marks, t.InUse mark.slot ∧ Tail path mark.rest := by
  obtain ⟨found, hfound, -⟩ := hclosed.child? h.slot fun c => decide (kind.rank ≤ c.kind.rank)
  rw [Search.markFor?, hfound]
  cases found with
  | none => exact ⟨_, rfl, h.marks⟩
  | some _ => exact ⟨_, rfl, List.forall_mem_cons.mpr ⟨⟨h.slot, h.rest⟩, h.marks⟩⟩

omit [Sink σ] in
theorem InBounds.enter? (hclosed : t.Closed) (h : s.InBounds t path) :
    ∃ turn, s.enter? t = some turn ∧ turn.InBounds t path := by
  obtain ⟨n, hnode⟩ := h.slot.exists_node
  obtain ⟨accepts, haccepts⟩ := accepts?_inUse hclosed h.slot
  have hback : ({ s with phase := .goBack } : Search σ).InBounds t path := ⟨h.slot, h.rest, h.marks⟩
  have hrest {rest : List Char}
      (hleft : (if n.kind = .static then after? n.text s.rest else some s.rest) = some rest) :
      Tail path rest := by
    split at hleft
    · exact h.rest.trans (tail_iff.mpr ⟨n.text, (after?_eq_some.mp hleft).symm⟩)
    · exact Option.some.inj hleft ▸ h.rest
  rw [Search.enter?, hnode]
  simp only [Option.bind_eq_bind, Option.bind_some, haccepts]
  split
  · exact ⟨_, rfl, hback⟩
  · next c rest hleft => exact ⟨_, rfl, h.slot, hrest hleft, h.marks⟩
  · cases accepts with
    | true =>
      refine ⟨_, rfl, ?_⟩
      rintro _ ⟨⟩
      exact h.slot
    | false => exact ⟨_, rfl, hback⟩

theorem InBounds.askStatic? (hclosed : t.Closed) (h : s.InBounds t path) :
    ∃ turn, s.askStatic? t = some turn ∧ turn.InBounds t path := by
  obtain ⟨found, hfound, hchild⟩ :=
    hclosed.child? h.slot fun c => c.label == labelOf s.rest && c.kind == .static
  obtain ⟨marks, hmarks, hmarksIn⟩ := h.markFor? hclosed .param
  rw [Search.askStatic?, hfound]
  cases found with
  | none => exact ⟨_, rfl, h.slot, h.rest, h.marks⟩
  | some child =>
    simp only [Option.bind_eq_bind, Option.bind_some, hmarks]
    exact ⟨_, rfl, (hchild child rfl).1, h.rest, hmarksIn⟩

theorem InBounds.askParam? (hclosed : t.Closed) (h : s.InBounds t path) :
    ∃ turn, s.askParam? t = some turn ∧ turn.InBounds t path := by
  obtain ⟨found, hfound, hchild⟩ := hclosed.child? h.slot (·.kind == .param)
  obtain ⟨marks, hmarks, hmarksIn⟩ := h.markFor? hclosed .wildcard
  have hcut := cut?_offsetOf '/' s.rest
  rw [Search.askParam?, childOfKind?, hfound]
  cases found with
  | none => exact ⟨_, rfl, h.slot, h.rest, h.marks⟩
  | some child =>
    simp only [Option.bind_eq_bind, Option.bind_some, hmarks, hcut]
    split
    · exact ⟨_, rfl, h.slot, h.rest, h.marks⟩
    · refine ⟨_, rfl, (hchild child rfl).1, h.rest.trans ?_, hmarksIn⟩
      exact ⟨_, _, onBoundary_offsetOf '/' s.rest, hcut⟩

theorem InBounds.askWildcard? (hclosed : t.Closed) (h : s.InBounds t path) :
    ∃ turn, s.askWildcard? t = some turn ∧ turn.InBounds t path := by
  obtain ⟨found, hfound, hchild⟩ := hclosed.child? h.slot (·.kind == .wildcard)
  rw [Search.askWildcard?, childOfKind?, hfound]
  cases found with
  | none => exact ⟨_, rfl, h.slot, h.rest, h.marks⟩
  | some child =>
    refine ⟨_, rfl, ?_⟩
    rintro _ ⟨⟩
    exact (hchild child rfl).1

theorem InBounds.goBack (h : s.InBounds t path) : s.goBack.InBounds t path := by
  rw [Search.goBack]
  split
  · rintro _ ⟨⟩
  · next mark marks hmarks =>
    have hin := h.marks
    rw [hmarks, List.forall_mem_cons] at hin
    exact ⟨hin.1.1, hin.1.2, hin.2⟩

/-- One turn of a search in bounds. -/
theorem InBounds.next? (hclosed : t.Closed) (h : s.InBounds t path) :
    ∃ turn, s.next? t = some turn ∧ turn.InBounds t path := by
  rw [Search.next?]
  split
  · exact h.enter? hclosed
  · exact h.askStatic? hclosed
  · exact h.askParam? hclosed
  · exact h.askWildcard? hclosed
  · exact ⟨_, rfl, h.goBack⟩

theorem InBounds.turns (hclosed : t.Closed) {s' : Search σ} (h : s.InBounds t path)
    (hturns : ReflTransGen t.SearchTurn s s') : s'.InBounds t path := by
  induction hturns with
  | refl => exact h
  | tail _ hturn ih =>
    obtain ⟨turn, hnext, hin⟩ := ih.next? hclosed
    obtain rfl := Option.some.inj (hnext.symm.trans hturn)
    exact hin

theorem InBounds.run? (hclosed : t.Closed) {turns : Nat} {found : Option Slot} {left : σ}
    (h : s.InBounds t path) (hrun : Search.run? t turns s = some (found, left)) :
    ∀ slot ∈ found, t.InUse slot := by
  induction turns generalizing s with
  | zero => cases hrun
  | succ turns ih =>
    obtain ⟨turn, hnext, hin⟩ := h.next? hclosed
    rw [Search.run?, hnext] at hrun
    cases turn with
    | going s' => exact ih hin hrun
    | ended slot captures =>
      obtain ⟨rfl, -⟩ := Prod.mk.inj (Option.some.inj hrun)
      exact hin

omit [Sink σ] in
theorem start_inBounds (hclosed : t.Closed) (path : List Char) (captures : σ) :
    (start path captures).InBounds t path :=
  ⟨hclosed.root, .refl path, fun mark hmark => (by cases hmark)⟩

end Search

theorem Holds.searchSafe [LawfulSink σ] {n : Tree H} (h : t.Holds n) (path : List Char)
    (captures : σ) : t.SearchSafe path captures := by
  have hstart := Search.start_inBounds h.closed path captures
  refine ⟨fun {s} hvisits => ?_, ?_⟩
  · have hin := hstart.turns h.closed hvisits
    obtain ⟨turn, hnext, -⟩ := hin.next? h.closed
    exact ⟨hin, onBoundary_offsetOf '/' s.rest, hnext ▸ Option.some_ne_none turn⟩
  · cases hempty : t.isEmpty with
    | true => exact ⟨none, captures, by rw [search?, hempty, if_pos rfl], by simp⟩
    | false =>
      obtain ⟨⟨found, left⟩, hsearch⟩ : ∃ result, t.search? path captures = some result :=
        ⟨_, h.search?_eq hempty path captures⟩
      refine ⟨found, left, hsearch, ?_⟩
      rw [search?, hempty, if_neg Bool.false_ne_true] at hsearch
      exact hstart.run? h.closed hsearch

end search

end Routing.Trie
