import Routing.Trie.Arena

/-! Finding the node that a path leads to.

At each node the search prefers the static child, then the parameter, then the wildcard.
When it goes down while a child of a later kind is left at the node, it leaves a `Mark`
there. At a dead end it goes back to the last mark, drops what has been captured since and
goes on with the kind that is next there. So every way has its turn in the end, and a way
without a turn left costs no mark.

The search goes in turns (`Search.next?`). It enters a node once at most and asks a node for
each kind of child once at most, so six turns for each node, and one to give up, are enough
(`Trie.search?`).

What is captured goes to any type that is a `Sink`: a lookup keeps the values, a removal
needs only the node. -/
namespace Routing.Trie

/-- Where a search puts the text it captures. -/
class Sink (σ : Type) where
  /-- How many captures there are. -/
  size : σ → Nat
  push : σ → List Char → σ
  /-- The first captures, this many. -/
  truncate : σ → Nat → σ

/-- Captures counted and not kept. -/
instance : Sink Nat where
  size count := count
  push count _ := count + 1
  truncate _ count := count

/-- A place to come back to: a node, the kind of child to ask for there, the text that was
left and how much had been captured. -/
structure Mark where
  slot : Slot
  kind : Kind
  rest : List Char
  captured : Nat
  deriving Repr, DecidableEq

/-- What a search does next. -/
inductive Phase where
  /-- Match the text of the node it has come to, and end there if the path is used up. -/
  | enter
  /-- Ask the node for a child of this kind. -/
  | ask (kind : Kind)
  | goBack
  deriving Repr, DecidableEq

structure Search (σ : Type) where
  phase : Phase
  slot : Slot
  rest : List Char
  marks : List Mark
  captures : σ

namespace Search
variable {H σ : Type}

/-- What a turn comes to. -/
inductive Turn (σ : Type) where
  | going (search : Search σ)
  | ended (slot : Option Slot) (captures : σ)

def start (path : List Char) (captures : σ) : Search σ := ⟨.enter, root, path, [], captures⟩

variable [Sink σ]

/-- The marks with one for this kind, if there is a child of it or of a later one. -/
def markFor? (t : Trie H) (s : Search σ) (kind : Kind) : Option (List Mark) := do
  match ← t.child? s.slot fun c => decide (kind.rank ≤ c.kind.rank) with
  | some _ => return ⟨s.slot, kind, s.rest, Sink.size s.captures⟩ :: s.marks
  | none => return s.marks

/-- Whether a path may end at a node: at a route, or in front of a wildcard, which takes
nothing then. -/
def accepts? (t : Trie H) (slot : Slot) : Option Bool := do
  if (← t.node? slot).hasRoute then return true
  return (← t.childOfKind? slot .wildcard).isSome

/-- Parameters and wildcards have matched when they were chosen; a static node matches its
text now. -/
def enter? (t : Trie H) (s : Search σ) : Option (Turn σ) := do
  let n ← t.node? s.slot
  match if n.kind = .static then Text.after? n.text s.rest else some s.rest with
  | none => return .going { s with phase := .goBack }
  | some (c :: rest) => return .going { s with phase := .ask .static, rest := c :: rest }
  | some [] =>
    if ← accepts? t s.slot then return .ended (some s.slot) s.captures
    return .going { s with phase := .goBack }

def askStatic? (t : Trie H) (s : Search σ) : Option (Turn σ) := do
  match ← t.child? s.slot fun c => c.label == labelOf s.rest && c.kind == .static with
  | some child =>
    return .going { s with phase := .enter, slot := child, marks := ← s.markFor? t .param }
  | none => return .going { s with phase := .ask .param }

/-- A parameter takes the text up to the next `/`, and there has to be some. -/
def askParam? (t : Trie H) (s : Search σ) : Option (Turn σ) := do
  match ← t.childOfKind? s.slot .param with
  | some child =>
    let stop := Text.offsetOf '/' s.rest
    if stop = 0 then return .going { s with phase := .ask .wildcard }
    let marks ← s.markFor? t .wildcard
    let (segment, rest) ← Text.cut? s.rest stop
    return .going
      { phase := .enter, slot := child, rest, marks, captures := Sink.push s.captures segment }
  | none => return .going { s with phase := .ask .wildcard }

/-- A wildcard takes all the text, so the search ends with it. -/
def askWildcard? (t : Trie H) (s : Search σ) : Option (Turn σ) := do
  match ← t.childOfKind? s.slot .wildcard with
  | some child => return .ended (some child) (Sink.push s.captures s.rest)
  | none => return .going { s with phase := .goBack }

/-- Goes back to the last mark. Without one the path leads nowhere, and nothing stays
captured. -/
def goBack (s : Search σ) : Turn σ :=
  match s.marks with
  | [] => .ended none (Sink.truncate s.captures 0)
  | mark :: marks =>
    .going {
      phase := .ask mark.kind
      slot := mark.slot
      rest := mark.rest
      marks
      captures := Sink.truncate s.captures mark.captured }

def next? (t : Trie H) (s : Search σ) : Option (Turn σ) :=
  match s.phase with
  | .enter => s.enter? t
  | .ask .static => s.askStatic? t
  | .ask .param => s.askParam? t
  | .ask .wildcard => s.askWildcard? t
  | .goBack => some s.goBack

/-- What at most this many turns lead to. -/
def run? (t : Trie H) : Nat → Search σ → Option (Option Slot × σ)
  | 0, _ => none
  | turns + 1, s => do
    match ← s.next? t with
    | .ended slot captures => return (slot, captures)
    | .going s => run? t turns s

end Search

variable {H σ : Type} [Sink σ]

/-- The node that a path leads to, and what was captured on the way to it. A route ends at
the node, or a wildcard is below it. -/
def search? (t : Trie H) (path : List Char) (captures : σ) : Option (Option Slot × σ) :=
  if t.isEmpty then some (none, captures)
  else Search.run? t (6 * t.nodeCount + 1) (Search.start path captures)

end Routing.Trie
