import Routing.Router.Add
import Routing.Router.Find
import Routing.Router.Listing
import Routing.Router.Remove
import Routing.Url.Build

/-! Routers shared between threads.

A shared router stands behind a lock. A thread that fails while it holds the lock poisons
it; whoever takes the lock next recovers it, with a warning, and goes on. The router itself
is whole all the same, so every operation answers as it would on a router of one's own. -/
namespace Routing

structure SharedRouter (H : Type) where
  router : Router H
  poisoned : Bool

/-- What a lookup gives when it owns its answer: the handler, and names with values. -/
structure Answer (H : Type) where
  handler : H
  params : List (String × String)
  deriving Repr, DecidableEq

namespace Answer
variable {H : Type}

/-- The value of the first parameter with this name. -/
def param? (a : Answer H) (name : String) : Option String := a.params.lookup name

def ofFound (found : Found H) : Answer H := ⟨found.handler, found.params.toList⟩

end Answer

namespace SharedRouter
variable {H α : Type}

def new (router : Router H) : SharedRouter H := ⟨router, false⟩

/-- Takes the lock, and recovers it if it is poisoned. -/
def lock (s : SharedRouter H) : Logged (SharedRouter H) :=
  if s.poisoned then do
    Logged.emit .lockRecovered
    return { s with poisoned := false }
  else return s

/-- Works on the router with the lock held for writing. -/
def write (s : SharedRouter H) (work : Router H → Logged (α × Router H)) :
    Logged (α × SharedRouter H) := do
  let s ← s.lock
  let (value, router) ← work s.router
  return (value, { s with router })

/-- Looks at the router with the lock held for reading. -/
def read (s : SharedRouter H) (look : Router H → Logged α) : Logged (α × SharedRouter H) := do
  let s ← s.lock
  let value ← look s.router
  return (value, s)

def add (s : SharedRouter H) (name method path : String) (handler : H) :
    Logged (Except Error Nat × SharedRouter H) :=
  s.write fun r => r.add name method path handler

def remove (s : SharedRouter H) (name method path : String) :
    Logged (Except Error Unit × SharedRouter H) :=
  s.write fun r => r.remove name method path

def find (s : SharedRouter H) (method path : String) : Logged (Answer H × SharedRouter H) :=
  s.read fun r => return .ofFound (r.find method path .empty)

/-- Builds a URL. The lock is held for reading: the drafts have a lock of their own. -/
def url (s : SharedRouter H) (name : String) (values : List Url.Value) :
    Logged (String × SharedRouter H) := do
  let s ← s.lock
  let built ← s.router.url name values
  return (built.url, { s with router := built.router })

def list (s : SharedRouter H) : Logged (List Listed × SharedRouter H) :=
  s.read fun r => return r.list

def routePath? (s : SharedRouter H) (name : String) :
    Logged (Option String × SharedRouter H) :=
  s.read fun r => return r.routePath? name

def outline? (s : SharedRouter H) : Logged (Option String × SharedRouter H) :=
  s.read fun r => return r.outline?

/-- A thread takes the lock for writing and fails while it holds it. What it reports, it
reports itself. -/
def poison (s : SharedRouter H) : Logged (SharedRouter H) := do
  let s ← s.lock
  return { s with poisoned := true }

/-- Looks at the router if the lock can be had at once: not while it is held for writing, and not
while it is poisoned, for nothing is recovered here. -/
def tryRead (s : SharedRouter H) (held : Bool) : Logged (Option (Router H)) :=
  return if held || s.poisoned then none else some s.router

/-- The shared router in one line, with the lock as it is: held for writing or not. -/
def summary (s : SharedRouter H) (held : Bool) : Logged (String × SharedRouter H) := do
  match ← s.tryRead held with
  | some router => return ("SharedRouter(" ++ router.summary ++ ")", s)
  | none => return ("SharedRouter(<locked>)", s)

end SharedRouter

end Routing
