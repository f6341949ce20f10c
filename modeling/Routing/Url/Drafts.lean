/-! Drafts kept for reuse.

A URL is written on a draft, which is taken from the pile and put back wiped. The pile
keeps sixteen at most. -/
namespace Routing.Url

/-- Text in the making. -/
abbrev Draft := List Char

structure Drafts where
  pile : List Draft
  deriving Repr, DecidableEq

namespace Drafts

/-- How many drafts are kept. -/
def capacity : Nat := 16

def empty : Drafts := ⟨[]⟩

/-- A draft to write on, the last one put back if there is any, and the drafts left. -/
def take (d : Drafts) : Draft × Drafts :=
  match d.pile with
  | [] => ([], d)
  | draft :: pile => (draft, ⟨pile⟩)

/-- Puts a draft back. Its text is wiped; beyond the capacity it is thrown away. -/
def putBack (d : Drafts) (_ : Draft) : Drafts :=
  if d.pile.length < capacity then ⟨[] :: d.pile⟩ else d

end Drafts

end Routing.Url
