/-! Sets of characters given as closed ranges of code points. -/
namespace Routing.Text

/-- Whether a character's code point lies in one of the ranges. -/
def within (ranges : List (Nat × Nat)) (c : Char) : Bool :=
  ranges.any fun range => range.1 ≤ c.toNat && c.toNat ≤ range.2

end Routing.Text
