/-! How a stretch of a path is matched. -/
namespace Routing

/-- The three kinds of segment, in the order a lookup tries them: text that matches
itself, a parameter that takes one segment up to the next `/`, and a wildcard that takes
whatever is left. -/
inductive Kind where
  | static
  | param
  | wildcard
  deriving Repr, DecidableEq

namespace Kind

/-- The place in the order of trying. -/
def rank : Kind → Nat
  | static => 0
  | param => 1
  | wildcard => 2

def label : Kind → String
  | static => "static"
  | param => "param"
  | wildcard => "wildcard"

end Kind

end Routing
