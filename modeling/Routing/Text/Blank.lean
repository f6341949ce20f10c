import Routing.Text.Ranges

/-! White space, as Unicode's `White_Space` property has it: 25 characters. A zero-width
space is not among them, a no-break space is. -/
namespace Routing.Text

/-- The ranges of the property, ascending and apart. -/
def blankRanges : List (Nat × Nat) :=
  [(0x09, 0x0D), (0x20, 0x20), (0x85, 0x85), (0xA0, 0xA0), (0x1680, 0x1680), (0x2000, 0x200A),
   (0x2028, 0x2029), (0x202F, 0x202F), (0x205F, 0x205F), (0x3000, 0x3000)]

def isBlank (c : Char) : Bool := within blankRanges c

/-- The text without the white space at its two ends. -/
def trim (text : List Char) : List Char :=
  ((text.dropWhile isBlank).reverse.dropWhile isBlank).reverse

/-- Whether a text says nothing: it is empty or all white space. -/
def isBlankText (text : String) : Bool := text.toList.all isBlank

end Routing.Text
