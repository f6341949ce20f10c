/-! Names of HTTP methods. -/
namespace Routing.Http

/-- A character that may stand in a method's name: a letter or digit of ASCII, or one of
these marks. -/
def isTokenChar (c : Char) : Bool := c.isAlphanum || "!#$%&'*+-.^_`|~".toList.contains c

def isMethod (method : String) : Bool :=
  method ≠ "" && method.toList.all isTokenChar

end Routing.Http
