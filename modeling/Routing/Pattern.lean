import Routing.Error
import Routing.Kind
import Routing.Text.Blank
import Routing.Text.Shared

/-! Path patterns.

A pattern is literal text with placeholders in it: `:name` takes one segment, and `*name`,
or a bare `*`, takes the rest. Reading a pattern gives its *path*, the pattern with the
names struck out (`/users/:id` has the path `/users/:`), which is where its route sits in
the trie, and the names in order. In front of each placeholder, and behind each parameter
that text follows, there is a `Cut`: nodes of the trie begin and end there, so the trie is
given the path up to each cut before the whole of it goes in. -/
namespace Routing

/-- A cut of a path: where it is, in bytes of UTF-8, and how the stretch in front of it is
matched. -/
structure Cut where
  kind : Kind
  offset : Nat
  deriving Repr, DecidableEq

/-- What the reading of a pattern's text gives. -/
structure Shape where
  path : List Char
  params : List String
  cuts : List Cut
  /-- How the last stretch of the path is matched. -/
  terminal : Kind
  deriving Repr, DecidableEq

namespace Shape

/-- The end of a path in a wildcard, from the text after its `*`. White space around the
name does not count, and a wildcard without a name is called `*`. Nothing may follow a
wildcard, so a name with a `/` in it is refused. -/
def wildcard? (offset : Nat) (rest : List Char) : Option Shape :=
  let name := Text.trim rest
  if '/' ∈ name then none
  else
    some {
      path := ['*']
      params := [if name.isEmpty then "*" else String.ofList name]
      cuts := [⟨.static, offset⟩]
      terminal := .wildcard }

mutual

/-- Reads on in literal text; `offset` is what the path in front has come to, in bytes. -/
def literal? (offset : Nat) : List Char → Option Shape
  | [] => some { path := [], params := [], cuts := [], terminal := .static }
  | ':' :: rest => param? offset [] rest
  | '*' :: rest => wildcard? offset rest
  | c :: rest =>
    (literal? (offset + c.utf8Size) rest).map fun shape => { shape with path := c :: shape.path }

/-- Reads on in a parameter's name, behind its `:`; the name ends before the next `/`. -/
def param? (offset : Nat) (name : List Char) : List Char → Option Shape
  | [] =>
    some {
      path := [':']
      params := [String.ofList name]
      cuts := [⟨.static, offset⟩]
      terminal := .param }
  | '/' :: rest =>
    (literal? (offset + 2) rest).map fun shape =>
      { shape with
        path := ':' :: '/' :: shape.path
        params := String.ofList name :: shape.params
        cuts := ⟨.static, offset⟩ :: ⟨.param, offset + 1⟩ :: shape.cuts }
  | c :: rest => param? offset (name ++ [c]) rest

end

end Shape

structure Pattern extends Shape where
  /-- The pattern as it was written, beginning with `/`. -/
  text : String
  deriving Repr, DecidableEq

namespace Pattern

/-- A pattern's text begins with `/`; one that does not gets it. -/
def normalize (text : String) : String :=
  if text.toList.head? = some '/' then text else String.ofList ('/' :: text.toList)

def parse (text : String) : Except Error Pattern :=
  let text := normalize text
  match Shape.literal? 0 text.toList with
  | some shape => .ok { shape with text }
  | none => .error (.textAfterWildcard text)

end Pattern

end Routing
