/-! Targets of HTTP requests, and the paths in them.

A target is a path with what follows it (`/p?q#f`), a whole address
(`http://host/p?q#f`), an authority alone (`host:443`, as `CONNECT` has it) or `*`. The
query and the fragment do not belong to the path. The path of a whole address without one
is `/`, that of an authority alone is empty. -/
namespace Routing.Http

/-! ### Authorities -/

/-- A character that an authority may hold, `%` apart. -/
def isAuthorityChar (c : Char) : Bool :=
  c.isAlphanum || "!$&'()*+,-.:;=@[]_~".toList.contains c

/-- What has been seen of an authority so far. -/
structure AuthorityScan where
  /-- Colons that may still part the host from its number. -/
  colons : Nat
  opened : Bool
  closed : Bool
  /-- Whether a `%` was seen that belongs to nothing yet. -/
  percent : Bool
  deriving Repr, DecidableEq

namespace AuthorityScan

def start : AuthorityScan := ⟨0, false, false, false⟩

/-- The most colons there may be: those of an address in brackets, and one behind it. -/
def maxColons : Nat := 8

/-- Takes up one character; `none` if it may not stand here. At the end of a bracket, and
at an `@`, the colons and the `%` seen so far turn out not to belong to the host's number
and name. -/
def next? (s : AuthorityScan) (c : Char) : Option AuthorityScan :=
  match c with
  | ':' => if s.colons < maxColons then some { s with colons := s.colons + 1 } else none
  | '[' => if s.percent || s.opened then none else some { s with opened := true }
  | ']' =>
    if s.opened && !s.closed then some { s with closed := true, colons := 0, percent := false }
    else none
  | '@' => some { s with colons := 0, percent := false }
  | '%' => some { s with percent := true }
  | c => if isAuthorityChar c then some s else none

end AuthorityScan

/-- Whether a text is an authority: brackets are paired, at most one colon is left for the
host's number, no `%` stands in its name, and something follows an `@`. -/
def isAuthority (text : List Char) : Bool :=
  (text.foldlM AuthorityScan.next? AuthorityScan.start).any fun s =>
    s.opened == s.closed && s.colons ≤ 1 && !s.percent && text.getLast? ≠ some '@'

/-- Whether an authority ends before this character. -/
def endsAuthority (c : Char) : Bool := c == '/' || c == '?' || c == '#'

/-! ### Paths -/

/-- Whether a character's code point is in one of the ranges, or beyond ASCII. -/
def allowed (ranges : List (Nat × Nat)) (c : Char) : Bool :=
  0x80 ≤ c.toNat || ranges.any fun (first, last) => first ≤ c.toNat && c.toNat ≤ last

/-- A character that a path may hold as it is: all that needs no percent-encoding there,
and the quotes and braces that go unencoded in practice. -/
def isPathChar (c : Char) : Bool :=
  allowed [(0x21, 0x22), (0x24, 0x3B), (0x3D, 0x3D), (0x40, 0x5F), (0x61, 0x7E)] c

def isQueryChar (c : Char) : Bool :=
  allowed [(0x21, 0x21), (0x24, 0x3B), (0x3D, 0x3D), (0x3F, 0x7E)] c

/-- The path that a text begins with; `none` if the text, up to its fragment, holds what it
may not. An empty path is `/`. -/
def originPath? (text : List Char) : Option (List Char) :=
  let text := text.takeWhile (· ≠ '#')
  let path := text.takeWhile (· ≠ '?')
  let query := (text.dropWhile (· ≠ '?')).drop 1
  if path.all isPathChar && query.all isQueryChar then
    some (if path.isEmpty then ['/'] else path)
  else none

/-! ### Targets -/

/-- A character that a scheme may hold. -/
def isSchemeChar (c : Char) : Bool := c.isAlphanum || "+-.~".toList.contains c

/-- The longest scheme there may be. -/
def maxSchemeLength : Nat := 64

/-- The most bytes a target may have. -/
def maxTargetLength : Nat := 65534

/-- The path of a target that begins with neither `/` nor `*`. -/
def addressPath? (target : List Char) : Option (List Char) :=
  match target.dropWhile isSchemeChar with
  | ':' :: '/' :: '/' :: rest =>
    let authority := rest.takeWhile (!endsAuthority ·)
    if (target.takeWhile isSchemeChar).length ≤ maxSchemeLength && !authority.isEmpty &&
        isAuthority authority then
      originPath? (rest.dropWhile (!endsAuthority ·))
    else none
  | _ => if !target.isEmpty && isAuthority target then some [] else none

/-- The path of a request's target, or `none` if it is no target. -/
def targetPath? (target : String) : Option String :=
  if maxTargetLength < target.utf8ByteSize then none
  else
    match target.toList with
    | ['*'] => some "*"
    | '/' :: rest => (originPath? ('/' :: rest)).map String.ofList
    | text => (addressPath? text).map String.ofList

end Routing.Http
