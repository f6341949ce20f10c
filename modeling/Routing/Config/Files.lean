/-! Files by their paths.

A path is walked name by name from the working directory. `.` and an empty name stay where
they are and `..` goes up, and each of the three, like any name, needs a directory to start
from. There is nothing above the working directory, and a path that is too long leads
nowhere. -/
namespace Routing.Config

/-- What stands at a path. A directory is there as well when something stands below it. -/
inductive FileEntry where
  | file (bytes : ByteArray)
  | directory

/-- The names of a path, from the working directory down. -/
abbrev FilePath := List String

/-- Files and empty directories. -/
abbrev FileSet := List (FilePath × FileEntry)

namespace FileSet

/-- The names in a path as it is written. -/
def split (path : String) : List String := path.splitOn "/"

def isDirectory (files : FileSet) (path : FilePath) : Bool :=
  path.isEmpty || files.any fun (place, entry) =>
    match entry with
    | .directory => path.isPrefixOf place
    | .file _ => path.isPrefixOf place && path.length < place.length

/-- Where a walk from a path ends. -/
def resolve? (files : FileSet) : FilePath → List String → Option FilePath
  | here, [] => some here
  | here, name :: rest =>
    if !isDirectory files here then none
    else if name = "" ∨ name = "." then resolve? files here rest
    else if name = ".." then
      if here.isEmpty then none else resolve? files here.dropLast rest
    else resolve? files (here ++ [name]) rest

/-- The bytes of the file that a path leads to. -/
def bytes? (files : FileSet) (path : FilePath) : Option ByteArray :=
  files.findSome? fun (place, entry) =>
    match entry with
    | .file bytes => if place = path then some bytes else none
    | .directory => none

/-- The most bytes a path may have. -/
def maxPathLength : Nat := 4095

/-- The text of the file at a path, if it can be read and is UTF-8. -/
def readText? (files : FileSet) (path : String) : Option String := do
  guard (path.utf8ByteSize ≤ maxPathLength)
  let place ← resolve? files [] (split path)
  let bytes ← bytes? files place
  String.fromUTF8? bytes

end FileSet

end Routing.Config
