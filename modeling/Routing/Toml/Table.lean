import Routing.Toml.Value

/-! Tables in the making.

An entry goes to a table by its path. Tables on the way that are not there yet come into
being; a table can be entered as long as what is there may still grow:

* a dotted key enters tables that dotted keys or the paths of headers made, and puts its
  entry into one that a dotted key made;
* a header enters every table that is not inline;
* of an array of tables, either enters the last;
* a header may name a table that so far was only on the way to others, once. -/
namespace Routing.Toml

structure Table where
  form : TableForm
  entries : List (String × Value)

namespace Table

/-- The table of a document, or of a pair of braces, before anything is in it. -/
def empty : Table := ⟨.headed, []⟩

def get? (t : Table) (key : String) : Option Value := t.entries.lookup key

/-- The table with a key set, in its place if the key is there. -/
def set (t : Table) (key : String) (value : Value) : Table :=
  if (t.get? key).isSome then
    { t with entries := t.entries.map fun e => if e.1 = key then (key, value) else e }
  else { t with entries := t.entries ++ [(key, value)] }

/-- Changes the table at the end of a path. `form` is what tables come into being as: only
dotted keys and headers have paths. -/
def alter? (form : TableForm) (change : Table → Option Table) :
    List String → Table → Option Table
  | [], t => change t
  | key :: path, t =>
    match t.get? key with
    | none => do
      let inner ← alter? form change path ⟨form, []⟩
      return t.set key (.table inner.form inner.entries)
    | some (.table .inline _) => none
    | some (.table kept entries) =>
      if form = .dotted ∧ kept = .headed then none
      else do
        let inner ← alter? form change path ⟨kept, entries⟩
        return t.set key (.table inner.form inner.entries)
    | some (.array .headed items) =>
      match items.getLast? with
      | some (.table kept entries) => do
        let inner ← alter? form change path ⟨kept, entries⟩
        return t.set key (.array .headed (items.dropLast ++ [.table inner.form inner.entries]))
      | _ => none
    | some _ => none

/-- Puts a value under a key that is not there yet. -/
def add? (key : String) (value : Value) (t : Table) : Option Table :=
  if (t.get? key).isSome then none else some (t.set key value)

/-- Puts a value under a key behind a dotted path. -/
def define? (path : List String) (key : String) (value : Value) (t : Table) : Option Table :=
  if path.isEmpty then t.add? key value
  else t.alter? .dotted (fun t => if t.form = .dotted then t.add? key value else none) path

/-- Makes the table that a header names. -/
def openHeader? (path : List String) (key : String) (t : Table) : Option Table :=
  t.alter? .implied (fun t =>
    match t.get? key with
    | none => some (t.set key (.table .headed []))
    | some (.table .implied entries) => some (t.set key (.table .headed entries))
    | some _ => none) path

/-- Makes the next table of the array that a header in double brackets names. -/
def openNextHeader? (path : List String) (key : String) (t : Table) : Option Table :=
  t.alter? .implied (fun t =>
    match t.get? key with
    | none => some (t.set key (.array .headed [.table .headed []]))
    | some (.array .headed items) =>
      some (t.set key (.array .headed (items ++ [.table .headed []])))
    | some _ => none) path

/-- Puts a value under a key in the table that the last header named. -/
def defineUnder? (header path : List String) (key : String) (value : Value) (t : Table) :
    Option Table :=
  t.alter? .implied (fun t => t.define? path key value) header

end Table

end Routing.Toml
