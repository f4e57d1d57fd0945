import Unscramble.Error
import Unscramble.Text.Basic

/-! # Name tables

A name table says what a class, field or method is called after renaming, and which class a static
member moves to. As a text it has one entry per line: `old=new` renames, `old=owner,name` renames
and moves, and `#` starts a comment. The key of a class is its name, that of a field
`owner.name:descriptor`, that of a method `owner.namedescriptor`.

Main definitions: `Mapping`, `Table`, `Table.parse`, `Table.text`, `Table.highestCounter`. -/

namespace Unscramble.Naming

/-- What an entry of a name table asks for. -/
inductive Mapping where
  /-- A new name. -/
  | rename (name : String)
  /-- A new name in another class. -/
  | relocate (owner name : String)
deriving DecidableEq, Repr, Inhabited

namespace Mapping

/-- The new name, whether or not the member moves. -/
def name : Mapping → String
  | .rename name | .relocate _ name => name

/-- The class the member moves to. -/
def owner? : Mapping → Option String
  | .rename _ => none
  | .relocate owner _ => some owner

/-- The value of the entry as it is written. -/
def text : Mapping → String
  | .rename name => name
  | .relocate owner name => owner ++ "," ++ name

end Mapping

/-- A name table: entries with distinct keys, in ascending order of the keys. -/
structure Table where
  /-- The entries in order. -/
  entries : List (String × Mapping) := []
deriving DecidableEq, Repr, Inhabited

namespace Table

/-- The number of entries. -/
def size (t : Table) : Nat :=
  t.entries.length

/-- Whether the table has no entry. -/
def isEmpty (t : Table) : Bool :=
  t.entries.isEmpty

/-- The mapping of a key. -/
def get? (t : Table) (key : String) : Option Mapping :=
  t.entries.lookup key

/-- Puts an entry in its place, in front of the entries with greater keys; an entry with the same
key gives way. -/
def putIn (key : String) (mapping : Mapping) (entries : List (String × Mapping)) :
    List (String × Mapping) :=
  let (smaller, rest) := entries.span (·.1 < key)
  smaller ++ (key, mapping) :: rest.dropWhile (·.1 == key)

/-- Sets the mapping of a key. -/
def put (t : Table) (key : String) (mapping : Mapping) : Table :=
  ⟨putIn key mapping t.entries⟩

/-- Adds an entry unless the key has one, and says whether it was added. -/
def insert (t : Table) (key : String) (mapping : Mapping) : Bool × Table :=
  if (t.get? key).isSome then (false, t) else (true, t.put key mapping)

/-- The table as a text, one entry per line. -/
def text (t : Table) : String :=
  t.entries.foldl (fun acc (key, mapping) => acc ++ key ++ "=" ++ mapping.text ++ "\n") ""

/-- The value of a mapping from what stands behind the separator of a line. -/
def parseMapping (key value : List Char) : Except TableFault Mapping :=
  let isClass := !key.contains '.'
  match Text.cut ',' value with
  | some (owner, name) =>
    let owner := Text.trimChars owner
    let name := Text.trimChars name
    if isClass then .error (.movedClass (String.ofList key))
    else if owner.isEmpty || name.isEmpty || name.contains ',' then
      .error (.badMove (String.ofList value))
    else .ok (.relocate (Text.replaceChar '.' '/' (String.ofList owner)) (String.ofList name))
  | none =>
    let name := String.ofList value
    .ok (.rename (if isClass then Text.replaceChar '.' '/' name else name))

/-- Reads a line without its comment. A blank line and a line that ends in the separator hold no
entry. -/
def parseEntry (line : List Char) : Except TableFault (Option (String × Mapping)) :=
  if line.isEmpty || line.getLast? == some '=' then .ok none else
    match Text.cut '=' line with
    | none => .error (.missingEquals (String.ofList line))
    | some (key, value) =>
      let key := Text.trimChars key
      let value := Text.trimChars value
      if key.isEmpty then .error (.emptyKey (String.ofList line))
      else if value.contains '=' then .error (.manyEquals (String.ofList line))
      else (parseMapping key value).map fun mapping => some (String.ofList key, mapping)

/-- Reads a line of a table. -/
def parseLine (line : String) : Except TableFault (Option (String × Mapping)) :=
  parseEntry (Text.trimChars (line.toList.takeWhile (· != '#')))

/-- Adds what a numbered line says to a table and to the faults found so far, last first. -/
def addLine (state : Table × List Error) (line : String × Nat) : Table × List Error :=
  match parseLine line.1 with
  | .ok none => state
  | .ok (some (key, mapping)) => (state.1.put key mapping, state.2)
  | .error fault => (state.1, .nameTable (line.2 + 1) fault :: state.2)

/-- Reads a table. A line that is no entry is skipped and reported; of two entries with one key the
later counts. -/
def parse (text : String) : Table × List Error :=
  let (table, faults) := (Text.lines text).zipIdx.foldl addLine ({}, [])
  (table, faults.reverse)

/-- The number that a generated name ends in: the simple name is `stem` and a number. -/
def counter? (stem : String) (mapping : Mapping) : Option Nat :=
  (Text.stripStart? stem (Text.afterLast '/' mapping.name)).bind fun rest => Text.count? rest.toList

/-- The greatest number among the generated names of the form `stem` and a number, 0 if there is
none. Names made with greater numbers are new. -/
def highestCounter (t : Table) (stem : String) : Nat :=
  (t.entries.filterMap fun e => counter? stem e.2).foldl max 0

end Table

end Unscramble.Naming
