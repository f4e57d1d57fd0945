import Unscramble.Naming.Assignment

/-! # Renaming in place

A renaming edits a codebase that others hold as well: what it has changed when it fails stays
changed. These are a relocation and a renaming as the edits that they make one after the other, while
`relocate` and `rename` tell what comes of them.

Main definitions: `Site`, `Edit`, `relocateInPlace`, `renameInPlace`. -/

namespace Unscramble.Naming

/-- What a renaming works on. -/
structure Site where
  /-- The codebase. -/
  codebase : Codebase
  /-- The name table. -/
  table : Table := {}
  /-- What it has warned of. -/
  warnings : List Warning := []

/-- A series of edits that may fail on the way. -/
abbrev Edit := ExceptT Error (StateM Site)

namespace Edit

/-- Makes edits, and tells the outcome and what they leave. -/
def on {α : Type} (e : Edit α) (s : Site) : Except Error α × Site :=
  (ExceptT.run e).run s

/-- Warns. -/
def warn (warning : Warning) : Edit Unit :=
  modify fun s => { s with warnings := s.warnings ++ [warning] }

/-- The first class with a given name. -/
def class? (name : String) : Edit (Option Class) :=
  return (← get).codebase.class? name

/-- Changes the first class with a given name. -/
def modifyClass (name : String) (f : Class → Class) : Edit Unit :=
  modify fun s => { s with codebase := s.codebase.modifyClass name f }

end Edit

/-- The moves that can be made. Warns of those that lead nowhere, and fails at the first member that
belongs to instances. -/
def admitted : List Move → Edit (List Move)
  | [] => return []
  | move :: rest => do
    match checkMove (← get).codebase move with
    | .notStatic => throw (.nonStaticRelocation move.1.text)
    | .noTarget =>
      Edit.warn (.missingTarget move.2 move.1)
      admitted rest
    | .absent => admitted rest
    | .valid => return move :: (← admitted rest)

/-- Puts a member that has left its class into another one, and counts it if that class is there. -/
def settle (target : String) (f : Class → Class) : Edit Nat := do
  match ← Edit.class? target with
  | none => return 0
  | some _ =>
    Edit.modifyClass target f
    return 1

/-- Makes one move, of what the reference names by now, and counts it. -/
def carry (move : Move) : Edit Nat := do
  let (m, target) := move
  if m.owner == target then return 0
  match ← Edit.class? m.owner with
  | none => return 0
  | some owner =>
    if isMethod m then
      match owner.method? m.name m.descriptor with
      | none => return 0
      | some method =>
        Edit.modifyClass m.owner fun c =>
          { c with methods := c.methods.eraseP (Method.isNamed m.name m.descriptor) }
        settle target fun c => { c with methods := c.methods ++ [method] }
    else
      match owner.field? m.name m.descriptor with
      | none => return 0
      | some field =>
        Edit.modifyClass m.owner fun c =>
          { c with fields := c.fields.eraseP (Field.isNamed m.name m.descriptor) }
        settle target fun c => { c with fields := c.fields ++ [field] }

/-- Makes moves one after the other, and adds up how many were made. -/
def carryAll (count : Nat) : List Move → Edit Nat
  | [] => return count
  | move :: rest => do
    let made ← carry move
    carryAll (count + made) rest

/-- Moves members into other classes and counts the moves. -/
def relocateInPlace (moves : List Move) : Edit Nat := do
  let valid ← admitted moves
  carryAll 0 valid

/-- Renames a codebase. The names are decided first, and the members move before they are
renamed. -/
def renameInPlace (policy : Policy) (defaultPackage : String) : Edit Summary := do
  let s ← get
  let a := Assignment.ofCodebase policy defaultPackage s.codebase s.table
  set { s with table := a.table, warnings := s.warnings ++ a.warnings.reverse }
  let renamed := (s.codebase.classes.map fun c => (c.name, a.names.onClassName c.name)).filterMap
    fun (old, new) => if new == old then none else some new
  let relocated ← relocateInPlace a.moves.reverse
  modify fun s => { s with codebase := recordSources renamed (a.names.apply s.codebase) }
  return { a.summary with relocated, newEntries := a.table.size - s.table.size }

end Unscramble.Naming
