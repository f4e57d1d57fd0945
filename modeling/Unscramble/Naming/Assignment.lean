import Std.Data.HashSet
import Unscramble.Naming.Family
import Unscramble.Naming.Policy
import Unscramble.Naming.Relocation
import Unscramble.Naming.Renaming

/-! # Assigning names

Every obfuscated class, field and method gets a generated name: `classN`, `fieldN` or `methodN`. A
name table decides first: what it knows is named as it says, and what it does not know yet is added
to it, so a later run on the same input gives the same names. The members of a family share one
decision, which the first declared of them takes.

Main definitions: `Assignment`, `Assignment.ofCodebase`, `rename`. -/

namespace Unscramble.Naming

/-- How many declarations a renaming changed. -/
structure Summary where
  /-- Classes with a new name. -/
  classes : Nat := 0
  /-- Families of fields with a new name or class. -/
  fields : Nat := 0
  /-- Families of methods with a new name or class. -/
  methods : Nat := 0
  /-- Members that moved to another class. -/
  relocated : Nat := 0
  /-- Entries that the name table got. -/
  newEntries : Nat := 0
deriving DecidableEq, Repr, Inhabited

/-- Whether a renaming changed anything. -/
def Summary.changed (s : Summary) : Bool :=
  0 < s.classes + s.fields + s.methods + s.relocated

/-- Names under assignment. -/
structure Assignment where
  /-- The name table, with the entries added so far. -/
  table : Table
  /-- The last number given to a class. -/
  classCounter : Nat
  /-- The last number given to a field. -/
  fieldCounter : Nat
  /-- The last number given to a method. -/
  methodCounter : Nat
  /-- The new names. -/
  names : Renaming := {}
  /-- The table key of each class, by its present name. -/
  classKeys : Std.HashMap String String := ∅
  /-- The families whose name is decided. -/
  decided : Std.HashSet Nat := ∅
  /-- The members that are to move, last first. -/
  moves : List Move := []
  /-- What was worth telling, last first. -/
  warnings : List Warning := []
  /-- What has changed so far. -/
  summary : Summary := {}
deriving Inhabited

namespace Assignment

/-- Nothing assigned yet. Generated numbers follow those of the table. -/
def start (table : Table) : Assignment :=
  { table
    classCounter := table.highestCounter "class"
    fieldCounter := table.highestCounter "field"
    methodCounter := table.highestCounter "method" }

end Assignment

/-- The key of a class in a name table: its name in the obfuscated build. -/
def classKey (c : Class) : String :=
  (recordedName? c.annotations).getD c.name

namespace Assignment

/-- The new name of a class before the default package is added: the one the table knows, a
generated one in the same package, or the present one. -/
def chooseClassName (policy : Policy) (a : Assignment) (c : Class) : String × Assignment :=
  let key := classKey c
  match a.table.get? key with
  | some mapping => (mapping.name, a)
  | none =>
    if policy.ofClass (simpleName key) then
      let counter := a.classCounter + 1
      let fresh := Text.throughLast '/' c.name ++ "class" ++ toString counter
      (fresh, { a with classCounter := counter, table := (a.table.insert key (.rename fresh)).2 })
    else (c.name, a)

/-- Names a class. -/
def nameClass (policy : Policy) (defaultPackage : String) (a : Assignment) (c : Class) :
    Assignment :=
  let (chosen, a) := chooseClassName policy a c
  let new := holderName chosen defaultPackage
  let a := { a with classKeys := a.classKeys.insert c.name (classKey c) }
  if new == c.name then a else
    { a with
      names := a.names.renameClass c.name new
      summary := { a.summary with classes := a.summary.classes + 1 } }

end Assignment

/-- A declaration that may get a new name. -/
structure Candidate where
  /-- The reference that names the declaration. -/
  member : Member
  /-- Its key in a name table. -/
  key : String
  /-- Whether its name in the obfuscated build is to be replaced. -/
  obfuscated : Bool
deriving Repr, Inhabited

/-- The fields of a class, and its methods other than initializers, as candidates. -/
def candidates (policy : Policy) (ownerKey : String) (c : Class) : List Candidate :=
  let fields := c.fields.map fun f =>
    let name := (recordedName? f.annotations).getD f.name
    ⟨f.key, ownerKey ++ "." ++ name ++ ":" ++ f.descriptor, policy.ofField name⟩
  let methods := (c.methods.filter fun m => !m.isConstructor && !m.isInitializer).map fun m =>
    let name := (recordedName? m.annotations).getD m.name
    ⟨m.key, ownerKey ++ "." ++ name ++ m.descriptor, policy.ofMethod name⟩
  fields ++ methods

namespace Assignment

/-- What happens to a candidate: what the table says, a generated name, or nothing. -/
def chooseMapping (a : Assignment) (c : Candidate) : Option Mapping × Assignment :=
  match a.table.get? c.key with
  | some mapping => (some mapping, a)
  | none =>
    if !c.obfuscated then (none, a)
    else if isMethod c.member then
      let counter := a.methodCounter + 1
      let fresh := .rename ("method" ++ toString counter)
      (some fresh, { a with methodCounter := counter, table := (a.table.insert c.key fresh).2 })
    else
      let counter := a.fieldCounter + 1
      let fresh := .rename ("field" ++ toString counter)
      (some fresh, { a with fieldCounter := counter, table := (a.table.insert c.key fresh).2 })

/-- Notes the move that a mapping asks for, and answers the class to move to. A class is found by
its new name. -/
def noteMove (presentNames : Std.HashMap String String) (a : Assignment) (m : Member)
    (mapping : Mapping) : Option String × Assignment :=
  match mapping.owner? with
  | none => (none, a)
  | some owner =>
    match presentNames[owner]? with
    | some present => (some owner, { a with moves := (m, present) :: a.moves })
    | none => (none, { a with warnings := .unknownClass m owner :: a.warnings })

/-- Counts a member whose name or class changes. -/
def countMember (a : Assignment) (m : Member) : Assignment :=
  let s := a.summary
  { a with summary :=
      if isMethod m then { s with methods := s.methods + 1 }
      else { s with fields := s.fields + 1 } }

/-- Gives a whole family a name, and a class to those that move. -/
def mapFamily (families : Families) (a : Assignment) (m : Member) (name : String)
    (target : Option String) : Assignment :=
  let step := fun (r : Renaming) (old : Member) =>
    r.mapMember old ⟨target.getD (r.onClassName old.owner), name, r.onDescriptor old.descriptor⟩
  { a with names := (families.linked m).foldl step a.names }

/-- Names the family of a candidate unless it has been decided. -/
def nameMember (families : Families) (presentNames : Std.HashMap String String) (a : Assignment)
    (c : Candidate) : Assignment :=
  match families.family? c.member with
  | none => a
  | some family =>
    if a.decided.contains family then a else
      let (mapping?, a) := chooseMapping { a with decided := a.decided.insert family } c
      match mapping? with
      | none => a
      | some mapping =>
        let (target, a) := noteMove presentNames a c.member mapping
        let isNew := mapping.name != c.member.name || target.isSome
        let a := if isNew then a.countMember c.member else a
        mapFamily families a c.member mapping.name target

/-- Names the members of a class. -/
def nameMembers (policy : Policy) (families : Families) (presentNames : Std.HashMap String String)
    (a : Assignment) (c : Class) : Assignment :=
  let ownerKey := (a.classKeys[c.name]?).getD c.name
  (candidates policy ownerKey c).foldl (nameMember families presentNames) a

/-- The present name of the class with each new name, the last class if several get the same. -/
def presentNames (p : Codebase) (r : Renaming) : Std.HashMap String String :=
  p.classes.foldl (fun m c => m.insert (r.onClassName c.name) c.name) ∅

/-- The names of everything in a codebase: first all classes, then all members. -/
def ofCodebase (policy : Policy) (defaultPackage : String) (p : Codebase) (table : Table) :
    Assignment :=
  let a := p.classes.foldl (nameClass policy defaultPackage) (start table)
  p.classes.foldl (nameMembers policy (Families.ofCodebase p) (presentNames p a.names)) a

end Assignment

/-- What a renaming leaves behind. The table keeps its new entries and the warnings stand even if
the renaming fails, which it does before any declaration has changed. -/
structure Renamed where
  /-- The name table. -/
  table : Table
  /-- What was worth telling. -/
  warnings : List Warning
  /-- What changed, and the codebase under its new names. -/
  result : Except Error (Summary × Codebase)

/-- Records the source file of every class that bears a new name. -/
def recordSources (renamed : List String) (p : Codebase) : Codebase :=
  { p with classes := p.classes.map fun c =>
      if renamed.contains c.name then { c with sourceFile := some (sourceFileName c.name) } else c }

/-- Renames a codebase through a name table, to which it adds what the table does not know. -/
def rename (policy : Policy) (defaultPackage : String) (p : Codebase) (table : Table) : Renamed :=
  let a := Assignment.ofCodebase policy defaultPackage p table
  let renamed := (p.classes.map fun c => (c.name, a.names.onClassName c.name)).filterMap
    fun (old, new) => if new == old then none else some new
  let (warnings, moved) := relocate p a.moves.reverse
  { table := a.table
    warnings := a.warnings.reverse ++ warnings
    result := moved.map fun (relocated, p) =>
      ({ a.summary with relocated, newEntries := a.table.size - table.size },
        recordSources renamed (a.names.apply p)) }

end Unscramble.Naming
