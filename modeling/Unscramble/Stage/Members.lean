import Unscramble.Naming.Assignment
import Unscramble.Stage.Basic
import Unscramble.Tidy.Order
import Unscramble.Tidy.StaticMethods

/-! # Stages for classes and members

The stages that rename, move, remove, sort and open up classes and their members. -/

namespace Unscramble.Stage

/-- What a renaming keeps between its passes. -/
structure RenamingState where
  /-- The name table. -/
  table : Naming.Table := {}
  /-- Whether the codebase has been renamed. -/
  done : Bool := false
deriving Inhabited

/-- Takes the name table of the codebase or reads the one of the settings. -/
def loadTable : Hook RenamingState Codebase := fun p c =>
  match p.nameTable, c.settings.nameTable with
  | some table, _ => ⟨.ok false, { p with nameTable := none }, { c with state.table := table }⟩
  | none, some (.readable text) =>
    let (table, faults) := Naming.Table.parse text
    ⟨.ok false, p, { c.warn (faults.map .skipped) with state.table := table }⟩
  | none, some (.unreadable path) => ⟨.error (.io path), p, c⟩
  | none, some .missing | none, none => ⟨.ok false, p, c⟩

/-- Renames the codebase in the first pass. -/
def renameOnce : Hook RenamingState Codebase := fun p c =>
  if c.state.done then ⟨.ok false, p, c⟩ else
    let r := Naming.rename c.settings.policy c.settings.defaultPackage p c.state.table
    let c := { c.warn r.warnings with state := ⟨r.table, true⟩ }
    match r.result with
    | .error e => ⟨.error e, p, c⟩
    | .ok (s, p) =>
      let c := (c.count "renamed_classes" s.classes).count "renamed_fields" s.fields
      let c := (c.count "renamed_methods" s.methods).count "relocated_members" s.relocated
      ⟨.ok s.changed, p, c.count "new_table_entries" s.newEntries⟩

/-- Leaves the name table with the codebase if the settings ask for one. -/
def keepTable : Hook RenamingState Codebase := fun p c =>
  if c.settings.nameTable.isSome then
    ⟨.ok false, { p with nameTable := some c.state.table }, { c with state.table := {} }⟩
  else ⟨.ok false, p, c⟩

/-- Renames classes and members. -/
def remap : Transform RenamingState where
  name := "remap"
  start := {}
  beforeAll := loadTable
  onPass := renameOnce
  afterAll := keepTable

/-- Moves members and counts them. -/
def moving (counter : String) (f : String → Codebase → Tidy.Moved) :
    Hook Unit Codebase := fun p c =>
  let m := f c.settings.holder p
  let c := c.warn m.warnings
  match m.result with
  | .error e => ⟨.error e, m.codebase, c⟩
  | .ok count => ⟨.ok (0 < count), m.codebase, c.count counter count⟩

/-- Moves static methods to the classes they belong to. -/
def staticMethods : Transform Unit where
  name := "static-methods"
  start := ()
  onPass := moving "moved_methods" Tidy.moveStaticMethods

/-- Removes uncalled methods. -/
def unusedMethods : Transform Unit where
  name := "unused-methods"
  start := ()
  onPass := .counting "removed_methods" Tidy.removeUncalled

/-- Removes unused fields and gathers static ones. -/
def staticFields : Transform Unit where
  name := "static-fields"
  start := ()
  onPass := Hook.andThen (.counting "removed_fields" Tidy.removeUnusedFields)
    (moving "moved_fields" Tidy.moveStaticFields)

/-- Sorts something and counts it if its order changed. -/
def sorting {α : Type} (counter : String) (f : α → Bool × α) : Hook Unit α := fun a c =>
  let (changed, a) := f a
  ⟨.ok changed, a, if changed then c.count counter 1 else c⟩

/-- Sorts the fields of each class. -/
def sortFields : Transform Unit where
  name := "sort-fields"
  start := ()
  onClass := sorting "sorted_classes" Tidy.sortFields

/-- Sorts the methods of each class. -/
def sortMethods : Transform Unit where
  name := "sort-methods"
  start := ()
  onClass := sorting "sorted_classes" Tidy.sortMethods

/-- Widens an access and counts it if it changed. -/
def widening {α : Type} (counter : String) (access : α → Access) (setAccess : α → Access → α)
    (widen : Access → Access) : Hook Unit α := fun a c =>
  let widened := widen (access a)
  if widened = access a then ⟨.ok false, a, c⟩
  else ⟨.ok true, setAccess a widened, c.count counter 1⟩

/-- Makes classes public and not final, and members with package access public. -/
def visibility : Transform Unit where
  name := "visibility"
  start := ()
  onClass := widening "widened_classes" (·.access) (fun c access => { c with access })
    Access.widenClass
  onField := widening "widened_fields" (·.access) (fun f access => { f with access })
    Access.widenMember
  beforeBody := widening "widened_methods" (·.access) (fun m access => { m with access })
    Access.widenMember

/-- Removes all annotations of a declaration. -/
def clearing {α : Type} (annotations : α → List Annotation)
    (setAnnotations : α → List Annotation → α) : Hook Unit α := fun a c =>
  match annotations a with
  | [] => ⟨.ok false, a, c⟩
  | found => ⟨.ok true, setAnnotations a [], c.count "removed_annotations" found.length⟩

/-- Removes all annotations. -/
def annotationRemover : Transform Unit where
  name := "annotation-remover"
  start := ()
  onClass := clearing (·.annotations) fun c annotations => { c with annotations }
  onField := clearing (·.annotations) fun f annotations => { f with annotations }
  beforeBody := clearing (·.annotations) fun m annotations => { m with annotations }

end Unscramble.Stage
