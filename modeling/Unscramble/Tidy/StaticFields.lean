import Std.Data.HashSet
import Unscramble.Naming.Family
import Unscramble.Naming.Relocation
import Unscramble.Naming.Renaming

/-! # Static fields

Obfuscators scatter static fields over unrelated classes. A static field that no class initializer
touches can live anywhere, so such fields move into one class, the holder. A field that an
initializer touches stays, because a move would change when it is initialized. Fields that nothing
refers to can be removed first.

Main definitions: `removeUnusedFields`, `ensureHolder`, `moveStaticFields`. -/

namespace Unscramble.Tidy

open Naming (Families Move Renaming)

/-- What a change of a codebase leaves behind. A change that fails keeps what it has done so far. -/
structure Moved where
  /-- What was worth telling. -/
  warnings : List Warning := []
  /-- How many members moved. -/
  result : Except Error Nat
  /-- The codebase afterwards. -/
  codebase : Codebase

/-- The field references in the bodies of some methods. -/
def fieldReferences (methods : List Method) : List Member :=
  (methods.filterMap (·.body)).flatMap fun b => b.listing.instructions.filterMap fun i =>
    match i with
    | .field _ m => some m
    | _ => none

/-- The families that some references belong to. -/
def familiesOf (families : Families) (references : List Member) : Std.HashSet Nat :=
  references.foldl (fun s m =>
    match families.family? m with
    | some f => s.insert f
    | none => s) ∅

/-- Whether the family of a reference is one of `set`. -/
def belongsTo (families : Families) (set : Std.HashSet Nat) (m : Member) : Bool :=
  (families.family? m).any set.contains

/-- Removes the fields that no instruction refers to, and counts them. -/
def removeUnusedFields (p : Codebase) : Nat × Codebase :=
  let families := Families.ofCodebase p
  let used := familiesOf families (fieldReferences p.methods)
  let classes := p.classes.map fun c =>
    { c with fields := c.fields.filter fun f =>
        (families.family? f.key).isNone || belongsTo families used f.key }
  ((p.classes.flatMap (·.fields)).length - (classes.flatMap (·.fields)).length, { p with classes })

/-- An empty public class. -/
def emptyHolder (name : String) : Class :=
  { name
    superclass := some "java/lang/Object"
    access := Access.publicFlag.union .synchronizedFlag
    sourceFile := some (Naming.sourceFileName name) }

/-- Adds an empty class unless there is one of that name. -/
def ensureHolder (holder : String) (p : Codebase) : Codebase :=
  if (p.class? holder).isSome then p else { p with classes := p.classes ++ [emptyHolder holder] }

/-- The names that a field may get in the holder, in order of preference: its own, and then with the
name of its class in front and a number behind. -/
def holderNames (simpleClass field : String) (count : Nat) : List String :=
  let qualified := simpleClass ++ "_" ++ field
  field :: qualified :: (List.range count).map fun i => qualified ++ toString (i + 2)

/-- Fields that are to move. -/
structure FieldPlan where
  /-- The names and types that the holder declares or will declare. -/
  taken : Std.HashSet (String × String)
  /-- The moves, last first. -/
  moves : List Move := []
  /-- The new references. -/
  names : Renaming := {}

/-- The first of the preferred names that is free in the holder. One of them is, since there are
more of them than names in use. -/
def freeName (taken : Std.HashSet (String × String)) (c : Class) (f : Field) : String :=
  let names := holderNames (Naming.simpleName c.name) f.name taken.size
  (names.find? fun name => !taken.contains (name, f.descriptor)).getD f.name

/-- Plans the move of a field. -/
def planField (families : Families) (holder : String) (c : Class) (plan : FieldPlan) (f : Field) :
    FieldPlan :=
  let name := freeName plan.taken c f
  let target : Member := ⟨holder, name, f.descriptor⟩
  { taken := plan.taken.insert (name, f.descriptor)
    moves := (f.key, holder) :: plan.moves
    names := (families.linked f.key).foldl (fun r old => r.mapMember old target) plan.names }

/-- Plans the moves of the fields of a class. -/
def planFields (families : Families) (pinned : Std.HashSet Nat) (holder : String) (plan : FieldPlan)
    (c : Class) : FieldPlan :=
  if c.name == holder || c.isInterface then plan else
    (c.fields.filter fun f => f.isStatic && !belongsTo families pinned f.key).foldl
      (planField families holder c) plan

/-- Plans the moves of all fields that can move. -/
def fieldPlan (holder : String) (p : Codebase) : FieldPlan :=
  let families := Families.ofCodebase p
  let pinned := familiesOf families (fieldReferences (p.methods.filter Method.isInitializer))
  let declared := ((p.class? holder).map (·.fields)).getD []
  let taken := declared.foldl (fun s f => s.insert (f.name, f.descriptor)) ∅
  p.classes.foldl (planFields families pinned holder) { taken }

/-- A class with public fields. -/
def publishFields (c : Class) : Class :=
  { c with fields := c.fields.map fun f => { f with access := f.access.publish } }

/-- Moves every static field that can move into the holder, which is made if needed. -/
def moveStaticFields (holder : String) (p : Codebase) : Moved :=
  let plan := fieldPlan holder p
  if plan.moves.isEmpty then { result := .ok 0, codebase := p } else
    let p := ensureHolder holder p
    let (warnings, moved) := Naming.relocate p plan.moves.reverse
    match moved with
    | .error e => { warnings, result := .error e, codebase := p }
    | .ok (count, p) =>
      { warnings, result := .ok count
        codebase := plan.names.apply (p.modifyClass holder publishFields) }

end Unscramble.Tidy
