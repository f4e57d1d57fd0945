import Unscramble.Tidy.StaticFields
import Unscramble.Tidy.Uncalled

/-! # Static methods

Obfuscators copy static methods into unrelated classes and redirect the calls to the copies. A
called method whose body equals that of uncalled methods of exactly one class goes back to that
class. The other called static methods in the package of the holder move into the holder.

Main definitions: `fingerprint`, `methodPlan`, `moveStaticMethods`. -/

namespace Unscramble.Tidy

open Naming (Families Move Renaming)

/-- The line of an instruction in a fingerprint; a line marker has none. -/
def fingerprintLine (i : Instruction Label) (shape : String) : String :=
  match i with
  | .line _ => ""
  | _ => "\n" ++ if i.pushedInt?.isSome then "(int)" else shape

/-- What a method does, up to the integers it pushes and to its source lines. -/
def fingerprint (m : Method) (b : Body) : String :=
  (b.listing.instructions.zip b.listing.shape).foldl
    (fun text (i, shape) => text ++ fingerprintLine i shape) m.descriptor

/-- The access of the member that a reference names, if its class declares one. -/
def declaredAccess? (p : Codebase) (m : Member) : Option Access :=
  (p.class? m.owner).bind fun c =>
    if Naming.isMethod m then (c.method? m.name m.descriptor).map (·.access)
    else (c.field? m.name m.descriptor).map (·.access)

/-- Whether an instruction of a class works in any other class: it uses no protected member and no
private one of the class itself. -/
def worksElsewhere (p : Codebase) (c : Class) : Instruction Label → Bool
  | .field _ m | .invoke _ m _ =>
    match declaredAccess? p m with
    | none => true
    | some access =>
      !access.contains .protectedFlag && !(m.owner == c.name && access.contains .privateFlag)
  | _ => true

/-- Whether a method works in any other class. One that locks its class does not. -/
def isMovable (p : Codebase) (c : Class) (m : Method) (b : Body) : Bool :=
  !m.access.contains .synchronizedFlag && b.listing.instructions.all (worksElsewhere p c)

/-- A static method that may move. -/
structure StaticMethod where
  /-- What the method does. -/
  fingerprint : String
  /-- The reference that names it. -/
  key : Member
  /-- Whether something calls a method of its name. -/
  called : Bool
  /-- Whether it works in any other class. -/
  movable : Bool
deriving Repr, Inhabited

/-- A method as one that may move: static, with a generated name and a body. -/
def staticMethod? (p : Codebase) (called : Std.HashSet String) (c : Class) (m : Method) :
    Option StaticMethod :=
  if m.isStatic && Naming.isGenerated methodStem m.name then
    m.body.map fun b => ⟨fingerprint m b, m.key, called.contains m.name, isMovable p c m b⟩
  else none

/-- The static methods that may move, by fingerprint and then in order. -/
def staticMethods (p : Codebase) : List StaticMethod :=
  let called := calledNames p
  let found := (p.classes.filter fun c => !c.isInterface).flatMap fun c =>
    c.methods.filterMap (staticMethod? p called c)
  found.mergeSort fun a b => a.fingerprint ≤ b.fingerprint

/-- The class that a group of equal methods belongs to: the one class with uncalled ones. -/
def homeOf? (group : List StaticMethod) : Option String :=
  match (group.filter fun m => !m.called).map (·.key.owner) with
  | [] => none
  | owner :: rest => if rest.all (· == owner) then some owner else none

/-- The called methods of groups with a home. -/
def settledMethods (groups : List (List StaticMethod)) : List (StaticMethod × String) :=
  groups.flatMap fun group =>
    match homeOf? group with
    | some home =>
      if 1 < group.length then (group.filter (·.called)).map fun m => (m, home) else []
    | none => []

/-- The package part of a class name. -/
def packageOf (name : String) : String :=
  String.ofList (Text.throughLast '/' name).toList.dropLast

/-- Where each method that moves goes. -/
def methodPlan (holder : String) (p : Codebase) : Std.HashMap Member String :=
  let methods := staticMethods p
  let settled := settledMethods (methods.splitBy fun a b => a.fingerprint == b.fingerprint)
  let settledKeys : Std.HashSet Member := settled.foldl (fun s (m, _) => s.insert m.key) ∅
  let homes := settled.foldl (fun plan (m, home) =>
    if m.movable && m.key.owner != home then plan.insert m.key home else plan) ∅
  (methods.filter fun m => m.called && m.movable && !settledKeys.contains m.key &&
      m.key.owner != holder && packageOf m.key.owner == packageOf holder).foldl
    (fun plan m => plan.insert m.key holder) homes

/-- Methods that are to move. -/
structure MethodMoves where
  /-- The references that some class declares or will declare. -/
  taken : Std.HashSet Member
  /-- The moves, last first. -/
  moves : List Move := []
  /-- The new references. -/
  names : Renaming := {}

/-- Adds a move unless the class to move to has such a method. -/
def addMove (families : Families) (state : MethodMoves) (move : Move) : MethodMoves :=
  let (key, target) := move
  let moved := key.withOwner target
  if state.taken.contains moved then state else
    { taken := state.taken.insert moved
      moves := move :: state.moves
      names := (families.linked key).foldl (fun r old => r.mapMember old moved) state.names }

/-- The moves of a codebase, in ascending order of what moves. -/
def methodMoves (plan : Std.HashMap Member String) (p : Codebase) : MethodMoves :=
  let moves := plan.toList.mergeSort fun a b => (compare a.1 b.1).isLE
  let taken := p.methods.foldl (fun s m => s.insert m.key) ∅
  moves.foldl (addMove (Families.ofCodebase p)) { taken }

/-- Makes a moved method public in its new class. -/
def publishMoved (p : Codebase) (move : Move) : Codebase :=
  p.modifyClass move.2 fun c => c.modifyMethod move.1.name move.1.descriptor fun m =>
    { m with access := m.access.publish }

/-- Moves static methods to the classes they belong to, or into the holder. -/
def moveStaticMethods (holder : String) (p : Codebase) : Moved :=
  let plan := methodPlan holder p
  if plan.isEmpty then { result := .ok 0, codebase := p } else
    let planned := methodMoves plan p
    let moves := planned.moves.reverse
    let p := if moves.any fun move => move.2 == holder then ensureHolder holder p else p
    let (warnings, moved) := Naming.relocate p moves
    match moved with
    | .error e => { warnings, result := .error e, codebase := p }
    | .ok (count, p) =>
      { warnings, result := .ok count
        codebase := planned.names.apply (moves.foldl publishMoved p) }

end Unscramble.Tidy
