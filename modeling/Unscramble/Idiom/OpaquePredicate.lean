import Unscramble.Body
import Unscramble.Pattern.Basic

/-! # Opaque predicates

A flow obstructor is a static field that no run ever makes true. The obfuscator assigns it in a
sequence of instructions of its own, which gives the field away; branches on it, or on a slot it was
copied to, always go the same way.

Main definitions: `removeInitializers`, `removePredicates`. -/

namespace Unscramble.Idiom

/-- The assignment of a flow obstructor. -/
def obstructorInitializer : Pattern := .ofText
  ("(GETSTATIC | ILOAD) IFEQ " ++
    "(((GETSTATIC ISTORE)? IINC ILOAD) | ((GETSTATIC | ILOAD) IFEQ ICONST GOTO ICONST)) " ++
    "PUTSTATIC")

/-- A branch on a field or on a slot. -/
def obstructorPredicate : Pattern := .ofText "(GETSTATIC | ILOAD) (IFEQ | IFNE)"

/-- A copy of a field to a slot. -/
def obstructorCopy : Pattern := .ofText "GETSTATIC ISTORE"

/-- The field that an instruction accesses. -/
def accessedField? : Instruction Label → Option Member
  | .field _ m => some m
  | _ => none

/-- The field that a run copies to a slot, and the slot. -/
def copied? (l : Listing) : List Handle → Option (Member × UInt16)
  | load :: store :: _ => do
    return (← accessedField? (l.get load), ← (l.get store).stored?)
  | _ => none

/-- The fields that a listing copies to slots, with the slots. -/
def copies (l : Listing) : List (Member × UInt16) :=
  (obstructorCopy.runs l).filterMap (copied? l)

/-- The field that a run assigns as a flow obstructor. A run that starts from a slot counts only if
the field is copied to a slot. -/
def obstructor? (l : Listing) (run : List Handle) : Option Member := do
  let target ← accessedField? (l.get (← run.getLast?))
  if (l.get (← run.head?)).loaded?.isSome && !(copies l).any fun c => c.1 == target then none
  return target

/-- Removes the assignments of flow obstructors behind their first branch, and answers the fields.
-/
def removeInitializers (b : Body) : List Member × Body :=
  let l := b.listing
  let found := (obstructorInitializer.runs l).filterMap fun run =>
    (obstructor? l run).map fun m => (m, run.drop 2)
  (found.map (·.1), { b with listing := (found.flatMap (·.2)).foldl Listing.remove l })

/-- Whether an instruction reads a flow obstructor or a slot it was copied to. -/
def readsObstructor (obstructors : List Member) (slots : List UInt16) (i : Instruction Label) :
    Bool :=
  match accessedField? i with
  | some m => obstructors.contains m
  | none => i.loaded?.any slots.contains

/-- Decides a branch on a flow obstructor: a branch on false is taken, one on true is not. -/
def decideBranch (l : Listing) : List Handle → Listing
  | load :: branch :: _ =>
    match l.get branch with
    | .jump op target =>
      if op == .ifeq then (l.remove load).replace branch (.jump .goto target)
      else if op == .ifne then (l.remove load).remove branch
      else l
    | _ => l
  | _ => l

/-- Decides every branch on a flow obstructor and removes the copies of flow obstructors to slots.
Answers the numbers of branches and copies. -/
def removePredicates (obstructors : List Member) (b : Body) : (Nat × Nat) × Body :=
  let l := b.listing
  let slots := ((copies l).filter fun c => obstructors.contains c.1).map (·.2)
  let predicates := (obstructorPredicate.runs l).filter fun run =>
    run.head?.any fun load => readsObstructor obstructors slots (l.get load)
  let l := predicates.foldl decideBranch l
  let stores := (obstructorCopy.runs l).filter fun run =>
    run.head?.any fun load => (accessedField? (l.get load)).any obstructors.contains
  ((predicates.length, stores.length), { b with listing := stores.flatten.foldl Listing.remove l })

end Unscramble.Idiom
