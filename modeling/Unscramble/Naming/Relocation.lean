import Unscramble.Codebase
import Unscramble.Error

/-! # Relocations

Moving static members into other classes. All moves are looked at first: a member that belongs to
instances stops everything before anything has moved.

Main definitions: `Move`, `checkMoves`, `relocate`. -/

namespace Unscramble.Naming

/-- A member with the class it is to move to, both by their present names. -/
abbrev Move := Member × String

/-- Whether a reference names a method. -/
def isMethod (m : Member) : Bool :=
  m.descriptor.toList.head? == some '('

/-- Whether the member that a class declares under a reference is static, if it declares one. -/
def isStaticIn? (c : Class) (m : Member) : Option Bool :=
  if isMethod m then (c.method? m.name m.descriptor).map Method.isStatic
  else (c.field? m.name m.descriptor).map Field.isStatic

/-- What the check of one move says. -/
inductive MoveCheck where
  /-- The move can be made. -/
  | valid
  /-- The codebase has no such member, so there is nothing to move. -/
  | absent
  /-- The class to move to does not exist. -/
  | noTarget
  /-- The member belongs to instances. -/
  | notStatic
deriving DecidableEq, Repr

/-- Checks a move. -/
def checkMove (p : Codebase) (move : Move) : MoveCheck :=
  if (p.class? move.2).isNone then .noTarget else
    match (p.class? move.1.owner).bind (isStaticIn? · move.1) with
    | none => .absent
    | some true => .valid
    | some false => .notStatic

/-- The moves that can be made, with the warnings about others; fails at the first member that
belongs to instances, with the warnings up to there. -/
def checkMoves (p : Codebase) : List Move → List Warning × Except Error (List Move)
  | [] => ([], .ok [])
  | move :: rest =>
    match checkMove p move with
    | .notStatic => ([], .error (.nonStaticRelocation move.1.text))
    | .noTarget =>
      let (warnings, valid) := checkMoves p rest
      (.missingTarget move.2 move.1 :: warnings, valid)
    | .absent => checkMoves p rest
    | .valid =>
      let (warnings, valid) := checkMoves p rest
      (warnings, valid.map (move :: ·))

/-- Makes one move: the first member of that name and type leaves its class and joins the other at
its end. Counts the moves. -/
def makeMove (state : Nat × Codebase) (move : Move) : Nat × Codebase :=
  let (count, p) := state
  let (m, target) := move
  if m.owner == target then state else
    match p.class? m.owner with
    | none => state
    | some owner =>
      if isMethod m then
        match owner.method? m.name m.descriptor with
        | none => state
        | some method =>
          let p := p.modifyClass m.owner fun c =>
            { c with methods := c.methods.eraseP (Method.isNamed m.name m.descriptor) }
          (count + 1, p.modifyClass target fun c => { c with methods := c.methods ++ [method] })
      else
        match owner.field? m.name m.descriptor with
        | none => state
        | some field =>
          let p := p.modifyClass m.owner fun c =>
            { c with fields := c.fields.eraseP (Field.isNamed m.name m.descriptor) }
          (count + 1, p.modifyClass target fun c => { c with fields := c.fields ++ [field] })

/-- Moves members into other classes, or nothing at all if one of them belongs to instances, and
counts the moves. -/
def relocate (p : Codebase) (moves : List Move) : List Warning × Except Error (Nat × Codebase) :=
  let (warnings, valid) := checkMoves p moves
  (warnings, valid.map fun moves => moves.foldl makeMove (0, p))

end Unscramble.Naming
