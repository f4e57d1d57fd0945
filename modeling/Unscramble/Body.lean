import Unscramble.Listing

/-! # Method bodies

A body is a listing with the ranges of instructions that handlers protect. -/

namespace Unscramble

/-- The bytes of a file or of a part of it. -/
abbrev Bytes := List UInt8

/-- A part of a class file that is carried along without being understood. Pool indices inside it
stay valid because a pool only grows. -/
structure Attribute where
  /-- The name of the attribute. -/
  name : String
  /-- Its contents. -/
  data : Bytes
deriving DecidableEq, Repr, Inhabited

/-- A protected range, from `start` up to and without `stop`, with the handler that takes over. -/
structure Guard (L : Type) where
  /-- Where the range begins. -/
  start : L
  /-- Where the range ends. -/
  stop : L
  /-- Where control goes when an exception is caught. -/
  handler : L
  /-- The class of the exceptions that are caught; every exception if absent. -/
  catches : Option String
deriving DecidableEq, Repr, Inhabited

namespace Guard

/-- The three labels of a range. -/
def labels {L : Type} (g : Guard L) : List L :=
  [g.start, g.stop, g.handler]

/-- Replaces the three labels of a range through `f`. -/
def map {L M : Type} (f : L → M) (g : Guard L) : Guard M :=
  ⟨f g.start, f g.stop, f g.handler, g.catches⟩

end Guard

/-- The body of a method. -/
structure Body where
  /-- The instructions. -/
  listing : Listing := {}
  /-- The protected ranges, in the order in which they are tried. -/
  guards : List (Guard Label) := []
  /-- How deep the operand stack grows. -/
  maxStack : UInt16 := 0
  /-- How many local slots the body uses. -/
  maxLocals : UInt16 := 0
  /-- Parts of the encoded body other than the instructions, their lines and ranges. -/
  attributes : List Attribute := []
deriving Repr, Inhabited

namespace Body

/-- The labels that some range uses. -/
def guardLabels (b : Body) : List Label :=
  b.guards.flatMap Guard.labels

end Body

end Unscramble
