import Unscramble.Binary.Form

/-! # Layout

The offsets of encoded instructions. A jump whose displacement does not fit into 16 bits becomes
wide if it can, which moves what follows; this is repeated until nothing is widened any more.

Main definitions: `offsets`, `Layout`, `Layout.settle`. -/

namespace Unscramble.Binary

/-- The offset of each form from `start` on, and the offset behind the last, in front of which
`done` were found, last first. -/
def offsetsFrom (start : Nat) (done : List Nat) : List Form → List Nat
  | [] => (start :: done).reverse
  | form :: rest => offsetsFrom (start + form.size start) (start :: done) rest

/-- The offset of each form, and the offset behind the last. -/
def offsets (forms : List Form) : List Nat :=
  offsetsFrom 0 [] forms

/-- Forms with their offsets. -/
structure Layout where
  /-- The forms in order. -/
  forms : List Form
  /-- The offset of each form, and the offset behind the last. -/
  offsets : Array Nat
  /-- The position of each label among the forms. -/
  positions : Array (Option Nat)
deriving Inhabited

/-- How many jumps have a displacement of 16 bits. -/
def narrowJumps : List Form → Nat
  | [] => 0
  | .jump _ _ false :: rest => narrowJumps rest + 1
  | _ :: rest => narrowJumps rest

/-- Whether a displacement fits into 16 bits. -/
def isNear (displacement : Int) : Bool :=
  -32768 ≤ displacement && displacement ≤ 32767

/-- Widens the jumps that lead too far. A branch with a condition cannot be widened. -/
def widen (offsetOf : Label → Except Malformation Nat) (method : String) :
    List (Form × Nat) → Except Malformation (List Form)
  | [] => .ok []
  | (.jump op target false, start) :: rest => do
    if isNear ((← offsetOf target : Nat) - (start : Int)) then
      return .jump op target false :: (← widen offsetOf method rest)
    else if op == .goto || op == .jsr then
      return .jump op target true :: (← widen offsetOf method rest)
    else throw (.branchTooFar start method)
  | (form, _) :: rest => do
    return form :: (← widen offsetOf method rest)

namespace Layout

/-- The layout of some forms as they are. -/
def of (positions : Array (Option Nat)) (forms : List Form) : Layout :=
  { forms, offsets := (Binary.offsets forms).toArray, positions }

/-- The number of bytes. -/
def length (l : Layout) : Nat :=
  (l.offsets.back?).getD 0

/-- The offset of the form at a position. -/
def offsetAt (l : Layout) (position : Nat) : Nat :=
  (l.offsets[position]?).getD 0

/-- The offset of a label. -/
def offsetOf (l : Layout) (label : Label) : Except Malformation Nat :=
  match Listing.positionIn l.positions label with
  | some position => .ok (l.offsetAt position)
  | none => .error .missingLabel

/-- The forms with their offsets. -/
def located (l : Layout) : List (Form × Nat) :=
  l.forms.zip l.offsets.toList

/-- A layout in which every displacement fits. -/
def settle (positions : Array (Option Nat)) (method : String) (forms : List Form) :
    Except Malformation Layout :=
  let l := Layout.of positions forms
  match widen l.offsetOf method l.located with
  | .error cause => .error cause
  | .ok widened =>
    if narrowJumps widened < narrowJumps forms then settle positions method widened else .ok l
termination_by narrowJumps forms
decreasing_by assumption

/-- The bytes of a layout. -/
def bytes (l : Layout) : Except Malformation Bytes := do
  let parts ← l.located.mapM fun (form, start) => form.bytes l.offsetOf start
  return parts.flatten

end Layout

end Unscramble.Binary
