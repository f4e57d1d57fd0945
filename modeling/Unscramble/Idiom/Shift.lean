import Unscramble.Body
import Unscramble.Pattern.Basic

/-! # Shift distances

A shift uses only the low five bits of its distance, or six for a 64-bit value. Constant distances
are replaced by what is used of them. -/

namespace Unscramble.Idiom

/-- A shift by a constant. -/
def constantShift : Pattern := .ofText
  "(ICONST | BIPUSH | SIPUSH | LDC) (ISHL | ISHR | IUSHR | LSHL | LSHR | LUSHR)"

/-- The bits of a distance that a shift uses. -/
def distanceMask (shift : Instruction Label) : Int32 :=
  if shift.opcode?.any Opcode.isLongShift then 63 else 31

/-- Masks the distance of a shift, and counts the change. -/
def maskShift (state : Nat × Listing) : List Handle → Nat × Listing
  | distance :: shift :: _ =>
    let (count, l) := state
    match (l.get distance).pushedInt? with
    | none => state
    | some n =>
      let masked := n &&& distanceMask (l.get shift)
      if masked = n then state else (count + 1, l.replace distance (.pushInt masked))
  | _ => state

/-- Masks every constant shift distance that is out of range, and counts them. -/
def maskShifts (shift : Pattern) (b : Body) : Nat × Body :=
  let (count, listing) := (shift.runs b.listing).foldl maskShift (0, b.listing)
  (count, { b with listing })

end Unscramble.Idiom
