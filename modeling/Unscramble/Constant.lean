import Unscramble.Decimal
import Unscramble.Descriptor
import Unscramble.Text.Printable

/-! # Members and loadable constants

A field or method is named by its class, its own name and its descriptor. The same triple is the key
of a declaration and the operand of an instruction. Constants stand as an instruction pushes them or
a field starts with. Floating-point numbers are kept by their bits, so every value survives a round
trip; `Constant.agrees` compares them as numbers.

Main definitions: `Member`, `Constant`, `Constant.agrees`, `Constant.text`. -/

namespace Unscramble

/-! ### Members -/

/-- Names a field or method. -/
structure Member where
  /-- The class the member is looked up in. -/
  owner : String
  /-- The member's name. -/
  name : String
  /-- The member's descriptor. -/
  descriptor : String
deriving DecidableEq, Hashable, Repr, Inhabited

namespace Member

/-- The same member under the name of another class. -/
def withOwner (m : Member) (owner : String) : Member :=
  { m with owner }

/-- Compares by owner, then name, then descriptor. -/
protected def compare (a b : Member) : Ordering :=
  (compare a.owner b.owner).then ((compare a.name b.name).then (compare a.descriptor b.descriptor))

instance : Ord Member := ⟨Member.compare⟩

/-- The text of a reference. -/
def text (m : Member) : String :=
  m.owner ++ "." ++ m.name ++ " " ++ m.descriptor

end Member

/-! ### Loadable constants -/

/-- A constant that an instruction can push. -/
inductive Constant where
  /-- A 32-bit integer. -/
  | int (value : Int32)
  /-- A 32-bit floating-point number, by its bits. -/
  | float (bits : UInt32)
  /-- A 64-bit integer. -/
  | long (value : Int64)
  /-- A 64-bit floating-point number, by its bits. -/
  | double (bits : UInt64)
  /-- A text. -/
  | string (value : String)
  /-- A class, by name or array descriptor. -/
  | ofClass (name : String)
  /-- The type of a method. -/
  | methodType (descriptor : String)
  /-- A handle of a member; kinds 1 to 4 are field accesses. -/
  | methodHandle (kind : UInt8) (member : Member) (viaInterface : Bool)
  /-- A constant computed by a bootstrap method of the class. -/
  | dynamic (bootstrap : UInt16) (name descriptor : String)
deriving DecidableEq, Repr, Inhabited

namespace Constant

/-- Integers and floating-point numbers of 64 bits take two stack slots and two pool slots. -/
def isWide : Constant → Bool
  | .long _ | .double _ => true
  | _ => false

/-- Equality of two floating-point numbers of format `f`: equal bits that are no NaN, or two zeros.
-/
def sameNumber (f : Decimal.Format) (a b : Nat) : Bool :=
  match f.magnitude a, f.magnitude b with
  | .nan, _ => false
  | .zero, .zero => true
  | _, _ => a == b

/-- Equality of constants with floating-point numbers compared as numbers: a NaN agrees with
nothing, and the two zeros agree. -/
def agrees : Constant → Constant → Bool
  | .float a, .float b => sameNumber Decimal.single a.toNat b.toNat
  | .double a, .double b => sameNumber Decimal.double a.toNat b.toNat
  | a, b => a == b

/-- A record of named values between braces. -/
def recordText (name : String) (fields : List (String × String)) : String :=
  name ++ " \x7b " ++ ", ".intercalate (fields.map fun (k, v) => k ++ ": " ++ v) ++ " \x7d"

/-- A member reference as a record. -/
def memberText (m : Member) : String :=
  recordText "MemberRef" [("owner", Text.quoted m.owner), ("name", Text.quoted m.name),
    ("descriptor", Text.quoted m.descriptor)]

/-- A truth value in words. -/
def flagText (b : Bool) : String :=
  if b then "true" else "false"

/-- The text of a constant: its kind, and its parts with texts quoted. -/
def text : Constant → String
  | .int v => "Int(" ++ toString v.toInt ++ ")"
  | .float bits => "Float(" ++ Decimal.single.text bits.toNat ++ ")"
  | .long v => "Long(" ++ toString v.toInt ++ ")"
  | .double bits => "Double(" ++ Decimal.double.text bits.toNat ++ ")"
  | .string s => "String(" ++ Text.quoted s ++ ")"
  | .ofClass c => "Class(" ++ Text.quoted c ++ ")"
  | .methodType d => "MethodType(" ++ Text.quoted d ++ ")"
  | .methodHandle kind member viaInterface =>
    recordText "MethodHandle" [("kind", toString kind.toNat), ("member", memberText member),
      ("interface", flagText viaInterface)]
  | .dynamic bootstrap name descriptor =>
    recordText "Dynamic" [("bootstrap", toString bootstrap.toNat), ("name", Text.quoted name),
      ("descriptor", Text.quoted descriptor)]

end Constant

end Unscramble
