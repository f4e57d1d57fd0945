import Unscramble.Constant

/-! # Pool entries

The entries of a constant pool, which refer to each other by index. -/

namespace Unscramble.Binary

/-- What a member reference of a pool refers to. -/
inductive MemberKind where
  /-- A field. -/
  | field
  /-- A method of a class. -/
  | method
  /-- A method of an interface. -/
  | interfaceMethod
deriving DecidableEq, Hashable, Repr, Inhabited

/-- One entry of a constant pool. -/
inductive Entry where
  /-- The first slot, and the second slot of a 64-bit number. -/
  | unusable
  /-- A text. -/
  | utf8 (text : String)
  /-- A 32-bit integer. -/
  | int (value : Int32)
  /-- A 32-bit floating-point number, by its bits. -/
  | float (bits : UInt32)
  /-- A 64-bit integer. -/
  | long (value : Int64)
  /-- A 64-bit floating-point number, by its bits. -/
  | double (bits : UInt64)
  /-- A class, by the index of its name. -/
  | ofClass (name : UInt16)
  /-- A text constant, by the index of its text. -/
  | string (text : UInt16)
  /-- A reference to a field or method. -/
  | member (kind : MemberKind) (owner nameAndType : UInt16)
  /-- A name and a descriptor. -/
  | nameAndType (name descriptor : UInt16)
  /-- A handle of a member. -/
  | methodHandle (kind : UInt8) (reference : UInt16)
  /-- The type of a method, by the index of its descriptor. -/
  | methodType (descriptor : UInt16)
  /-- A constant that a bootstrap method computes. -/
  | dynamic (bootstrap nameAndType : UInt16)
  /-- A call site that a bootstrap method links. -/
  | invokeDynamic (bootstrap nameAndType : UInt16)
  /-- A module, by the index of its name. -/
  | ofModule (name : UInt16)
  /-- A package, by the index of its name. -/
  | ofPackage (name : UInt16)
deriving DecidableEq, Hashable, Repr, Inhabited

namespace Entry

/-- Whether the entry takes two slots. -/
def isWide : Entry → Bool
  | .long _ | .double _ => true
  | _ => false

/-- The slots that the entry occupies: itself, and an unusable one behind a 64-bit number. -/
def slots (e : Entry) : Nat :=
  if e.isWide then 2 else 1

/-- The name that a message uses for a kind of member reference. -/
def kindText : MemberKind → String
  | .field => "FieldRef"
  | .method => "MethodRef"
  | .interfaceMethod => "InterfaceMethodRef"

/-- An entry with one number in a message. -/
def unaryText (name : String) (n : Int) : String :=
  name ++ "(" ++ toString n ++ ")"

/-- An entry with two numbers in a message. -/
def binaryText (name first : String) (a : Nat) (second : String) (b : Nat) : String :=
  Constant.recordText name [(first, toString a), (second, toString b)]

/-- How a message shows an entry. -/
def text : Entry → String
  | .unusable => "Unusable"
  | .utf8 s => "Utf8(" ++ Text.quoted s ++ ")"
  | .int v => unaryText "Int" v.toInt
  | .float bits => unaryText "Float" bits.toNat
  | .long v => unaryText "Long" v.toInt
  | .double bits => unaryText "Double" bits.toNat
  | .ofClass name => unaryText "Class" name.toNat
  | .string s => unaryText "String" s.toNat
  | .member kind owner nt => binaryText (kindText kind) "class" owner.toNat "name_and_type" nt.toNat
  | .nameAndType name d => binaryText "NameAndType" "name" name.toNat "descriptor" d.toNat
  | .methodHandle kind r => binaryText "MethodHandle" "kind" kind.toNat "reference" r.toNat
  | .methodType d => unaryText "MethodType" d.toNat
  | .dynamic b nt => binaryText "Dynamic" "bootstrap" b.toNat "name_and_type" nt.toNat
  | .invokeDynamic b nt => binaryText "InvokeDynamic" "bootstrap" b.toNat "name_and_type" nt.toNat
  | .ofModule name => unaryText "Module" name.toNat
  | .ofPackage name => unaryText "Package" name.toNat

end Entry

end Unscramble.Binary
