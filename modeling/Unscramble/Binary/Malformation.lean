import Unscramble.Binary.Entry
import Unscramble.Opcode

/-! # Malformed class files

The causes for which a class file cannot be read, or a class cannot be written as one. -/

namespace Unscramble.Binary

/-- What a pool entry was expected to be. -/
inductive Expectation where
  /-- A text. -/
  | utf8
  /-- A class. -/
  | ofClass
  /-- A name with a descriptor. -/
  | nameAndType
  /-- A reference to a field or method. -/
  | member
  /-- A call site for a bootstrap method. -/
  | callSite
  /-- A constant that an instruction can push. -/
  | loadable
deriving DecidableEq, Repr, Inhabited

namespace Expectation

/-- The expectation in words. -/
def text : Expectation → String
  | .utf8 => "UTF-8"
  | .ofClass => "a class"
  | .nameAndType => "a name and type"
  | .member => "a member reference"
  | .callSite => "an invokedynamic call site"
  | .loadable => "a loadable constant"

end Expectation

/-- Why a class file cannot be read or written. All but `overflow` are told; at an overflow the program
stops without an answer. -/
inductive Malformation where
  /-- The bytes end too early. -/
  | truncated
  /-- The file does not start like a class file. -/
  | badMagic
  /-- A sum of 16-bit numbers has more than 16 bits. -/
  | overflow
  /-- A pool entry has an unknown tag. -/
  | badTag (tag : UInt8) (index : UInt16)
  /-- An index names no usable pool entry. -/
  | badIndex (index : UInt16)
  /-- A pool entry is of another kind than expected. -/
  | unexpected (index : UInt16) (entry : Entry) (expected : Expectation)
  /-- An annotation value has an unknown tag. -/
  | badElementTag (tag : UInt8)
  /-- A jump or range leads outside of the body. -/
  | targetOutside (offset : Int)
  /-- A jump or range leads into the middle of an instruction. -/
  | targetInside
  /-- An opcode that has no form for 16-bit slots. -/
  | badWide (op : Opcode) (offset : Nat)
  /-- A jump table whose bounds are in the wrong order. -/
  | badTableBounds (offset : Nat)
  /-- A jump table with a negative number of cases. -/
  | badLookupSize (offset : Nat)
  /-- A byte that is no opcode. -/
  | unknownOpcode (op : Opcode) (offset : Nat)
  /-- The pool has no room left. -/
  | poolFull
  /-- A text is too long to be encoded. -/
  | textTooLong
  /-- A conditional branch leads too far. -/
  | branchTooFar (offset : Nat) (method : String)
  /-- A body is too large. -/
  | bodyTooLarge (method : String)
  /-- A label that is used stands nowhere in its body. -/
  | missingLabel
deriving DecidableEq, Repr, Inhabited

namespace Malformation

/-- The cause in words. -/
def message : Malformation → String
  | .truncated => "truncated input"
  | .badMagic => "bad magic"
  | .overflow => "attempt to add with overflow"
  | .badTag tag index =>
    "bad constant tag " ++ toString tag.toNat ++ " at index " ++ toString index.toNat
  | .badIndex index => "bad constant pool index " ++ toString index.toNat
  | .unexpected index entry expected =>
    "entry " ++ toString index.toNat ++ " is " ++ entry.text ++ ", expected " ++ expected.text
  | .badElementTag tag => "bad element value tag " ++ Text.quotedChar (Char.ofNat tag.toNat)
  | .targetOutside offset => "branch target " ++ toString offset ++ " outside of code"
  | .targetInside => "branch target inside an instruction"
  | .badWide op offset =>
    "bad wide opcode " ++ toString op.byte.toNat ++ " at " ++ toString offset
  | .badTableBounds offset => "bad tableswitch bounds at " ++ toString offset
  | .badLookupSize offset => "bad lookupswitch size at " ++ toString offset
  | .unknownOpcode op offset =>
    "unknown opcode " ++ toString op.byte.toNat ++ " at " ++ toString offset
  | .poolFull => "constant pool exceeds 65535 entries"
  | .textTooLong => "string constant exceeds 65535 bytes"
  | .branchTooFar offset method =>
    "conditional branch at " ++ toString offset ++ " in " ++ method ++ " is out of range"
  | .bodyTooLarge method => method ++ " is too large"
  | .missingLabel => "label is not part of the instruction list"

end Malformation

end Unscramble.Binary
