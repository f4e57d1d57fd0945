import Unscramble.Body
import Unscramble.Text.Basic

/-! # Archives

The parts that reading and writing a zip archive share: its entries, its faults, numbers with the
least significant byte first, and the names of entries.

Main definitions: `Entry`, `Fault`, `littleBytes`, `littleNat`. -/

namespace Unscramble.Zip

/-- A file in an archive. -/
structure Entry where
  /-- The path of the file inside the archive. -/
  name : String
  /-- The content. -/
  data : Bytes
deriving DecidableEq, Repr, Inhabited

/-- Why an archive cannot be read or written. -/
inductive Fault where
  /-- The bytes are no archive. -/
  | noArchive
  /-- The record in front of an entry's content is missing. -/
  | badRecord (name : String)
  /-- An entry is encrypted or packed in an unknown way. -/
  | unsupported (name : String)
  /-- The content of an entry is not what the archive promises. -/
  | damaged (name : String)
  /-- Two entries have the same name. -/
  | duplicate (name : String)
  /-- The archive or a name in it exceeds the limits of the format. -/
  | tooLarge
deriving DecidableEq, Repr, Inhabited

namespace Fault

/-- The fault in words. -/
def message : Fault → String
  | .noArchive => "invalid archive"
  | .badRecord name => "no record of `" ++ name ++ "`"
  | .unsupported name => "`" ++ name ++ "` is packed in an unsupported way"
  | .damaged name => "the content of `" ++ name ++ "` is damaged"
  | .duplicate name => "duplicate entry `" ++ name ++ "`"
  | .tooLarge => "archive is too large"

end Fault

/-- The last `count` base-256 digits of a number, the least significant first. -/
def littleBytes : (count : Nat) → Nat → Bytes
  | 0, _ => []
  | count + 1, n => n.toUInt8 :: littleBytes count (n / 256)

/-- The number that base-256 digits spell, the least significant first. -/
def littleNat : Bytes → Nat
  | [] => 0
  | b :: rest => b.toNat + 256 * littleNat rest

/-- The characters of the bytes from 128 on in names that are not marked as UTF-8. -/
def upperHalf : List Char :=
  ("ÇüéâäàåçêëèïîìÄÅÉæÆôöòûùÿÖÜ¢£¥₧ƒáíóúñÑªº¿⌐¬½¼¡«»░▒▓│┤╡╢╖╕╣║╗╝╜╛┐" ++
   "└┴┬├─┼╞╟╚╔╩╦╠═╬╧╨╤╥╙╘╒╓╫╪┘┌█▄▌▐▀αßΓπΣσµτΦΘΩδ∞φε∩≡±≥≤⌠⌡÷≈°∙·√ⁿ²■\xa0").toList

/-- The name that bytes spell: in UTF-8 if they are marked so, else a character a byte. -/
def nameOf (marked : Bool) (bs : Bytes) : String :=
  if marked then Text.ofUtf8 bs
  else String.ofList (bs.map fun b =>
    if b < 128 then Char.ofNat b.toNat else upperHalf.getD (b.toNat - 128) '\ufffd')

/-- Whether an entry is a folder, which its name tells. -/
def Entry.isFolder (e : Entry) : Bool :=
  match e.name.toList.getLast? with
  | some c => c == '/' || c == '\\'
  | none => false

/-! ### Records of archives

An archive is made of records that start with a number which tells their kind, and whose fields
stand at fixed places.

Main definitions: `slice`, `numberAt`. -/

/-- The bytes of a file from `start` on, if there are `count`. -/
def slice (file : Array UInt8) (start count : Nat) : Option Bytes :=
  if start + count ≤ file.size then some (file.extract start (start + count)).toList else none

/-- The number of `count` bytes at `start`. -/
def numberAt (file : Array UInt8) (start count : Nat) : Option Nat :=
  (slice file start count).map littleNat

/-- The number that starts the record at the end of an archive. -/
def endMark : Nat := 0x06054b50

/-- The number that starts the record with the large numbers of the end. -/
def largeEndMark : Nat := 0x06064b50

/-- The number that starts the record which leads to the large numbers of the end. -/
def locatorMark : Nat := 0x07064b50

/-- The number that starts a record of the directory. -/
def directoryMark : Nat := 0x02014b50

/-- The number that starts the record in front of an entry's content. -/
def entryMark : Nat := 0x04034b50

/-- The first place from `start` on, of `count` places, where a number stands that fulfils a
condition there. -/
def findMark (file : Array UInt8) (mark : Nat) (fits : Nat → Bool) :
    (start count : Nat) → Option Nat
  | _, 0 => none
  | start, count + 1 =>
    if numberAt file start 4 = some mark && fits start then some start
    else findMark file mark fits (start + 1) count

/-- The greatest number that a field of 16 bits can hold. It stands for a number that is given
elsewhere. -/
def max16 : Nat := 65535

/-- The greatest number that a field of 32 bits can hold. It stands for a number that is given
elsewhere. -/
def max32 : Nat := 4294967295

end Unscramble.Zip
