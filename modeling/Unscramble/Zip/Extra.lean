import Unscramble.Checksum
import Unscramble.Zip.Basic

/-! # Extra fields of archive entries

A record of the directory can bring extra fields: large numbers, names and comments in UTF-8, times,
and how an entry is encrypted. A field that is understood has to be well-formed.

Main definitions: `Listed`, `Listed.readExtra`. -/

namespace Unscramble.Zip

/-- What the directory tells of an entry. -/
structure Listed where
  /-- The name as it is written. -/
  written : Bytes
  /-- The name. -/
  name : String
  /-- The comment. -/
  comment : String
  /-- Whether the content is encrypted. -/
  encrypted : Bool
  /-- Whether an extra field tells how the content is encrypted. -/
  locked : Bool := false
  /-- How the content is packed. -/
  method : Nat
  /-- The checksum of the content. -/
  checksum : Nat
  /-- The length of the packed content. -/
  packedSize : Nat
  /-- The length of the content. -/
  size : Nat
  /-- Where the record in front of the content starts. -/
  start : Nat
deriving Repr, Inhabited

/-- Takes a number of `count` bytes off the front. -/
def takeNumber (count : Nat) (bs : Bytes) : Option (Nat × Bytes) :=
  if count ≤ bs.length then some (littleNat (bs.take count), bs.drop count) else none

/-- Takes `count` bytes off the front. -/
def takeBytes (count : Nat) (bs : Bytes) : Option (Bytes × Bytes) :=
  if count ≤ bs.length then some (bs.take count, bs.drop count) else none

/-- Takes a number of eight bytes off the front if `wanted`, and counts the bytes taken. Otherwise
the number stays what it is. -/
def takeLarge (wanted : Bool) (old taken : Nat) (bs : Bytes) : Option (Nat × Nat × Bytes) := do
  if wanted then
    let (n, rest) ← takeNumber 8 bs
    return (n, taken + 8, rest)
  else return (old, taken, bs)

/-- Takes a text off the front that replaces another one, of which the checksum is given. -/
def takeReplacement (length : Nat) (replaced bs : Bytes) : Option (Bytes × Bytes) := do
  let (_, rest) ← takeNumber 1 bs
  let (sum, rest) ← takeNumber 4 rest
  if length < 5 || Checksum.crc32 replaced ≠ sum then none
  takeBytes (length - 5) rest

/-- The number of bits that are set in a byte. -/
def bitCount (flags : Nat) : Nat :=
  ((List.range 8).filter fun i => (flags >>> i) % 2 == 1).length

namespace Listed

/-- Reads the large numbers that the fixed fields have no room for. A long field gives all of
them. -/
def readLarge (l : Listed) (length : Nat) (bs : Bytes) : Option (Listed × Bytes) := do
  let all : Bool := 24 ≤ length
  let (size, taken, bs) ← takeLarge (all || l.size == max32) l.size 0 bs
  let (packedSize, taken, bs) ← takeLarge (all || l.packedSize == max32) l.packedSize taken bs
  let (start, taken, bs) ← takeLarge (all || l.start == max32) l.start taken bs
  if length < taken then none
  let (_, rest) ← takeBytes (length - taken) bs
  return ({ l with size, packedSize, start }, rest)

/-- Reads three times in the one form that is understood. -/
def readTimes (l : Listed) (length : Nat) (bs : Bytes) : Option (Listed × Bytes) := do
  let (_, rest) ← takeNumber 4 bs
  let (tag, rest) ← takeNumber 2 rest
  let (size, rest) ← takeNumber 2 rest
  if length ≠ 32 || tag ≠ 1 || size ≠ 24 then none
  let (_, rest) ← takeBytes 24 rest
  return (l, rest)

/-- Reads up to three times, of which flags tell that they are there. A field of five bytes holds
the first time in any case. -/
def readStamps (l : Listed) (length : Nat) (bs : Bytes) : Option (Listed × Bytes) := do
  let (flags, rest) ← takeNumber 1 bs
  if length ≠ 5 && length ≠ 1 + 4 * bitCount flags then none
  let count := if length = 5 then 1 else bitCount (flags % 8)
  let (_, rest) ← takeBytes (4 * count) rest
  return (l, rest)

/-- Reads how the content is encrypted, and how it is packed before that. -/
def readLock (l : Listed) (length : Nat) (bs : Bytes) : Option (Listed × Bytes) := do
  let (version, rest) ← takeNumber 2 bs
  let (vendor, rest) ← takeNumber 2 rest
  let (strength, rest) ← takeNumber 1 rest
  let (method, rest) ← takeNumber 2 rest
  if length ≠ 7 || vendor ≠ 0x4541 || version < 1 || 2 < version || strength < 1 || 3 < strength
  then none
  return ({ l with locked := true, method }, rest)

/-- Reads a name in UTF-8. -/
def readName (l : Listed) (length : Nat) (bs : Bytes) : Option (Listed × Bytes) := do
  let (written, rest) ← takeReplacement length l.written bs
  let name ← Text.ofUtf8? written
  return ({ l with written, name }, rest)

/-- Reads a comment in UTF-8. -/
def readComment (l : Listed) (length : Nat) (bs : Bytes) : Option (Listed × Bytes) := do
  let (written, rest) ← takeReplacement length l.comment.toUTF8.toList bs
  let comment ← Text.ofUtf8? written
  return ({ l with comment }, rest)

/-- Reads an extra field of a kind. A kind that is not understood is skipped. -/
def readField (l : Listed) (kind length : Nat) (bs : Bytes) : Option (Listed × Bytes) :=
  match kind with
  | 0x0001 => l.readLarge length bs
  | 0x000a => l.readTimes length bs
  | 0x5455 => l.readStamps length bs
  | 0x6375 => l.readComment length bs
  | 0x7075 => l.readName length bs
  | 0x9901 => l.readLock length bs
  | _ => (takeBytes length bs).map fun (_, rest) => (l, rest)

/-- Reads at most `fuel` extra fields. A single byte at the end is no field. -/
def readFields (l : Listed) : (fuel : Nat) → Bytes → Option Listed
  | 0, _ => some l
  | fuel + 1, bs => do
    if bs.length < 2 then return l
    let (kind, rest) ← takeNumber 2 bs
    let (length, rest) ← takeNumber 2 rest
    let (l, rest) ← l.readField kind length rest
    l.readFields fuel rest

/-- Reads all extra fields. Each takes up four bytes at least. -/
def readExtra (l : Listed) (bs : Bytes) : Option Listed :=
  l.readFields bs.length bs

end Listed

end Unscramble.Zip
