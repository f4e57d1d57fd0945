import Unscramble.Binary.Malformation
import Unscramble.Body

/-! # Reading bytes

A reader takes bytes off the front of its input, knows how many it has taken, and fails when they
run out. -/

namespace Unscramble.Binary

/-! ### Big-endian words

Words of a class file, most significant byte first. -/

/-- The natural number that a list of bytes spells. -/
def natOfBytes (bs : Bytes) : Nat :=
  bs.foldl (fun n b => n * 256 + b.toNat) 0

/-- The last `count` base-256 digits of a number. -/
def bytesOfNat : (count : Nat) → Nat → Bytes
  | 0, _ => []
  | count + 1, n => bytesOfNat count (n / 256) ++ [n.toUInt8]

/-- A byte on its own. -/
def byte (b : UInt8) : Bytes := [b]

/-- A 16-bit word. -/
def word16 (n : UInt16) : Bytes := bytesOfNat 2 n.toNat

/-- A 32-bit word. -/
def word32 (n : UInt32) : Bytes := bytesOfNat 4 n.toNat

/-- A 64-bit word. -/
def word64 (n : UInt64) : Bytes := bytesOfNat 8 n.toNat

/-- A count as a 16-bit word. -/
def count16 (n : Nat) : Bytes := word16 n.toUInt16

/-- A count as a 32-bit word. -/
def count32 (n : Nat) : Bytes := word32 n.toUInt32

/-- A signed 16-bit word. -/
def signed16 (n : Int) : Bytes := word16 (Int16.ofInt n).toUInt16

/-- A signed 32-bit word. -/
def signed32 (n : Int) : Bytes := word32 (Int32.ofInt n).toUInt32

/-! ### Reading bytes -/

/-- An input under way. -/
structure Cursor where
  /-- The bytes that are left. -/
  rest : Bytes
  /-- How many bytes were taken. -/
  position : Nat := 0
deriving Repr, Inhabited

/-- Takes bytes off the front of the input. -/
abbrev Reader := StateT Cursor (Except Malformation)

namespace Reader

/-- Fails with a cause. -/
def fail {α : Type} (cause : Malformation) : Reader α :=
  fun _ => .error cause

/-- The next `count` bytes. -/
def bytes (count : Nat) : Reader Bytes := fun c =>
  let (front, rest) := c.rest.splitAt count
  if front.length = count then .ok (front, ⟨rest, c.position + count⟩) else .error .truncated

/-- The next byte. -/
def u8 : Reader UInt8 := fun c =>
  match c.rest with
  | [] => .error .truncated
  | b :: rest => .ok (b, ⟨rest, c.position + 1⟩)

/-- The next 16-bit word. -/
def u16 : Reader UInt16 := do
  return (natOfBytes (← bytes 2)).toUInt16

/-- The next 32-bit word. -/
def u32 : Reader UInt32 := do
  return (natOfBytes (← bytes 4)).toUInt32

/-- The next 64-bit word. -/
def u64 : Reader UInt64 := do
  return (natOfBytes (← bytes 8)).toUInt64

/-- The next byte as a signed number. -/
def i8 : Reader Int8 := do
  return (← u8).toInt8

/-- The next 16-bit word as a signed number. -/
def i16 : Reader Int16 := do
  return (← u16).toInt16

/-- The next 32-bit word as a signed number. -/
def i32 : Reader Int32 := do
  return (← u32).toInt32

/-- The next 64-bit word as a signed number. -/
def i64 : Reader Int64 := do
  return (← u64).toInt64

/-- Whether the input is used up. -/
def atEnd : Reader Bool := fun c =>
  .ok (c.rest.isEmpty, c)

/-- How many bytes were taken. -/
def position : Reader Nat := fun c =>
  .ok (c.position, c)

/-- Reads `count` items one after the other, in front of which `done` were read, last first. -/
def manyFrom {α : Type} (item : Reader α) (done : List α) : Nat → Reader (List α)
  | 0 => return done.reverse
  | count + 1 => do
    let a ← item
    manyFrom item (a :: done) count

/-- Reads `count` items one after the other. -/
def many {α : Type} (count : Nat) (item : Reader α) : Reader (List α) :=
  manyFrom item [] count

/-- Reads a 16-bit count and then that many items. -/
def counted {α : Type} (item : Reader α) : Reader (List α) := do
  many (← u16).toNat item

/-- The answer of a reader on an input of its own, of which it may leave a part. -/
def on {α : Type} (r : Reader α) (input : Bytes) : Except Malformation α :=
  (·.1) <$> r.run ⟨input, 0⟩

/-- Continues with an answer, or fails with its cause. -/
def require {α : Type} : Except Malformation α → Reader α
  | .ok a => pure a
  | .error cause => fail cause

/-- Reads an index and then what stands there. -/
def indexed {α : Type} (look : UInt16 → Except Malformation α) : Reader α := do
  require (look (← u16))

/-- Reads an index and then what stands there, if it is not 0. -/
def indexed? {α : Type} (look : UInt16 → Except Malformation α) : Reader (Option α) := do
  let i ← u16
  if i = 0 then return none
  some <$> require (look i)

end Reader

end Unscramble.Binary
