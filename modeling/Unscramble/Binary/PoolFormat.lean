import Unscramble.Binary.Pool
import Unscramble.Binary.Reader

/-! # Encoded pools

How a constant pool stands in a class file: the number of its slots and then its entries, each
behind a tag. A text that does not encode to the bytes it was read from is written with these bytes
again.

Main definitions: `Pool.read`, `Pool.bytes`. -/

namespace Unscramble.Binary

/-- An entry takes at least one slot. -/
theorem Entry.slots_pos (e : Entry) : 0 < e.slots := by
  unfold Entry.slots
  split <;> decide

namespace Pool

open Reader

/-- Reads a text. -/
def readText : Reader PoolSlot := do
  let bs ← bytes (← u16).toNat
  let text := ModifiedUtf8.decode bs
  return ⟨.utf8 text, if ModifiedUtf8.encode text = bs then none else some bs⟩

/-- Reads an entry behind its tag. -/
def readEntry (tag : UInt8) (index : UInt16) : Reader Entry := do
  match tag with
  | 3 => return .int (← i32)
  | 4 => return .float (← u32)
  | 5 => return .long (← i64)
  | 6 => return .double (← u64)
  | 7 => return .ofClass (← u16)
  | 8 => return .string (← u16)
  | 9 => return .member .field (← u16) (← u16)
  | 10 => return .member .method (← u16) (← u16)
  | 11 => return .member .interfaceMethod (← u16) (← u16)
  | 12 => return .nameAndType (← u16) (← u16)
  | 15 => return .methodHandle (← u8) (← u16)
  | 16 => return .methodType (← u16)
  | 17 => return .dynamic (← u16) (← u16)
  | 18 => return .invokeDynamic (← u16) (← u16)
  | 19 => return .ofModule (← u16)
  | 20 => return .ofPackage (← u16)
  | tag => fail (.badTag tag index)

/-- Reads the slot at an index. -/
def readSlot (index : UInt16) : Reader PoolSlot := do
  let tag ← u8
  if tag = 1 then readText else return ⟨← readEntry tag index, none⟩

/-- The index behind a slot, unless the addition overflows. -/
def following? (index : UInt16) : Option UInt16 :=
  if index = 65535 then none else some (index + 1)

/-- The index behind an entry: it goes up by one for the entry, and once more for the slot behind a
64-bit number. -/
def indexBehind? (index : UInt16) (e : Entry) : Option UInt16 :=
  if e.isWide then (following? index).bind following? else following? index

/-- The index that follows is the next number. -/
theorem following?_eq_some_iff {index next : UInt16} :
    following? index = some next ↔ next.toNat = index.toNat + 1 := by
  have hnext := next.toNat_lt
  rw [following?]
  split
  · next hlast =>
    subst hlast
    simp only [reduceCtorEq, UInt16.reduceToNat, false_iff]
    omega
  · next hlast =>
    have hindex := index.toNat_lt
    have hlast : index.toNat ≠ 65535 := fun heq => hlast (UInt16.toNat_inj.1 heq)
    have hsum : (index + 1).toNat = index.toNat + 1 := by
      show (index.toNat + 1) % 65536 = index.toNat + 1
      exact Nat.mod_eq_of_lt (by omega)
    rw [Option.some_inj, ← UInt16.toNat_inj, hsum, eq_comm]

/-- The index behind an entry is higher by its slots. -/
theorem indexBehind?_eq_some_iff {index next : UInt16} {e : Entry} :
    indexBehind? index e = some next ↔ next.toNat = index.toNat + e.slots := by
  rw [indexBehind?, Entry.slots]
  split
  · rw [Option.bind_eq_some_iff]
    simp only [following?_eq_some_iff]
    constructor
    · rintro ⟨i, hi, hnext⟩
      omega
    · intro hnext
      have hlt := next.toNat_lt
      have hi : (UInt16.ofNat (index.toNat + 1)).toNat = index.toNat + 1 :=
        UInt16.toNat_ofNat_of_lt' (by show _ < 65536; omega)
      exact ⟨_, hi, by omega⟩
  · exact following?_eq_some_iff

/-- Reads the slots from `index` up to `count`. -/
def readFrom (count index : UInt16) (p : Pool) : Reader Pool :=
  if _h : index < count then do
    let slot ← readSlot index
    match _hnext : indexBehind? index slot.entry with
    | none => fail .overflow
    | some next => readFrom count next (p.append slot)
  else return p
termination_by count.toNat - index.toNat
decreasing_by
  have hcount : index.toNat < count.toNat := UInt16.lt_iff_toNat_lt.1 ‹_›
  have hpos := slot.entry.slots_pos
  have hslots := indexBehind?_eq_some_iff.1 _hnext
  omega

/-- Reads a pool. -/
def read : Reader Pool := do
  readFrom (← u16) 1 empty

/-- A tag with a 16-bit word behind it. -/
def tagged (tag : UInt8) (word : UInt16) : Bytes :=
  byte tag ++ word16 word

/-- A tag with two 16-bit words behind it. -/
def taggedPair (tag : UInt8) (first second : UInt16) : Bytes :=
  byte tag ++ word16 first ++ word16 second

/-- The tag of a kind of member reference. -/
def kindTag : MemberKind → UInt8
  | .field => 9
  | .method => 10
  | .interfaceMethod => 11

/-- The bytes of a slot. A slot that cannot be used has none. -/
def slotBytes (slot : PoolSlot) : Bytes :=
  match slot.entry with
  | .unusable => []
  | .utf8 text =>
    let bs := slot.verbatim.getD (ModifiedUtf8.encode text)
    byte 1 ++ count16 bs.length ++ bs
  | .int v => byte 3 ++ word32 v.toUInt32
  | .float bits => byte 4 ++ word32 bits
  | .long v => byte 5 ++ word64 v.toUInt64
  | .double bits => byte 6 ++ word64 bits
  | .ofClass name => tagged 7 name
  | .string text => tagged 8 text
  | .member kind owner nameAndType => taggedPair (kindTag kind) owner nameAndType
  | .nameAndType name descriptor => taggedPair 12 name descriptor
  | .methodHandle kind reference => byte 15 ++ byte kind ++ word16 reference
  | .methodType descriptor => tagged 16 descriptor
  | .dynamic bootstrap nameAndType => taggedPair 17 bootstrap nameAndType
  | .invokeDynamic bootstrap nameAndType => taggedPair 18 bootstrap nameAndType
  | .ofModule name => tagged 19 name
  | .ofPackage name => tagged 20 name

/-- The bytes of a pool. -/
def bytes (p : Pool) : Bytes :=
  count16 p.size ++ p.slots.toList.flatMap slotBytes

end Pool

end Unscramble.Binary
