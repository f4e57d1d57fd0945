import Unscramble.Checksum
import Unscramble.Packing.Lzma

/-! # Streams of checked blocks

A stream of blocks, each with a header and a checksum, between a header and an index of the blocks.
The content of a block is a sequence of chunks, which may be filtered.

Main definitions: `Check`, `unxz`. -/

namespace Unscramble.Packing

/-! ### Chunks of range-coded repetitions

A sequence of chunks, each of which is either packed with a range coder or there as it is. A chunk
tells how much of what was learnt before it still holds.

Main definition: `readChunks`. -/

/-- The parameters in chunks. Fewer combinations are allowed there. -/
def chunkShape? (b : UInt8) : Option LzmaShape := do
  let shape ← LzmaShape.ofByte? b
  if 4 < shape.contextBits + shape.bytePositionBits then none
  return shape

/-- Reads a chunk of range-coded repetitions. It has to end where it is said to end, and the coder
has to come to an end there too. -/
def readPackedChunk (control : Nat) : Lzma.Decode Unit := do
  let size := control % 32 * 65536 + (← Unpack.highNat 2) + 1
  let packedSize := (← Unpack.highNat 2) + 1
  if 0xc0 ≤ control then
    match chunkShape? (← Unpack.byte) with
    | none => throw .damaged
    | some shape => modify (·.reset shape)
  else if 0xa0 ≤ control then modify fun d => d.reset d.shape
  let start ← Unpack.offset
  Lzma.run size
  if (← Unpack.offset) ≠ start + packedSize || (← get).code ≠ 0 then throw .damaged

/-- Reads at most `fuel` chunks. The first one has to forget the content before it, and the first
packed one after that has to bring parameters. -/
def readChunksFrom (fresh shaped : Bool) : (fuel : Nat) → Lzma.Decode Unit
  | 0 => throw .damaged
  | fuel + 1 => do
    let control := (← Unpack.byte).toNat
    if control = 0 then return ()
    let forgets : Bool := 0xe0 ≤ control || control == 1
    if !forgets && !fresh then throw .damaged
    if forgets then
      let base := (← getThe Stream).out.size
      modify fun d => { d with base }
    let shaped := shaped && !forgets
    if 0x80 ≤ control then
      if control < 0xc0 && !shaped then throw .damaged
      readPackedChunk control
      readChunksFrom true true fuel
    else if control ≤ 2 then
      Unpack.take ((← Unpack.highNat 2) + 1)
      readChunksFrom true shaped fuel
    else throw .damaged

/-- Reads a sequence of chunks in which repetitions reach back `reach` bytes. -/
def readChunks (reach : Nat) : Unpack Unit := do
  let shape : LzmaShape := ⟨0, 0, 0⟩
  let fuel := (← get).data.size + 1
  let _ ← (readChunksFrom false false fuel).run { shape, chances := #[], reach }

/-! ### Streams of checked blocks -/

/-- How the content of blocks is checked. -/
inductive Check where
  /-- Not at all. -/
  | none
  /-- By a cyclic redundancy check of 32 bits. -/
  | crc32
  /-- By a cyclic redundancy check of 64 bits. -/
  | crc64
  /-- By SHA-256. -/
  | sha256
deriving DecidableEq, Repr, Inhabited

/-- The bytes of a number, the lowest first. -/
def lowBytes (count n : Nat) : List UInt8 :=
  (List.range count).map fun i => (n >>> (8 * i)).toUInt8

namespace Check

/-- The check that has a number. -/
def ofNumber? : Nat → Option Check
  | 0 => some .none
  | 1 => some .crc32
  | 4 => some .crc64
  | 10 => some .sha256
  | _ => Option.none

/-- The checksum of some content. -/
def sum (c : Check) (bs : List UInt8) : List UInt8 :=
  match c with
  | .none => []
  | .crc32 => lowBytes 4 (Checksum.crc32 bs)
  | .crc64 => lowBytes 8 (Checksum.crc64 bs)
  | .sha256 => Checksum.sha256 bs

/-- The length of a checksum. -/
def size : Check → Nat
  | .none => 0
  | .crc32 => 4
  | .crc64 => 8
  | .sha256 => 32

end Check

/-- Takes a number off the front of bytes: seven bits in each byte, the lowest first, and the
highest bit set in all but the last. There are at most `count` bytes. -/
def takeVarNat : (count : Nat) → List UInt8 → Option (Nat × List UInt8)
  | 0, _ => none
  | _ + 1, [] => none
  | count + 1, b :: rest => do
    if b < 0x80 then return (b.toNat, rest)
    let (high, rest) ← takeVarNat count rest
    return (b.toNat % 128 + 128 * high, rest)

/-- The most bytes of a number. -/
def maxVarBytes : Nat := 9

/-- Reads such a number. -/
def readVarNat : (count : Nat) → Unpack Nat
  | 0 => throw .damaged
  | count + 1 => do
    let b ← Unpack.byte
    if b < 0x80 then return b.toNat
    return b.toNat % 128 + 128 * (← readVarNat count)

/-- Reads zeros up to the next offset that is a multiple of four. -/
def readPadding : Unpack Unit := do
  let padding ← Unpack.bytes ((4 - (← Unpack.offset) % 4) % 4)
  if padding.any (· != 0) then throw .damaged

/-- The bytes of the stream between two offsets. -/
def between (start stop : Nat) : Unpack (List UInt8) := do
  return ((← get).data.extract start stop).toList

/-- Reads the checksum of the bytes from an offset on. -/
def readSumFrom (start : Nat) : Unpack Unit := do
  let sum := Checksum.crc32 (← between start (← Unpack.offset))
  if (← Unpack.lowNat 4) ≠ sum then throw .damaged

/-- What the header of a block tells: how far back repetitions reach, the distances of the filters
that were applied, the last one first, and the sizes that it gives. -/
structure BlockHeader where
  /-- How far back repetitions reach. -/
  reach : Nat
  /-- The distances between the bytes of which differences were taken. -/
  differences : List Nat
  /-- The length of the packed content, if it is given. -/
  packedSize : Option Nat
  /-- The length of the content, if it is given. -/
  size : Option Nat
deriving Repr, Inhabited

/-- How far back repetitions reach, from its code. -/
def reachOf (code : Nat) : Nat :=
  if code = 40 then 4294967295 else (2 + code % 2) <<< (code / 2 + 11)

/-- Takes filters off the front of a header. The last one is the packing itself, and the others take
differences of bytes. -/
def takeFilters (differences : List Nat) : (count : Nat) → List UInt8 →
    Option (Nat × List Nat × List UInt8)
  | 0, _ => none
  | count + 1, bs => do
    let (kind, bs) ← takeVarNat maxVarBytes bs
    let (size, bs) ← takeVarNat maxVarBytes bs
    match bs with
    | [] => none
    | parameter :: rest =>
      if size ≠ 1 then none
      else if kind = 0x21 && count == 0 then
        if 40 < parameter then none
        return (reachOf parameter.toNat, differences, rest)
      else if kind = 3 then takeFilters ((parameter.toNat + 1) :: differences) count rest
      else none

/-- Takes a size off the front of a header if it is there. -/
def takeSize (present : Bool) (bs : List UInt8) : Option (Option Nat × List UInt8) := do
  if present then
    let (size, bs) ← takeVarNat maxVarBytes bs
    return (some size, bs)
  else return (none, bs)

/-- The header of a block. What fills it up is zeros. -/
def blockHeader? : List UInt8 → Option BlockHeader
  | [] => none
  | flags :: bs => do
    if flags &&& 0x3c ≠ 0 then none
    let (packedSize, bs) ← takeSize (flags &&& 0x40 != 0) bs
    let (size, bs) ← takeSize (flags &&& 0x80 != 0) bs
    let (reach, differences, rest) ← takeFilters [] (flags.toNat % 4 + 1) bs
    if rest.any (· != 0) then none
    return ⟨reach, differences, packedSize, size⟩

/-- Undoes that each byte from `start` on was replaced by its difference from the one `distance`
places before it. -/
def undoDifferences (start distance : Nat) (out : Array UInt8) : Array UInt8 :=
  (List.range (out.size - start)).foldl
    (fun out i =>
      if i < distance then out
      else out.modify (start + i) (· + out.getD (start + i - distance) 0)) out

/-- Reads a block behind the byte that tells how long its header is. The answer is what the index
has to say of it: its length without padding and the length of its content. -/
def readCheckedBlock (check : Check) (headerSize : Nat) : Unpack (Nat × Nat) := do
  let begins := (← Unpack.offset) - 1
  let content ← Unpack.bytes (headerSize - 5)
  readSumFrom begins
  match blockHeader? content with
  | none => throw .damaged
  | some header =>
    let start ← Unpack.offset
    let base := (← get).out.size
    readChunks header.reach
    let undo := fun out distance => undoDifferences base distance out
    modify fun s => { s with out := header.differences.foldl undo s.out }
    let packedSize := (← Unpack.offset) - start
    let size := (← get).out.size - base
    if header.packedSize.any (· ≠ packedSize) || header.size.any (· ≠ size) then throw .damaged
    readPadding
    let out := (← get).out
    if (← Unpack.bytes check.size) ≠ check.sum (out.extract base out.size).toList then
      throw .damaged
    return (headerSize + packedSize + check.size, size)

/-- Reads the index behind the byte that tells it from a block, and answers its length. It lists the
blocks. -/
def readIndex (blocks : List (Nat × Nat)) : Unpack Nat := do
  let start := (← Unpack.offset) - 1
  if (← readVarNat maxVarBytes) ≠ blocks.length then throw .damaged
  blocks.forM fun (whole, size) => do
    if (← readVarNat maxVarBytes) ≠ whole || (← readVarNat maxVarBytes) ≠ size then throw .damaged
  readPadding
  readSumFrom start
  return (← Unpack.offset) - start

/-- Reads at most `fuel` blocks and the index, of which it answers the length. `blocks` were read so
far, last first. -/
def readCheckedBlocks (check : Check) (blocks : List (Nat × Nat)) : (fuel : Nat) → Unpack Nat
  | 0 => throw .damaged
  | fuel + 1 => do
    let first := (← Unpack.byte).toNat
    if first = 0 then readIndex blocks.reverse
    else
      let block ← readCheckedBlock check (4 * (first + 1))
      readCheckedBlocks check (block :: blocks) fuel

/-- Reads a stream of checked blocks. What stands behind its end is left. -/
def readCheckedStream : Unpack Unit := do
  if (← Unpack.bytes 6) ≠ [0xfd, 0x37, 0x7a, 0x58, 0x5a, 0x00] then throw .damaged
  let flags ← Unpack.bytes 2
  readSumFrom 6
  match flags with
  | [0, number] =>
    match Check.ofNumber? number.toNat with
    | none => throw .damaged
    | some check =>
      let indexSize ← readCheckedBlocks check [] ((← get).data.size + 1)
      let sum ← Unpack.lowNat 4
      let size ← Unpack.lowNat 4
      let again ← Unpack.bytes 2
      if Checksum.crc32 (lowBytes 4 size ++ again) ≠ sum || again ≠ flags ||
          4 * (size + 1) ≠ indexSize || (← Unpack.bytes 2) ≠ [0x59, 0x5a] then
        throw .damaged
  | _ => throw .damaged

/-- Unpacks content of checked blocks. -/
def unxz (data : Array UInt8) : Option (Array UInt8) :=
  readCheckedStream.whole data

end Unscramble.Packing
