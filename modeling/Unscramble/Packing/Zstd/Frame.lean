import Unscramble.Checksum
import Unscramble.Packing.Zstd.Sequences

/-! # Frames of compressed blocks

Unpacking content that was packed into frames, each of which has a header, blocks and perhaps a
checksum. Other frames are to be skipped.

Main definition: `unzstd`. -/

namespace Unscramble.Packing

namespace Zstd

/-- What the header of a frame tells. -/
structure FrameHeader where
  /-- How far back repetitions can reach. -/
  window : Nat
  /-- The length of the content, if it is given. -/
  size : Option Nat
  /-- Whether a checksum follows the blocks. -/
  checked : Bool
deriving Repr, Inhabited

/-- How far back repetitions of a frame may want to reach. -/
def maxWindow : Nat := 134217729

/-- Reads how far back repetitions can reach. -/
def readWindow : Unpack Nat := do
  let b := (← Unpack.byte).toNat
  let base := 1 <<< (10 + b / 8)
  return base + base / 8 * (b % 8)

/-- Reads the header of a frame. Frames that need a dictionary cannot be unpacked. -/
def readFrameHeader : Unpack FrameHeader := do
  let flags := (← Unpack.byte).toNat
  let single := flags / 32 % 2 == 1
  if flags / 8 % 2 = 1 then throw .damaged
  let window ← if single then pure none else some <$> readWindow
  let dictionary ← Unpack.lowNat ([0, 1, 2, 4].getD (flags % 4) 0)
  let size ←
    match flags / 64 with
    | 0 => if single then some <$> Unpack.lowNat 1 else pure none
    | 1 => (fun n => some (n + 256)) <$> Unpack.lowNat 2
    | 2 => some <$> Unpack.lowNat 4
    | _ => some <$> Unpack.lowNat 8
  let window := window.getD (size.getD 0)
  if dictionary ≠ 0 || maxWindow < window then throw .damaged
  return ⟨window, size, flags / 4 % 2 == 1⟩

/-- Reads a block of `size` bytes that is made of literals and sequences. -/
def readPackedBlock (m : Memory) (size : Nat) : Unpack Memory := do
  let stop := (← Unpack.offset) + size
  if (← get).data.size < stop then throw .ended
  let (literals, words) ← readLiterals m.words
  if stop < (← Unpack.offset) then throw .damaged
  readSequences { m with words } literals stop

/-- Reads at most `fuel` blocks of at most `limit` bytes each, up to the last one. -/
def readFrameBlocks (limit : Nat) (m : Memory) : (fuel : Nat) → Unpack Unit
  | 0 => throw .damaged
  | fuel + 1 => do
    let header ← Unpack.lowNat 3
    let size := header / 8
    let before := (← get).out.size
    if limit < size then throw .damaged
    let m ←
      match header / 2 % 4 with
      | 0 => do
        Unpack.take size
        pure m
      | 1 => do
        let b ← Unpack.byte
        modify fun s => { s with out := s.out ++ Array.replicate size b }
        pure m
      | 2 => readPackedBlock m size
      | _ => throw .damaged
    if limit < (← get).out.size - before then throw .damaged
    if header % 2 = 0 then readFrameBlocks limit m fuel

/-- Reads a frame behind the number that tells its kind. -/
def readFrame : Unpack Unit := do
  let header ← readFrameHeader
  let base := (← get).out.size
  readFrameBlocks (min header.window maxBlockSize) { base } ((← get).data.size + 1)
  let out := (← get).out
  if header.size.any (· ≠ out.size - base) then throw .damaged
  if header.checked then
    let sum := Checksum.xxHash (out.extract base out.size).toList
    if (← Unpack.lowNat 4) ≠ sum.toNat % 4294967296 then throw .damaged

/-- Skips `count` bytes. -/
def skipBytes (count : Nat) : Unpack Unit := do
  let stop := (← Unpack.offset) + count
  if (← get).data.size < stop then throw .ended
  modify fun s => { s with position := 8 * stop }

/-- Reads at most `fuel` frames, up to the end of the stream. There is one at least. -/
def readFrames : (fuel : Nat) → Unpack Unit
  | 0 => throw .damaged
  | fuel + 1 => do
    let kind ← Unpack.lowNat 4
    if kind = 0xfd2fb528 then readFrame
    else if kind / 16 = 0x184d2a5 then skipBytes (← Unpack.lowNat 4)
    else throw .damaged
    if (← Unpack.offset) < (← get).data.size then readFrames fuel

end Zstd

/-- Unpacks content of frames of compressed blocks. -/
def unzstd (data : Array UInt8) : Option (Array UInt8) :=
  (Zstd.readFrames (data.size + 1)).whole data

end Unscramble.Packing
