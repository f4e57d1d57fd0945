import Unscramble.Packing.Stream

/-! # Range-coded repetitions

Unpacking content that was packed by replacing repetitions with references to earlier bytes and
writing the choices with a range coder: each choice has a probability that adapts to what was chosen
before, and takes the fewer bits the likelier it was.

Main definitions: `Lzma`, `Lzma.run`, `unlzma`. -/

namespace Unscramble.Packing

/-- The parameters of the model: how many high bits of the byte before, and low bits of the
position, choose the probabilities. -/
structure LzmaShape where
  /-- How many high bits of the byte before choose the probabilities of a byte. -/
  contextBits : Nat
  /-- How many low bits of the position choose the probabilities of a byte. -/
  bytePositionBits : Nat
  /-- How many low bits of the position choose the other probabilities. -/
  positionBits : Nat
deriving Repr, Inhabited

namespace LzmaShape

/-- The parameters that a byte stands for. -/
def ofByte? (b : UInt8) : Option LzmaShape :=
  let n := b.toNat
  if n < 225 then some ⟨n % 9, n / 9 % 5, n / 45⟩ else none

end LzmaShape

/-- The state of the decoder between two choices. -/
structure Lzma where
  /-- The parameters of the model. -/
  shape : LzmaShape
  /-- How likely a 0 is at each choice, of 2048. -/
  chances : Array UInt16
  /-- What the last steps were, as a number below 12. -/
  history : Nat := 0
  /-- The last four distances, the last one first. Each is one less than the distance. -/
  distances : List Nat := [0, 0, 0, 0]
  /-- How many values the coder tells apart. -/
  range : UInt32 := 0xffffffff
  /-- The value of the coder. -/
  code : UInt32 := 0
  /-- How far back a repetition can reach. -/
  reach : Nat
  /-- Where the content that repetitions can refer to starts. -/
  base : Nat := 0
deriving Inhabited

namespace Lzma

/-! ## Where the chances of each choice are kept -/

/-- Whether a repetition comes next. -/
def repetitionAt (history position : Nat) : Nat := history * 16 + position

/-- Whether a repetition has a distance that was used before. -/
def recentAt (history : Nat) : Nat := 192 + history

/-- Whether a distance that was used before is not the last one. -/
def olderAt (history : Nat) : Nat := 204 + history

/-- Whether an older distance is not the last but one. -/
def thirdAt (history : Nat) : Nat := 216 + history

/-- Whether an older distance is the oldest. -/
def fourthAt (history : Nat) : Nat := 228 + history

/-- Whether a repetition with the last distance has more than one byte. -/
def longAt (history position : Nat) : Nat := 240 + history * 16 + position

/-- The group of a distance. -/
def groupAt (length : Nat) : Nat := 432 + length * 64

/-- The lower bits of a short distance. -/
def shortAt : Nat := 688

/-- The lowest bits of a long distance. -/
def lowestAt : Nat := 803

/-- The length of a repetition with a new distance. -/
def newLengthAt : Nat := 819

/-- The length of a repetition with a distance that was used before. -/
def recentLengthAt : Nat := 1333

/-- The bits of a byte. -/
def byteAt (context : Nat) : Nat := 1847 + context * 768

/-- The chances at the start: a 0 is as likely as a 1. -/
def freshChances (shape : LzmaShape) : Array UInt16 :=
  Array.replicate (byteAt (1 <<< (shape.contextBits + shape.bytePositionBits))) 1024

/-- Forgets all that was learnt, and takes new parameters. -/
def reset (shape : LzmaShape) (d : Lzma) : Lzma :=
  { d with shape, chances := freshChances shape, history := 0, distances := [0, 0, 0, 0] }

/-- Reads a part of a stream with the range coder. -/
abbrev Decode := StateT Lzma Unpack

/-- Takes in another byte if few values can be told apart. -/
def normalize : Decode Unit := do
  if (← get).range < 0x1000000 then
    let b ← Unpack.byte
    modify fun d => { d with range := d.range <<< 8, code := (d.code <<< 8) ||| b.toUInt32 }

/-- Reads a choice with the chances at an index, and adapts them. -/
def choice (index : Nat) : Decode Nat := do
  normalize
  modifyGet fun (d : Lzma) =>
    let chance := d.chances.getD index 0
    let bound := (d.range >>> 11) * chance.toUInt32
    if d.code < bound then
      (0, { d with
        range := bound, chances := d.chances.set! index (chance + ((2048 - chance) >>> 5)) })
    else
      (1, { d with
        range := d.range - bound, code := d.code - bound,
        chances := d.chances.set! index (chance - (chance >>> 5)) })

/-- Reads `count` bits, the highest first, each with chances that depend on the bits before.
`front` is what was read so far behind a 1. -/
def treeFrom (index front : Nat) : (count : Nat) → Decode Nat
  | 0 => return front
  | count + 1 => do
    let bit ← choice (index + front)
    treeFrom index (2 * front + bit) count

/-- Reads a number of `count` bits, the highest first. -/
def tree (index count : Nat) : Decode Nat := do
  return (← treeFrom index 1 count) - 1 <<< count

/-- Reads a number of `count` bits, the lowest first. -/
def lowTree (index front : Nat) : (count : Nat) → Decode Nat
  | 0 => return 0
  | count + 1 => do
    let bit ← choice (index + front)
    return bit + 2 * (← lowTree index (2 * front + bit) count)

/-- Reads the number that `front` and `count` more bits spell, each of which is as likely 0 as 1. -/
def evenBits (front : Nat) : (count : Nat) → Decode Nat
  | 0 => return front
  | count + 1 => do
    normalize
    let bit ← modifyGet fun (d : Lzma) =>
      let range := d.range >>> 1
      if d.code < range then (0, { d with range })
      else (1, { d with range, code := d.code - range })
    evenBits (2 * front + bit) count

/-- Reads the length of a repetition, less 2. -/
def length (index position : Nat) : Decode Nat := do
  if (← choice index) = 0 then tree (index + 2 + position * 8) 3
  else if (← choice (index + 1)) = 0 then return 8 + (← tree (index + 130 + position * 8) 3)
  else return 16 + (← tree (index + 258) 8)

/-- Reads a new distance, less 1, of a repetition whose length, less 2, is known. -/
def distance (length : Nat) : Decode Nat := do
  let group ← tree (groupAt (min length 3)) 6
  if group < 4 then return group
  let count := group / 2 - 1
  let front := (2 + group % 2) <<< count
  if group < 14 then return front + (← lowTree (shortAt + front - group) 1 count)
  let middle ← evenBits 0 (count - 4)
  return front + middle * 16 + (← lowTree lowestAt 1 4)

/-- Reads the rest of a byte of which `front`, behind a 1, is known. -/
def plainByte (index front : Nat) : (count : Nat) → Decode Nat
  | 0 => return front
  | count + 1 => do
    let bit ← choice (index + front)
    plainByte index (2 * front + bit) count

/-- Reads the rest of a byte that is likely to be like `model`, up to the first bit that is not. -/
def likeByte (index front model : Nat) : (count : Nat) → Decode Nat
  | 0 => return front
  | count + 1 => do
    let expected := (model >>> count) % 2
    let bit ← choice (index + ((1 + expected) <<< 8) + front)
    let front := 2 * front + bit
    if bit = expected then likeByte index front model count
    else plainByte index front count

/-- How many bytes there are that repetitions can refer to. -/
def position : Decode Nat := do
  return (← getThe Stream).out.size - (← get).base

/-- The byte `back` places before the next one. -/
def earlier (back : Nat) : Decode Nat := do
  let out := (← getThe Stream).out
  return (out.getD (out.size - back) 0).toNat

/-- Reads a byte. After a repetition it is likely to be like the byte that would have come next. -/
def readByte : Decode Unit := do
  let position ← position
  let shape := (← get).shape
  let before ← if position = 0 then pure 0 else earlier 1
  let context := ((position % (1 <<< shape.bytePositionBits)) <<< shape.contextBits) +
    (before >>> (8 - shape.contextBits))
  let history := (← get).history
  let b ←
    if history < 7 then plainByte (byteAt context) 1 8
    else likeByte (byteAt context) 1 (← earlier ((← get).distances.headD 0 + 1)) 8
  modify fun d => { d with
    history := if history < 4 then 0 else if history < 10 then history - 3 else history - 6 }
  Unpack.emit b.toUInt8

/-- Reads which of the last four distances is used again. -/
def place (history : Nat) : Decode Nat := do
  if (← choice (olderAt history)) = 0 then return 0
  if (← choice (thirdAt history)) = 0 then return 1
  return 2 + (← choice (fourthAt history))

/-- Reads which repetition comes next and answers its length. Its distance gets the last one. -/
def readRepetition (position : Nat) : Decode Nat := do
  let history := (← get).history
  let afterByte := history < 7
  if (← choice (recentAt history)) = 0 then
    let count ← length newLengthAt position
    let new ← distance count
    modify fun d => { d with
      history := if afterByte then 7 else 10, distances := new :: d.distances.take 3 }
    return count + 2
  else
    let place ← place history
    let short ← if place = 0 then (· == 0) <$> choice (longAt history position) else pure false
    if short then
      modify fun d => { d with history := if afterByte then 9 else 11 }
      return 1
    else
      modify fun d => { d with
        history := if afterByte then 8 else 11,
        distances := d.distances.getD place 0 :: d.distances.eraseIdx place }
      return (← length recentLengthAt position) + 2

/-- Reads `remaining` bytes in at most `fuel` steps. A repetition has to fit, and to refer to bytes
within reach. -/
def readSteps : (fuel remaining : Nat) → Decode Unit
  | 0, _ => return ()
  | fuel + 1, remaining => do
    if remaining = 0 then return ()
    let position ← position
    let low := position % (1 <<< (← get).shape.positionBits)
    if (← choice (repetitionAt (← get).history low)) = 0 then
      readByte
      readSteps fuel (remaining - 1)
    else
      let count ← readRepetition low
      let back := (← get).distances.headD 0 + 1
      if remaining < count || position < back || (← get).reach < back then throw .damaged
      Unpack.copy back count
      readSteps fuel (remaining - count)

/-- Starts the coder with the next five bytes, of which the first is 0. -/
def start : Decode Unit := do
  if (← Unpack.byte) ≠ 0 then throw .damaged
  let code ← Unpack.highNat 4
  modify fun d => { d with range := 0xffffffff, code := code.toUInt32 }

/-- Starts the coder and reads `count` bytes. -/
def run (count : Nat) : Decode Unit := do
  start
  readSteps count count
  normalize

end Lzma

/-- How far back repetitions can reach where a stream asks for `size` bytes. -/
def lzmaReach (size : Nat) : Nat :=
  (max size 4096 + 15) / 16 * 16

/-- Reads a stream that starts with a version and the length of the parameters, which are five
bytes. `size` bytes are read, whether or not an end is marked behind them. -/
def readLzma (size : Nat) : Unpack Unit := do
  let _ ← Unpack.bytes 2
  if (← Unpack.lowNat 2) ≠ 5 then throw .damaged
  match LzmaShape.ofByte? (← Unpack.byte) with
  | none => throw .damaged
  | some shape =>
    let reach := lzmaReach (← Unpack.lowNat 4)
    let d : Lzma := { shape, chances := Lzma.freshChances shape, reach }
    let _ ← (Lzma.run size).run d

/-- Unpacks content of `size` bytes that was packed with a range coder. -/
def unlzma (size : Nat) (data : Array UInt8) : Option (Array UInt8) :=
  (readLzma size).whole data

end Unscramble.Packing
