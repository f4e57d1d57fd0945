import Unscramble.Packing.Zstd.Literals

/-! # Sequences of compressed blocks

A block is a list of sequences: some literals and then a repetition. The numbers of a sequence are
written with three finite-state codes, from the end of a stream towards its start.

Main definitions: `Memory`, `readSequences`. -/

namespace Unscramble.Packing.Zstd

/-- What a block can use of the blocks before it. -/
structure Memory where
  /-- The prefix code of literals. -/
  words : Option WordTable := none
  /-- The code of the numbers of literals. -/
  counts : Option StateTable := none
  /-- The code of distances. -/
  distances : Option StateTable := none
  /-- The code of the lengths of repetitions. -/
  lengths : Option StateTable := none
  /-- The last three distances, the last one first. -/
  recent : List Nat := [1, 4, 8]
  /-- Where the content that repetitions can refer to starts. -/
  base : Nat
deriving Inhabited

/-- How the numbers of one kind are coded. -/
structure Coding where
  /-- How many symbols there are. -/
  symbols : Nat
  /-- The most bits of a state. -/
  maxBits : Nat
  /-- The bits of a state of the code that is used when none is given. -/
  bits : Nat
  /-- The counts of states of that code. -/
  standard : List Int

/-- How the numbers of literals are coded. -/
def countCoding : Coding :=
  ⟨36, 9, 6, [4, 3, 2, 2, 2, 2, 2, 2, 2, 2, 2, 2, 2, 1, 1, 1, 2, 2, 2, 2, 2, 2, 2, 2, 2, 3, 2, 1, 1,
    1, 1, 1, -1, -1, -1, -1]⟩

/-- How distances are coded. -/
def distanceCoding : Coding :=
  ⟨32, 8, 5, [1, 1, 1, 1, 1, 1, 2, 2, 2, 1, 1, 1, 1, 1, 1, 1, 1, 1, 1, 1, 1, 1, 1, 1, -1, -1, -1,
    -1, -1]⟩

/-- How the lengths of repetitions are coded. -/
def lengthCoding : Coding :=
  ⟨53, 9, 6, [1, 4, 3, 2, 2, 2, 2, 2, 2, 1, 1, 1, 1, 1, 1, 1, 1, 1, 1, 1, 1, 1, 1, 1, 1, 1, 1, 1, 1,
    1, 1, 1, 1, 1, 1, 1, 1, 1, 1, 1, 1, 1, 1, 1, 1, 1, -1, -1, -1, -1, -1, -1, -1]⟩

/-- The groups of numbers of literals from 16 on: the least number, and how many bits tell it. -/
def countGroups : List (Nat × Nat) :=
  [(16, 1), (18, 1), (20, 1), (22, 1), (24, 2), (28, 2), (32, 3), (40, 3), (48, 4), (64, 6),
   (128, 7), (256, 8), (512, 9), (1024, 10), (2048, 11), (4096, 12), (8192, 13), (16384, 14),
   (32768, 15), (65536, 16)]

/-- The groups of lengths of repetitions from 35 on: the least length, and how many bits tell it. -/
def lengthGroups : List (Nat × Nat) :=
  [(35, 1), (37, 1), (39, 1), (41, 1), (43, 2), (47, 2), (51, 3), (59, 3), (67, 4), (83, 4),
   (99, 5), (131, 7), (259, 8), (515, 9), (1027, 10), (2051, 11), (4099, 12), (8195, 13),
   (16387, 14), (32771, 15), (65539, 16)]

/-- The least number that a symbol stands for, and how many bits tell it. The first symbols stand
for one number each, from `least` on. -/
def groupOf (groups : List (Nat × Nat)) (single least symbol : Nat) : Nat × Nat :=
  if symbol < single then (symbol + least, 0) else groups.getD (symbol - single) (0, 0)

/-- Reads a code for numbers of one kind: the standard one, one symbol, a code that is given, or the
code of the block before. -/
def readCoding (coding : Coding) (old : Option StateTable) (mode : Nat) : Unpack StateTable := do
  match mode with
  | 0 => return .ofCounts coding.bits coding.standard
  | 1 =>
    let symbol := (← Unpack.byte).toNat
    if coding.symbols ≤ symbol then throw .damaged
    return .single symbol
  | 2 => readTable coding.maxBits coding.symbols
  | _ =>
    match old with
    | none => throw .damaged
    | some table => return table

/-- The distance that a number stands for, and the last three distances after it. Numbers up to 3
stand for one of those, or for one less than the last one. -/
def distanceOf (recent : List Nat) (number count : Nat) : Nat × List Nat :=
  let last := recent.headD 0
  if 3 < number then (number - 3, (number - 3) :: recent.take 2)
  else
    let place := number - 1 + (if count = 0 then 1 else 0)
    if place = 3 then (last - 1, (last - 1) :: recent.take 2)
    else
      let distance := recent.getD place 0
      (distance, distance :: recent.eraseIdx place)

/-- The three states that a sequence is read with. -/
structure States where
  /-- The state for the number of literals. -/
  count : State
  /-- The state for the distance. -/
  distance : State
  /-- The state for the length of the repetition. -/
  length : State

/-- The three codes of a block. -/
structure Codes where
  /-- The code of the numbers of literals. -/
  counts : StateTable
  /-- The code of distances. -/
  distances : StateTable
  /-- The code of the lengths of repetitions. -/
  lengths : StateTable

/-- The states behind those of a sequence. -/
def Codes.next (c : Codes) (s : States) (b : Backward) : States × Backward :=
  let (count, b) := c.counts.next s.count b
  let (length, b) := c.lengths.next s.length b
  let (distance, b) := c.distances.next s.distance b
  (⟨count, distance, length⟩, b)

/-- Carries out `number` sequences, with literals from `place` on. The answer is the last three
distances and where the literals that are left start. -/
def runSequences (codes : Codes) (literals : Array UInt8) (base : Nat) (states : States)
    (b : Backward) (recent : List Nat) (place : Nat) : (number : Nat) → Unpack (List Nat × Nat)
  | 0 => if b.left = 0 then return (recent, place) else throw .damaged
  | number + 1 => do
    let (low, b) := b.read states.distance.symbol
    let (least, bits) := groupOf lengthGroups 32 3 states.length.symbol
    let (more, b) := b.read bits
    let length := least + more
    let (least, bits) := groupOf countGroups 16 0 states.count.symbol
    let (more, b) := b.read bits
    let count := least + more
    let (distance, recent) := distanceOf recent ((1 <<< states.distance.symbol) + low) count
    let stop := place + count
    let produced := (← get).out.size + count - base
    if literals.size < stop || distance = 0 || produced < distance then throw .damaged
    modify fun s => { s with out := s.out ++ literals.extract place stop }
    Unpack.copy distance length
    let (states, b) := if number = 0 then (states, b) else codes.next states b
    runSequences codes literals base states b recent stop number

/-- Reads how many sequences there are. -/
def readSequenceCount : Unpack Nat := do
  let first := (← Unpack.byte).toNat
  if first < 128 then return first
  if first < 255 then return (first - 128) * 256 + (← Unpack.byte).toNat
  return (← Unpack.lowNat 2) + 0x7f00

/-- Reads the sequences of a block that ends at `stop`, and appends what they and the literals that
are left stand for. -/
def readSequences (m : Memory) (literals : Array UInt8) (stop : Nat) : Unpack Memory := do
  let number ← readSequenceCount
  if number = 0 then
    if (← Unpack.offset) ≠ stop then throw .damaged
    modify fun s => { s with out := s.out ++ literals }
    return m
  let modes := (← Unpack.byte).toNat
  if modes % 4 ≠ 0 then throw .damaged
  let counts ← readCoding countCoding m.counts (modes / 64)
  let distances ← readCoding distanceCoding m.distances (modes / 16 % 4)
  let lengths ← readCoding lengthCoding m.lengths (modes / 4 % 4)
  let start ← Unpack.offset
  if stop < start then throw .damaged
  match Backward.ofBytes? ((← get).data.extract start stop) with
  | none => throw .damaged
  | some b =>
    let (count, b) := counts.start b
    let (distance, b) := distances.start b
    let (length, b) := lengths.start b
    let (recent, place) ← runSequences ⟨counts, distances, lengths⟩ literals m.base
      ⟨count, distance, length⟩ b m.recent 0 number
    modify fun s => { s with
      position := 8 * stop, out := s.out ++ literals.extract place literals.size }
    return { m with counts, distances, lengths, recent }

end Unscramble.Packing.Zstd
