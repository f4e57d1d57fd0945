import Unscramble.Packing.Zstd.Table

/-! # Literals of compressed blocks

The bytes of a block that are no repetitions. They are there as they are, or as one byte that is
repeated, or with a prefix code that is read from the end of a stream.

Main definitions: `WordTable`, `readLiterals`. -/

namespace Unscramble.Packing.Zstd

/-- A prefix code as a table: for all sequences of some bits the symbol that they start with and how
many bits it takes. -/
structure WordTable where
  /-- How many bits the longest word has. -/
  bits : Nat
  /-- The symbols and lengths. -/
  words : Array (Nat × Nat)
deriving Repr, Inhabited

/-- The longest word of a prefix code for literals. -/
def maxWordBits : Nat := 12

/-- The number of words of the greatest length that a symbol of a weight takes up. -/
def share (weight : Nat) : Nat :=
  if weight = 0 then 0 else 1 <<< (weight - 1)

/-- The code of symbols with given weights, of which the last one is left out: it takes up what the
others leave. -/
def WordTable.ofWeights? (weights : List Nat) : Option WordTable := do
  let taken := (weights.map share).foldl (· + ·) 0
  if taken = 0 then none
  let bits := taken.log2 + 1
  let left := (1 <<< bits) - taken
  let last := left.log2 + 1
  if maxWordBits < bits || left ≠ share last then none
  let all := (weights ++ [last]).zipIdx
  if (weights ++ [last]).count 1 < 2 || (weights ++ [last]).count 1 % 2 == 1 then none
  let words := (List.range bits).flatMap fun i =>
    all.flatMap fun (weight, symbol) =>
      if weight = i + 1 then List.replicate (share weight) (symbol, bits - i) else []
  return ⟨bits, words.toArray⟩

/-- The weights that two states of a finite-state code read in turn, until the stream is used up. -/
def alternate (t : StateTable) (one two : State) (b : Backward) : (fuel : Nat) → Option (List Nat)
  | 0 => none
  | fuel + 1 =>
    let (next, b) := t.next one b
    if b.left < 0 then some [one.symbol, two.symbol]
    else (alternate t two next b fuel).map (one.symbol :: ·)

/-- The most symbols that weights are given for. -/
def maxWeights : Nat := 255

/-- Reads weights that are packed with a finite-state code into `size` bytes. -/
def readPackedWeights (size : Nat) : Unpack (List Nat) := do
  let start ← Unpack.offset
  let table ← readTable 6 256
  let stop := start + size
  let offset ← Unpack.offset
  let s ← get
  if stop < offset || s.data.size < stop then throw .damaged
  set { s with position := 8 * stop }
  match Backward.ofBytes? (s.data.extract offset stop) with
  | none => throw .damaged
  | some b =>
    let (one, b) := table.start b
    let (two, b) := table.start b
    match alternate table one two b maxWeights with
    | none => throw .damaged
    | some weights => if maxWeights < weights.length then throw .damaged else return weights

/-- Reads the prefix code of literals. -/
def readWordTable : Unpack WordTable := do
  let first := (← Unpack.byte).toNat
  let weights ←
    if first < 128 then readPackedWeights first
    else
      let count := first - 127
      let bytes ← Unpack.bytes ((count + 1) / 2)
      pure ((bytes.flatMap fun b => [b.toNat / 16, b.toNat % 16]).take count)
  match WordTable.ofWeights? weights with
  | none => throw .damaged
  | some table => return table

/-- The literals of a stream, `count` in all, behind those that are `done`. The stream has to be
used up by them. -/
def wordsFrom (t : WordTable) (b : Backward) (done : Array UInt8) :
    (count : Nat) → Option (Array UInt8)
  | 0 => if b.left = 0 then some done else none
  | count + 1 =>
    let (symbol, bits) := t.words.getD (b.peek t.bits) default
    wordsFrom t (b.skip bits) (done.push symbol.toUInt8) count

/-- Reads `count` literals from a stream of `size` bytes. -/
def readWords (t : WordTable) (size count : Nat) : Unpack (Array UInt8) := do
  let start ← Unpack.offset
  let s ← get
  if s.data.size < start + size then throw .ended
  set { s with position := 8 * (start + size) }
  match Backward.ofBytes? (s.data.extract start (start + size)) with
  | none => throw .damaged
  | some b =>
    match wordsFrom t b #[] count with
    | none => throw .damaged
    | some words => return words

/-- Reads `count` literals from four streams, of `size` bytes together with the lengths of the first
three. The first three have the same number of literals. -/
def readFourStreams (t : WordTable) (size count : Nat) : Unpack (Array UInt8) := do
  let one ← Unpack.lowNat 2
  let two ← Unpack.lowNat 2
  let three ← Unpack.lowNat 2
  let quarter := (count + 3) / 4
  if size < 6 + one + two + three || count < 6 || count < 3 * quarter then throw .damaged
  let front ← readWords t one quarter
  let next ← readWords t two quarter
  let third ← readWords t three quarter
  let rest ← readWords t (size - 6 - one - two - three) (count - 3 * quarter)
  return front ++ next ++ third ++ rest

/-- The most bytes of a block. -/
def maxBlockSize : Nat := 131072

/-- Reads literals behind the first byte of their section, which tells how they are given and how
long the numbers are that follow. The answer is also the code that later literals can use. -/
def readLiteralsBy (old : Option WordTable) (kind form high : Nat) :
    Unpack (Array UInt8 × Option WordTable) := do
  if kind < 2 then
    let count ←
      if form % 2 = 0 then pure (high * 2 + form / 2)
      else if form = 1 then do pure (high + 16 * (← Unpack.lowNat 1))
      else do pure (high + 16 * (← Unpack.lowNat 2))
    if maxBlockSize < count then throw .damaged
    if kind = 0 then return ((← Unpack.bytes count).toArray, old)
    return (Array.replicate count (← Unpack.byte), old)
  else
    let width := if form < 2 then 10 else if form = 2 then 14 else 18
    let numbers := high + 16 * (← Unpack.lowNat (if form < 2 then 2 else form + 1))
    let count := numbers % (1 <<< width)
    let size := numbers >>> width
    if maxBlockSize < count then throw .damaged
    let start ← Unpack.offset
    let table ← if kind = 2 then some <$> readWordTable else pure old
    match table with
    | none => throw .damaged
    | some t =>
      let taken := (← Unpack.offset) - start
      if size < taken then throw .damaged
      let read := if form = 0 then readWords else readFourStreams
      return (← read t (size - taken) count, table)

/-- Reads the literals of a block. -/
def readLiterals (old : Option WordTable) : Unpack (Array UInt8 × Option WordTable) := do
  let first := (← Unpack.byte).toNat
  readLiteralsBy old (first % 4) (first / 4 % 4) (first / 16)

end Unscramble.Packing.Zstd
