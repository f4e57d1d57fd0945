import Unscramble.Packing.Stream

/-! # Inflating

Unpacking content that was packed by replacing repetitions with references to earlier bytes and
writing the result with prefix codes. The packed content is a sequence of bits, the low bits of each
byte first, cut into blocks. There are two dialects, which differ in how far and how long a
repetition can be.

Main definitions: `Dialect`, `inflate`, `inflateWide`. -/

namespace Unscramble.Packing

/-- What differs between streams of repetitions. -/
structure Dialect where
  /-- The least length of each group of repetition lengths, and how many more bits tell the length.
  -/
  lengths : List (Nat × Nat)
  /-- The least distance of each group of distances, and how many more bits tell the distance. -/
  distances : List (Nat × Nat)
  /-- Whether codes have to use up all words and name no group that does not exist, and whether
  repetitions have to stay within the content. -/
  strict : Bool

namespace Dialect

/-- The groups of lengths that both dialects have. -/
def commonLengths : List (Nat × Nat) :=
  [(3, 0), (4, 0), (5, 0), (6, 0), (7, 0), (8, 0), (9, 0), (10, 0), (11, 1), (13, 1), (15, 1),
   (17, 1), (19, 2), (23, 2), (27, 2), (31, 2), (35, 3), (43, 3), (51, 3), (59, 3), (67, 4),
   (83, 4), (99, 4), (115, 4), (131, 5), (163, 5), (195, 5), (227, 5)]

/-- The groups of distances that both dialects have. -/
def commonDistances : List (Nat × Nat) :=
  [(1, 0), (2, 0), (3, 0), (4, 0), (5, 1), (7, 1), (9, 2), (13, 2), (17, 3), (25, 3), (33, 4),
   (49, 4), (65, 5), (97, 5), (129, 6), (193, 6), (257, 7), (385, 7), (513, 8), (769, 8), (1025, 9),
   (1537, 9), (2049, 10), (3073, 10), (4097, 11), (6145, 11), (8193, 12), (12289, 12), (16385, 13),
   (24577, 13)]

/-- Repetitions of up to 258 bytes, up to 32768 bytes back. -/
def narrow : Dialect :=
  ⟨commonLengths ++ [(258, 0)], commonDistances, true⟩

/-- Repetitions of up to 65538 bytes, up to 65536 bytes back. -/
def wide : Dialect :=
  ⟨commonLengths ++ [(3, 16)], commonDistances ++ [(32769, 14), (49153, 14)], false⟩

end Dialect

/-- Reads what is left of a number of which the group is known. -/
def readInGroup (groups : List (Nat × Nat)) (group : Nat) : Unpack Nat := do
  match groups[group]? with
  | none => throw .damaged
  | some (least, count) => return least + (← Unpack.lowBits count)

/-- Appends a repetition. Unless that is forbidden, bytes in front of the content count as 0. -/
def repeatEarlier (dialect : Dialect) (distance length : Nat) : Unpack Unit := do
  let missing := min length (distance - (← get).out.size)
  if missing = 0 then Unpack.copy distance length
  else if dialect.strict then throw .damaged
  else
    (List.replicate missing 0).forM Unpack.emit
    if missing < length then Unpack.copy distance (length - missing)

/-- Reads at most `fuel` bytes and repetitions, up to the end of a block. -/
def readSymbols (dialect : Dialect) (literals distances : PrefixCode) : (fuel : Nat) → Unpack Unit
  | 0 => throw .damaged
  | fuel + 1 => do
    let symbol ← literals.read Unpack.lowBit
    if symbol = 256 then return ()
    if symbol < 256 then Unpack.emit symbol.toUInt8
    else
      let length ← readInGroup dialect.lengths (symbol - 257)
      let group ← distances.read Unpack.lowBit
      let distance ← readInGroup dialect.distances group
      repeatEarlier dialect distance length
    readSymbols dialect literals distances fuel

/-- The code for bytes and lengths of blocks that bring no code of their own. -/
def fixedLiterals : PrefixCode :=
  .ofLengths (List.replicate 144 8 ++ List.replicate 112 9 ++ List.replicate 24 7 ++
    List.replicate 8 8)

/-- The code for distances of blocks that bring no code of their own. -/
def fixedDistances : PrefixCode :=
  .ofLengths (List.replicate 32 5)

/-- The order in which the lengths of the code for code lengths are given. -/
def lengthOrder : List Nat :=
  [16, 17, 18, 0, 8, 7, 9, 6, 10, 5, 11, 4, 12, 3, 13, 2, 14, 1, 15]

/-- Reads code lengths, `wanted` in all, of which `done` are read, last first. A length above 15
says that an earlier length, or 0, is repeated. -/
def readLengths (code : PrefixCode) (wanted : Nat) (done : List Nat) :
    (fuel : Nat) → Unpack (List Nat)
  | 0 => throw .damaged
  | fuel + 1 => do
    if wanted ≤ done.length then
      if done.length = wanted then return done.reverse else throw .damaged
    let symbol ← code.read Unpack.lowBit
    if symbol < 16 then readLengths code wanted (symbol :: done) fuel
    else if symbol = 16 then
      let more ← Unpack.lowBits 2
      match done.head? with
      | none => throw .damaged
      | some last => readLengths code wanted (List.replicate (3 + more) last ++ done) fuel
    else
      let more ← if symbol = 17 then Unpack.lowBits 3 else (· + 8) <$> Unpack.lowBits 7
      readLengths code wanted (List.replicate (3 + more) 0 ++ done) fuel

/-- The code with given lengths, if it can be used: its words can be told apart and, where that is
asked for, use up all words. -/
def usable (strict loneAllowed : Bool) (lengths : List Nat) : Unpack PrefixCode := do
  let code := PrefixCode.ofLengths lengths
  if code.isCrowded then throw .damaged
  if strict && !code.isComplete && !(loneAllowed && code.counts.length == 1) then throw .damaged
  return code

/-- Reads the two codes that a block brings. -/
def readCodes (dialect : Dialect) : Unpack (PrefixCode × PrefixCode) := do
  let literals := 257 + (← Unpack.lowBits 5)
  let distances := 1 + (← Unpack.lowBits 5)
  let given ← Unpack.lowBits 4
  if dialect.strict && (286 < literals || 30 < distances) then throw .damaged
  let triples ← (List.replicate (given + 4) 3).mapM Unpack.lowBits
  let given := lengthOrder.zip triples
  let code ← usable dialect.strict false
    ((List.range 19).map fun symbol => (given.lookup symbol).getD 0)
  let all ← readLengths code (literals + distances) [] (literals + distances + 1)
  let (front, back) := all.splitAt literals
  if dialect.strict && front.getD 256 0 == 0 then throw .damaged
  return (← usable dialect.strict true front, ← usable dialect.strict true back)

/-- Reads a block of bytes that are not packed. It starts at a whole byte with its length, which is
given twice. -/
def readStored : Unpack Unit := do
  Unpack.align
  let length ← Unpack.lowBits 16
  let inverse ← Unpack.lowBits 16
  if length + inverse ≠ 65535 then throw .damaged
  Unpack.take length

/-- Reads at most `fuel` blocks, up to the last one, with at most as many symbols in each. -/
def readBlocks (dialect : Dialect) (limit : Nat) : (fuel : Nat) → Unpack Unit
  | 0 => throw .damaged
  | fuel + 1 => do
    let last ← Unpack.lowBits 1
    match ← Unpack.lowBits 2 with
    | 0 => readStored
    | 1 => readSymbols dialect fixedLiterals fixedDistances limit
    | 2 =>
      let (literals, distances) ← readCodes dialect
      readSymbols dialect literals distances limit
    | _ => throw .damaged
    if last = 0 then readBlocks dialect limit fuel

/-- Unpacks content of a dialect; `none` if it is damaged. Content that breaks off is unpacked as
far as it goes. Every block and every symbol takes a bit at least. -/
def inflateBy (dialect : Dialect) (data : Array UInt8) : Option (Array UInt8) :=
  let limit := 8 * data.size + 1
  (readBlocks dialect limit limit).available data

/-- Unpacks content with short repetitions. -/
def inflate (data : Array UInt8) : Option (Array UInt8) :=
  inflateBy .narrow data

/-- Unpacks content with long repetitions. -/
def inflateWide (data : Array UInt8) : Option (Array UInt8) :=
  inflateBy .wide data

end Unscramble.Packing
