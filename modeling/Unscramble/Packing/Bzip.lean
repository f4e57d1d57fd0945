import Unscramble.Checksum
import Unscramble.Packing.Stream

/-! # Sorted blocks

Unpacking content that was packed block by block: a block is the last column of the table of all
rotations of its bytes, sorted. Equal bytes stand together in it, so it is written as places in a
list of recently used bytes, with prefix codes that change every fifty places.

Main definitions: `Column`, `unsorted`, `unbzip`. -/

namespace Unscramble.Packing

/-- The last column of a block under way. -/
structure Column where
  /-- The bytes that are known. -/
  bytes : Array UInt8 := #[]
  /-- The bytes in use, the last used first. -/
  recent : List UInt8
  /-- How often the last used byte comes next. -/
  run : Nat := 0
  /-- What the next digit of that number counts. -/
  weight : Nat := 1
deriving Repr, Inhabited

namespace Column

/-- Writes out the run that is known, unless the column gets longer than `limit`. -/
def flush (limit : Nat) (c : Column) : Unpack Column := do
  if limit < c.bytes.size + c.run then throw .damaged
  return { c with
    bytes := c.bytes ++ Array.replicate c.run (c.recent.headD 0), run := 0, weight := 1 }

/-- Goes on with a symbol: the symbols 0 and 1 are digits of the length of a run, the others places
in the list of recent bytes. -/
def add (limit symbol : Nat) (c : Column) : Unpack Column := do
  if symbol ≤ 1 then
    if 2097152 ≤ c.weight then throw .damaged
    return { c with run := c.run + (symbol + 1) * c.weight, weight := 2 * c.weight }
  else
    let c ← c.flush limit
    if limit ≤ c.bytes.size then throw .damaged
    match c.recent[symbol - 1]? with
    | none => throw .damaged
    | some b =>
      return { c with bytes := c.bytes.push b, recent := b :: c.recent.eraseIdx (symbol - 1) }

end Column

/-- Reads at most `count` symbols, and answers whether the last one of the column was among them. -/
def readPlaces (code : PrefixCode) (limit last : Nat) :
    (count : Nat) → Column → Unpack (Column × Bool)
  | 0, c => return (c, false)
  | count + 1, c => do
    let symbol ← code.read Unpack.highBit
    if symbol = last then return (← c.flush limit, true)
    readPlaces code limit last count (← c.add limit symbol)

/-- Reads a column, fifty symbols with each code. -/
def readColumn (limit last : Nat) : List PrefixCode → Column → Unpack Column
  | [], _ => throw .damaged
  | code :: codes, c => do
    let (c, done) ← readPlaces code limit last 50 c
    if done then return c
    readColumn limit last codes c

/-- The bytes that a block uses: which of sixteen groups have any, and for each of those which of
its sixteen bytes. -/
def readUsed : Unpack (List UInt8) := do
  let groups ← (List.replicate 16 1).mapM Unpack.highBits
  let used ← groups.zipIdx.mapM fun (bit, group) => do
    if bit = 0 then return []
    let bits ← (List.replicate 16 1).mapM Unpack.highBits
    return bits.zipIdx.filterMap fun (bit, b) =>
      if bit = 0 then none else some (16 * group + b).toUInt8
  return used.flatten

/-- Counts the bits up to the next 0, of which there may be `count` at most. -/
def readUnary : (count : Nat) → Unpack Nat
  | 0 => throw .damaged
  | count + 1 => do
    if (← Unpack.highBit) = 0 then return 0
    return 1 + (← readUnary count)

/-- What places in a list of recently used numbers stand for. -/
def recentNumbers (recent : List Nat) : List Nat → List Nat
  | [] => []
  | place :: places =>
    let n := recent.getD place 0
    n :: recentNumbers (n :: recent.eraseIdx place) places

/-- Moves a code length up or down step by step. Lengths are from 1 to 20, and each step takes a bit
at least. -/
def readLength (length : Nat) : (fuel : Nat) → Unpack Nat
  | 0 => throw .damaged
  | fuel + 1 => do
    if length < 1 || 20 < length then throw .damaged
    if (← Unpack.highBit) = 0 then return length
    if (← Unpack.highBit) = 0 then readLength (length + 1) fuel
    else readLength (length - 1) fuel

/-- Reads `count` code lengths, each given by its difference from the one before. -/
def readLengthsFrom (length : Nat) : (count : Nat) → Unpack (List Nat)
  | 0 => return []
  | count + 1 => do
    let length ← readLength length (8 * (← get).data.size + 1)
    return length :: (← readLengthsFrom length count)

/-- The most groups of fifty symbols that a block can have. -/
def maxGroups : Nat := 18002

/-- Reads the codes of a block, one for each group of fifty symbols. -/
def readBlockCodes (symbols : Nat) : Unpack (List PrefixCode) := do
  let kinds ← Unpack.highBits 3
  let groups ← Unpack.highBits 15
  if kinds < 2 || 6 < kinds || groups < 1 then throw .damaged
  let places ← (List.replicate groups kinds).mapM readUnary
  let codes ← (List.replicate kinds symbols).mapM fun count => do
    return PrefixCode.ofLengths (← readLengthsFrom (← Unpack.highBits 5) count)
  return (recentNumbers (List.range kinds) (places.take maxGroups)).map (codes.getD · default)

/-- For each place of a sorted column the place of the byte that comes next in the block. -/
def following (column : Array UInt8) : Array Nat :=
  let places := column.toList.zipIdx.foldl
    (fun (all : Array (Array Nat)) (b, place) => all.modify b.toNat (·.push place))
    (Array.replicate 256 #[])
  places.flatten

/-- The bytes of a block from a place of its column on, `count` in all. -/
def walkColumn (column : Array UInt8) (next : Array Nat) : (count place : Nat) → List UInt8
  | 0, _ => []
  | count + 1, place =>
    column.getD place 0 :: walkColumn column next count (next.getD place 0)

/-- The bytes of a block of which the sorted column is known, and where the block starts in it. -/
def unsorted (column : Array UInt8) (start : Nat) : List UInt8 :=
  let next := following column
  walkColumn column next column.size (next.getD start 0)

/-- How far it is from one byte that is altered to the next in blocks that are disturbed on purpose.
-/
def gaps : List Nat :=
  [619, 720, 127, 481, 931, 816, 813, 233, 566, 247, 985, 724, 205, 454, 863, 491, 741, 242, 949,
   214, 733, 859, 335, 708, 621, 574, 73, 654, 730, 472, 419, 436, 278, 496, 867, 210, 399, 680,
   480, 51, 878, 465, 811, 169, 869, 675, 611, 697, 867, 561, 862, 687, 507, 283, 482, 129, 807,
   591, 733, 623, 150, 238, 59, 379, 684, 877, 625, 169, 643, 105, 170, 607, 520, 932, 727, 476,
   693, 425, 174, 647, 73, 122, 335, 530, 442, 853, 695, 249, 445, 515, 909, 545, 703, 919, 874,
   474, 882, 500, 594, 612, 641, 801, 220, 162, 819, 984, 589, 513, 495, 799, 161, 604, 958, 533,
   221, 400, 386, 867, 600, 782, 382, 596, 414, 171, 516, 375, 682, 485, 911, 276, 98, 553, 163,
   354, 666, 933, 424, 341, 533, 870, 227, 730, 475, 186, 263, 647, 537, 686, 600, 224, 469, 68,
   770, 919, 190, 373, 294, 822, 808, 206, 184, 943, 795, 384, 383, 461, 404, 758, 839, 887, 715,
   67, 618, 276, 204, 918, 873, 777, 604, 560, 951, 160, 578, 722, 79, 804, 96, 409, 713, 940, 652,
   934, 970, 447, 318, 353, 859, 672, 112, 785, 645, 863, 803, 350, 139, 93, 354, 99, 820, 908,
   609, 772, 154, 274, 580, 184, 79, 626, 630, 742, 653, 282, 762, 623, 680, 81, 927, 626, 789,
   125, 411, 521, 938, 300, 821, 78, 343, 175, 128, 250, 170, 774, 972, 275, 999, 639, 495, 78,
   352, 126, 857, 956, 358, 619, 580, 124, 737, 594, 701, 612, 669, 112, 134, 694, 363, 992, 809,
   743, 168, 974, 944, 375, 748, 52, 600, 747, 642, 182, 862, 81, 344, 805, 988, 739, 511, 655,
   814, 334, 249, 515, 897, 955, 664, 981, 649, 113, 974, 459, 893, 228, 433, 837, 553, 268, 926,
   240, 102, 654, 459, 51, 686, 754, 806, 760, 493, 403, 415, 394, 687, 700, 946, 670, 656, 610,
   738, 392, 760, 799, 887, 653, 978, 321, 576, 617, 626, 502, 894, 679, 243, 440, 680, 879, 194,
   572, 640, 724, 926, 56, 204, 700, 707, 151, 457, 449, 797, 195, 791, 558, 945, 679, 297, 59, 87,
   824, 713, 663, 412, 693, 342, 606, 134, 108, 571, 364, 631, 212, 174, 643, 304, 329, 343, 97,
   430, 751, 497, 314, 983, 374, 822, 928, 140, 206, 73, 263, 980, 736, 876, 478, 430, 305, 170,
   514, 364, 692, 829, 82, 855, 953, 676, 246, 369, 970, 294, 750, 807, 827, 150, 790, 288, 923,
   804, 378, 215, 828, 592, 281, 565, 555, 710, 82, 896, 831, 547, 261, 524, 462, 293, 465, 502,
   56, 661, 821, 976, 991, 658, 869, 905, 758, 745, 193, 768, 550, 608, 933, 378, 286, 215, 979,
   792, 961, 61, 688, 793, 644, 986, 403, 106, 366, 905, 644, 372, 567, 466, 434, 645, 210, 389,
   550, 919, 135, 780, 773, 635, 389, 707, 100, 626, 958, 165, 504, 920, 176, 193, 713, 857, 265,
   203, 50, 668, 108, 645, 990, 626, 197, 510, 357, 358, 850, 858, 364, 936, 638]

/-- Alters the lowest bit of bytes that are given gaps apart. `left` is how many bytes there are up
to the next end of a gap. -/
def disturb (left : Nat) (upcoming : List Nat) : List UInt8 → List UInt8
  | [] => []
  | b :: rest =>
    let (left, upcoming) :=
      match left, upcoming with
      | 0, gap :: upcoming => (gap, upcoming ++ [gap])
      | left, upcoming => (left, upcoming)
    (if left = 2 then b ^^^ 1 else b) :: disturb (left - 1) upcoming rest

/-- Expands runs: behind four equal bytes stands how many more there are. `count` bytes equal to
`last` end what is expanded so far. -/
def expandRuns (last : UInt8) (count : Nat) (out : Array UInt8) :
    List UInt8 → Option (Array UInt8)
  | [] => if count = 4 then none else some out
  | b :: rest =>
    if count = 4 then expandRuns b 0 (out ++ Array.replicate b.toNat last) rest
    else expandRuns b (if 0 < count && b == last then count + 1 else 1) (out.push b) rest

/-- Reads a block of at most `limit` bytes and answers its checksum. -/
def readSortedBlock (limit : Nat) : Unpack Nat := do
  let sum ← Unpack.highBits 32
  let disturbed ← Unpack.highBit
  let start ← Unpack.highBits 24
  if limit + 10 < start then throw .damaged
  let used ← readUsed
  if used.isEmpty then throw .damaged
  let codes ← readBlockCodes (used.length + 2)
  let column ← readColumn limit (used.length + 1) codes { recent := used }
  if column.bytes.size ≤ start then throw .damaged
  let content := unsorted column.bytes start
  let content := if disturbed = 1 then disturb 0 gaps content else content
  match expandRuns 0 0 #[] content with
  | none => throw .damaged
  | some content =>
    modify fun s => { s with out := s.out ++ content }
    if Checksum.crc32High content.toList ≠ sum then throw .damaged
    return sum

/-- The checksum of all blocks, from that of the blocks before and that of the next. -/
def combined (all sum : Nat) : Nat :=
  ((all * 2) % 4294967296 + all / 2147483648) ^^^ sum

/-- Reads at most `fuel` blocks up to the end of the stream, where the checksum of all stands. -/
def readSortedBlocks (limit all : Nat) : (fuel : Nat) → Unpack Unit
  | 0 => throw .damaged
  | fuel + 1 => do
    let mark ← Unpack.highBits 48
    if mark = 0x314159265359 then
      let sum ← readSortedBlock limit
      readSortedBlocks limit (combined all sum) fuel
    else if mark = 0x177245385090 then
      if (← Unpack.highBits 32) ≠ all then throw .damaged
    else throw .damaged

/-- Reads a stream of sorted blocks. It starts with a mark and the size of its blocks. -/
def readSortedStream : Unpack Unit := do
  let mark ← Unpack.highBits 24
  let level ← Unpack.highBits 8
  if mark ≠ 0x425a68 || level < 0x31 || 0x39 < level then throw .damaged
  readSortedBlocks (100000 * (level - 0x30)) 0 (8 * (← get).data.size + 1)

/-- Unpacks content of sorted blocks. -/
def unbzip (data : Array UInt8) : Option (Array UInt8) :=
  readSortedStream.whole data

end Unscramble.Packing
