/-! # Packed streams

What all ways of packing content share. A packed stream is a sequence of bits that is read from the
front. Bytes that are unpacked are appended to those before them, because later parts of a stream
refer to them.

Main definitions: `Stop`, `Stream`, `Unpack`. -/

namespace Unscramble.Packing

/-- Why unpacking stops early. -/
inductive Stop where
  /-- The stream breaks off. -/
  | ended
  /-- The stream breaks a rule of its format. -/
  | damaged
deriving DecidableEq, Repr, Inhabited

/-- A packed stream under way. -/
structure Stream where
  /-- The bytes of the stream. -/
  data : Array UInt8
  /-- How many bits were read. -/
  position : Nat := 0
  /-- What is unpacked so far. -/
  out : Array UInt8 := #[]
deriving Repr, Inhabited

/-- Reads a part of a stream and appends what it stands for. What was appended is kept when it
stops early. -/
abbrev Unpack := ExceptT Stop (StateM Stream)

namespace Unpack

/-- The bit of the stream behind those that were read, at a place within its byte that depends on
how many bits of the byte were read. -/
def bitBy (place : Nat → Nat) : Unpack Nat := do
  let s ← get
  match s.data[s.position / 8]? with
  | none => throw .ended
  | some b =>
    set { s with position := s.position + 1 }
    return (b.toNat >>> place (s.position % 8)) % 2

/-- The next bit where the lowest bit of a byte comes first. -/
def lowBit : Unpack Nat :=
  bitBy id

/-- The next bit where the highest bit of a byte comes first. -/
def highBit : Unpack Nat :=
  bitBy (7 - ·)

/-- A number of `count` bits, the lowest first. -/
def lowBits : (count : Nat) → Unpack Nat
  | 0 => return 0
  | count + 1 => do
    let bit ← lowBit
    let rest ← lowBits count
    return bit + 2 * rest

/-- The number that `front` and the next `count` bits spell, the highest first. -/
def highBitsFrom (front : Nat) : (count : Nat) → Unpack Nat
  | 0 => return front
  | count + 1 => do
    let bit ← highBit
    highBitsFrom (2 * front + bit) count

/-- A number of `count` bits, the highest first. -/
def highBits (count : Nat) : Unpack Nat :=
  highBitsFrom 0 count

/-- Moves on to the next whole byte. -/
def align : Unpack Unit :=
  modify fun s => { s with position := (s.position + 7) / 8 * 8 }

/-- The next whole byte. -/
def byte : Unpack UInt8 := do
  let s ← get
  match s.data[(s.position + 7) / 8]? with
  | none => throw .ended
  | some b =>
    set { s with position := ((s.position + 7) / 8 + 1) * 8 }
    return b

/-- The next `count` whole bytes. -/
def bytes : (count : Nat) → Unpack (List UInt8)
  | 0 => return []
  | count + 1 => do
    let b ← byte
    let rest ← bytes count
    return b :: rest

/-- A number of `count` whole bytes, the lowest first. -/
def lowNat : (count : Nat) → Unpack Nat
  | 0 => return 0
  | count + 1 => do
    let b ← byte
    let rest ← lowNat count
    return b.toNat + 256 * rest

/-- The number that `front` and the next `count` whole bytes spell, the highest first. -/
def highNatFrom (front : Nat) : (count : Nat) → Unpack Nat
  | 0 => return front
  | count + 1 => do
    let b ← byte
    highNatFrom (256 * front + b.toNat) count

/-- A number of `count` whole bytes, the highest first. -/
def highNat (count : Nat) : Unpack Nat :=
  highNatFrom 0 count

/-- How many whole bytes were read. -/
def offset : Unpack Nat := do
  return ((← get).position + 7) / 8

/-- Appends a byte. -/
def emit (b : UInt8) : Unpack Unit :=
  modify fun s => { s with out := s.out.push b }

/-- Appends the next `count` whole bytes as they are. If there are fewer, those are appended. -/
def take (count : Nat) : Unpack Unit := do
  let s ← get
  let start := (s.position + 7) / 8
  let stop := min (start + count) s.data.size
  set { s with position := stop * 8, out := s.out ++ s.data.extract start stop }
  if stop < start + count then throw .ended

/-- The array with `length` more bytes, each a copy of the one `distance` places before it. -/
def repeated (distance : Nat) : (length : Nat) → Array UInt8 → Array UInt8
  | 0, out => out
  | length + 1, out => repeated distance length (out.push (out.getD (out.size - distance) 0))

/-- Appends `length` bytes, each a copy of the one `distance` places before it. -/
def copy (distance length : Nat) : Unpack Unit := do
  let s ← get
  if 0 < distance ∧ distance ≤ s.out.size then
    set { s with out := repeated distance length s.out }
  else throw .damaged

/-- What unpacking a stream comes to: how it ended and what was unpacked. -/
def on (u : Unpack Unit) (data : Array UInt8) : Except Stop Unit × Array UInt8 :=
  let (ending, s) := (u.run.run { data }).run
  (ending, s.out)

/-- The content of a stream that has to be whole. -/
def whole (u : Unpack Unit) (data : Array UInt8) : Option (Array UInt8) :=
  match u.on data with
  | (.ok _, out) => some out
  | (.error _, _) => none

/-- The content of a stream, as far as it goes if it breaks off. -/
def available (u : Unpack Unit) (data : Array UInt8) : Option (Array UInt8) :=
  match u.on data with
  | (.error .damaged, _) => none
  | (_, out) => some out

end Unpack

/-! ### Prefix codes

Codes in which no word is the start of another, given by the lengths of their words alone: shorter
words come first, and words of one length are consecutive numbers.

Main definitions: `PrefixCode`, `PrefixCode.ofLengths`, `PrefixCode.read`. -/

/-- A prefix code in which shorter words come first and words of one length are consecutive numbers.
-/
structure PrefixCode where
  /-- How many words there are of each length from 1 on, up to the longest. -/
  counts : List Nat
  /-- What the words stand for, in order. -/
  symbols : Array Nat
deriving Repr, Inhabited

namespace PrefixCode

/-- The code in which symbol `i` has a word of the `i`-th length, or none if that is 0. -/
def ofLengths (lengths : List Nat) : PrefixCode :=
  let all := (List.range (lengths.foldl max 1)).map fun length =>
    lengths.zipIdx.filterMap fun (l, symbol) => if l = length + 1 then some symbol else none
  ⟨all.map List.length, all.flatten.toArray⟩

/-- How much of all long words the words of a code, of which `counts` are the numbers of each
length, are the start of, and how many long words there are. -/
def coverage (counts : List Nat) : Nat × Nat :=
  counts.foldl (fun (covered, all) count => (2 * covered + count, 2 * all)) (0, 1)

/-- Whether there are too many words to be told apart. -/
def isCrowded (c : PrefixCode) : Bool :=
  let (covered, all) := coverage c.counts
  all < covered

/-- Whether every sequence of bits starts with a word. -/
def isComplete (c : PrefixCode) : Bool :=
  let (covered, all) := coverage c.counts
  covered == all

/-- Reads a word bit by bit. `word` is what was read so far, `first` the first word of the next
length and `index` its place among all words. -/
def readFrom (bit : Unpack Nat) (symbols : Array Nat) (word first index : Nat) :
    (counts : List Nat) → Unpack Nat
  | [] => throw .damaged
  | count :: counts => do
    let word := word + (← bit)
    if word < first + count then return symbols.getD (index + (word - first)) 0
    readFrom bit symbols (word * 2) ((first + count) * 2) (index + count) counts

/-- Reads a word and answers what it stands for. -/
def read (c : PrefixCode) (bit : Unpack Nat) : Unpack Nat :=
  readFrom bit c.symbols 0 0 0 c.counts

end PrefixCode

end Unscramble.Packing
