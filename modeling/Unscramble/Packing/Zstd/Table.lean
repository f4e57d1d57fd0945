import Unscramble.Packing.Stream

/-! # Finite-state codes

A finite-state code is a table: each state stands for a symbol and tells how to get to the next
state with the bits that follow. Its words are read from the end of a stream towards its start.

Main definitions: `Backward`, `StateTable`, `StateTable.ofCounts`, `readCounts`. -/

namespace Unscramble.Packing.Zstd

/-- A stream that is read from its end. -/
structure Backward where
  /-- The bytes of the stream. -/
  data : Array UInt8
  /-- How many bits are left. Less than 0 says how many bits in front of the stream were read, which
  are 0. -/
  left : Int
deriving Repr, Inhabited

namespace Backward

/-- The stream of some bytes. The highest bit that is set in the last byte marks its end. -/
def ofBytes? (data : Array UInt8) : Option Backward := do
  let last ← data.back?
  if last = 0 then none
  return ⟨data, 8 * (data.size - 1) + last.toNat.log2⟩

/-- The bit at a place, counted from the start. -/
def bitAt (data : Array UInt8) (place : Int) : Nat :=
  match place with
  | .ofNat n => ((data.getD (n / 8) 0).toNat >>> (n % 8)) % 2
  | .negSucc _ => 0

/-- The number that `front` and `count` bits in front of a place spell. -/
def numberFrom (data : Array UInt8) (front : Nat) : (count : Nat) → (place : Int) → Nat
  | 0, _ => front
  | count + 1, place => numberFrom data (2 * front + bitAt data (place - 1)) count (place - 1)

/-- The number of the next `count` bits. -/
def peek (count : Nat) (b : Backward) : Nat :=
  numberFrom b.data 0 count b.left

/-- Moves on by `count` bits. -/
def skip (count : Nat) (b : Backward) : Backward :=
  { b with left := b.left - count }

/-- Reads a number of `count` bits. -/
def read (count : Nat) (b : Backward) : Nat × Backward :=
  (b.peek count, b.skip count)

end Backward

/-- A state of a finite-state code. -/
structure State where
  /-- What the state stands for. -/
  symbol : Nat
  /-- How many bits lead to the next state. -/
  bits : Nat
  /-- The state that they count from. -/
  base : Nat
deriving DecidableEq, Repr, Inhabited

/-- A finite-state code. -/
structure StateTable where
  /-- How many bits tell a state. -/
  bits : Nat
  /-- The states. -/
  states : Array State
deriving Repr, Inhabited

namespace StateTable

/-- The code of one symbol, which takes no bits. -/
def single (symbol : Nat) : StateTable :=
  ⟨0, #[⟨symbol, 0, 0⟩]⟩

/-- The states of symbols with the given counts of states, as symbols in the order of the states.
Symbols with a count of -1 take one state each at the end. The others are spread over the rest with
a fixed step. -/
def spread (bits : Nat) (counts : List Int) : Array Nat :=
  let size := 1 <<< bits
  let rare := counts.zipIdx.filterMap fun (count, symbol) =>
    if count = -1 then some symbol else none
  let limit := size - rare.length
  let step := size / 2 + size / 8 + 3
  let places := ((List.range size).map fun i => i * step % size).filter (· < limit)
  let symbols := counts.zipIdx.flatMap fun (count, symbol) => List.replicate count.toNat symbol
  let start := (Array.replicate limit 0) ++ rare.reverse.toArray
  (places.zip symbols).foldl (fun all (place, symbol) => all.set! place symbol) start

/-- The states in order, given their symbols and how many states of each symbol came before,
counted from the number of all states of the symbol on. -/
def number (bits : Nat) (seen : Array Nat) : List Nat → List State
  | [] => []
  | symbol :: rest =>
    let next := seen.getD symbol 1
    let count := bits - next.log2
    ⟨symbol, count, (next <<< count) - (1 <<< bits)⟩ ::
      number bits (seen.set! symbol (next + 1)) rest

/-- The code of symbols that have the given counts of states. -/
def ofCounts (bits : Nat) (counts : List Int) : StateTable :=
  let seen := (counts.map fun count => if count = -1 then 1 else count.toNat).toArray
  ⟨bits, (number bits seen (spread bits counts).toList).toArray⟩

/-- Reads the first state of a stream. -/
def start (t : StateTable) (b : Backward) : State × Backward :=
  let (i, b) := b.read t.bits
  (t.states.getD i default, b)

/-- Reads the next state. -/
def next (t : StateTable) (s : State) (b : Backward) : State × Backward :=
  let (i, b) := b.read s.bits
  (t.states.getD (s.base + i) default, b)

end StateTable

/-- Reads how many symbols that have no states follow: two bits each time, and more as long as they
are all set. -/
def readZeros : (fuel : Nat) → Unpack Nat
  | 0 => throw .damaged
  | fuel + 1 => do
    let count ← Unpack.lowBits 2
    if count = 3 then return 3 + (← readZeros fuel)
    return count

/-- Reads the counts of states of at most `limit` symbols, `left` in all. -/
def readCountsFrom (left : Nat) : (limit : Nat) → Unpack (List Int)
  | 0 => if left = 0 then return [] else throw .damaged
  | limit + 1 => do
    if left = 0 then return []
    let bits := (left + 1).log2 + 1
    let n ← Unpack.lowBits bits
    let half := 1 <<< (bits - 1)
    let spare := 2 * half - 1 - (left + 1)
    let n ←
      if n % half < spare then
        modify fun s => { s with position := s.position - 1 }
        pure (n % half)
      else pure (if half ≤ n then n - spare else n)
    let count : Int := n - 1
    if left < count.natAbs then throw .damaged
    if count = 0 then
      let zeros ← readZeros (limit + 1)
      if limit < zeros then throw .damaged
      let rest ← readCountsFrom left (limit - zeros)
      return 0 :: (List.replicate zeros 0 ++ rest)
    return count :: (← readCountsFrom (left - count.natAbs) limit)
termination_by limit => limit

/-- Reads a finite-state code of at most `limit` symbols with at most `maxBits` bits for a state. -/
def readTable (maxBits limit : Nat) : Unpack StateTable := do
  let bits := 5 + (← Unpack.lowBits 4)
  if maxBits < bits then throw .damaged
  let counts ← readCountsFrom (1 <<< bits) limit
  Unpack.align
  return .ofCounts bits counts

end Unscramble.Packing.Zstd
