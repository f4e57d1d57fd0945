/-! # Checksums

The checksums that tell whether a content was unpacked as it was packed.

Main definitions: `crc32`, `crc64`, `crc32High`, `xxHash`, `sha256`. -/

namespace Unscramble.Checksum

/-! ### Cyclic redundancy checks

Checksums that are remainders of the content as a polynomial over two elements. Most of them take
the lowest bit of a byte first; one takes the highest first.

Main definitions: `crc32`, `crc64`, `crc32High`. -/

/-- Moves a remainder on by `count` bits, the lowest first. The polynomial is given without its
leading term and with the lowest power in the highest bit. -/
def shiftLow (polynomial : UInt64) : (count : Nat) → UInt64 → UInt64
  | 0, r => r
  | count + 1, r =>
    shiftLow polynomial count (if r &&& 1 = 1 then (r >>> 1) ^^^ polynomial else r >>> 1)

/-- The remainder of some content, of which the lowest bit of each byte comes first. -/
def lowRemainder (polynomial start : UInt64) (bs : List UInt8) : UInt64 :=
  bs.foldl (fun r b => shiftLow polynomial 8 (r ^^^ b.toUInt64)) start

/-- The checksum of 32 bits that guards the content of archive entries. -/
def crc32 (bs : List UInt8) : Nat :=
  (lowRemainder 0xedb88320 0xffffffff bs ^^^ 0xffffffff).toNat

/-- The checksum of 64 bits. -/
def crc64 (bs : List UInt8) : Nat :=
  (lowRemainder 0xc96c5795d7870f42 0xffffffffffffffff bs ^^^ 0xffffffffffffffff).toNat

/-- Moves a remainder of 32 bits on by `count` bits, the highest first. The polynomial is given
without its leading term. -/
def shiftHigh (polynomial : UInt32) : (count : Nat) → UInt32 → UInt32
  | 0, r => r
  | count + 1, r =>
    shiftHigh polynomial count
      (if 0x80000000 ≤ r then (r <<< 1) ^^^ polynomial else r <<< 1)

/-- The checksum of 32 bits of content of which the highest bit of each byte comes first. -/
def crc32High (bs : List UInt8) : Nat :=
  let step (r : UInt32) (b : UInt8) := shiftHigh 0x04c11db7 8 (r ^^^ (b.toUInt32 <<< 24))
  let remainder := bs.foldl step 0xffffffff
  (remainder ^^^ 0xffffffff).toNat

/-! ### XXH64

The checksum of 64 bits that mixes the content into four words, four words of content at a time, and
then brings them together.

Main definition: `xxHash`. -/

/-- The odd numbers that words are multiplied by. -/
structure XxPrimes where
  /-- The first number. -/
  one : UInt64 := 0x9e3779b185ebca87
  /-- The second number. -/
  two : UInt64 := 0xc2b2ae3d27d4eb4f
  /-- The third number. -/
  three : UInt64 := 0x165667b19e3779f9
  /-- The fourth number. -/
  four : UInt64 := 0x85ebca77c2b2ae63
  /-- The fifth number. -/
  five : UInt64 := 0x27d4eb2f165667c5

/-- The numbers of this checksum. -/
def primes : XxPrimes := {}

/-- Turns a word to the left by `count` bits. -/
def turnLeft (count x : UInt64) : UInt64 :=
  (x <<< count) ||| (x >>> (64 - count))

/-- Mixes a word of content into a word. -/
def xxRound (word input : UInt64) : UInt64 :=
  turnLeft 31 (word + input * primes.two) * primes.one

/-- Brings a word into the result. -/
def xxMerge (result word : UInt64) : UInt64 :=
  (result ^^^ xxRound 0 word) * primes.one + primes.four

/-- The word that up to eight bytes spell, the lowest first. -/
def lowWord (bs : List UInt8) : UInt64 :=
  bs.foldr (fun b rest => b.toUInt64 + 256 * rest) 0

/-- Mixes in what is left when there are fewer than 32 bytes: words, then half a word, then bytes.
-/
def xxRest (result : UInt64) (bs : List UInt8) : UInt64 :=
  if _h : 8 ≤ bs.length then
    xxRest (turnLeft 27 (result ^^^ xxRound 0 (lowWord (bs.take 8))) * primes.one + primes.four)
      (bs.drop 8)
  else if _h : 4 ≤ bs.length then
    xxRest (turnLeft 23 (result ^^^ (lowWord (bs.take 4) * primes.one)) * primes.two +
      primes.three) (bs.drop 4)
  else
    bs.foldl (fun result b => turnLeft 11 (result ^^^ (b.toUInt64 * primes.five)) * primes.one)
      result
termination_by bs.length
decreasing_by all_goals simp; omega

/-- Mixes `count` times 32 bytes into four words. -/
def xxStripes (words : List UInt64) : (count : Nat) → List UInt8 → List UInt64
  | 0, _ => words
  | count + 1, bs =>
    let mixed := words.zipIdx.map fun (word, i) => xxRound word (lowWord ((bs.drop (8 * i)).take 8))
    xxStripes mixed count (bs.drop 32)

/-- The result before what is left of the content, which brings four words together. -/
def xxGathered (words : List UInt64) : UInt64 :=
  let turned := words.zip [1, 7, 12, 18] |>.map fun (word, count) => turnLeft count word
  words.foldl xxMerge (turned.foldl (· + ·) 0)

/-- The last steps, which let every bit count. -/
def xxFinal (result : UInt64) : UInt64 :=
  let result := (result ^^^ (result >>> 33)) * primes.two
  let result := (result ^^^ (result >>> 29)) * primes.three
  result ^^^ (result >>> 32)

/-- The checksum of some content. -/
def xxHash (bs : List UInt8) : UInt64 :=
  let start :=
    if bs.length < 32 then primes.five
    else xxGathered (xxStripes
      [primes.one + primes.two, primes.two, 0, 0 - primes.one] (bs.length / 32) bs)
  xxFinal (xxRest (start + bs.length.toUInt64) (bs.drop (bs.length / 32 * 32)))

/-! ### SHA-256

The checksum of 256 bits that mixes the content into eight words, sixteen words of content at a
time.

Main definition: `sha256`. -/

/-- What is added in each round. -/
def roundWords : List UInt32 :=
  [0x428a2f98, 0x71374491, 0xb5c0fbcf, 0xe9b5dba5, 0x3956c25b, 0x59f111f1, 0x923f82a4, 0xab1c5ed5,
   0xd807aa98, 0x12835b01, 0x243185be, 0x550c7dc3, 0x72be5d74, 0x80deb1fe, 0x9bdc06a7, 0xc19bf174,
   0xe49b69c1, 0xefbe4786, 0x0fc19dc6, 0x240ca1cc, 0x2de92c6f, 0x4a7484aa, 0x5cb0a9dc, 0x76f988da,
   0x983e5152, 0xa831c66d, 0xb00327c8, 0xbf597fc7, 0xc6e00bf3, 0xd5a79147, 0x06ca6351, 0x14292967,
   0x27b70a85, 0x2e1b2138, 0x4d2c6dfc, 0x53380d13, 0x650a7354, 0x766a0abb, 0x81c2c92e, 0x92722c85,
   0xa2bfe8a1, 0xa81a664b, 0xc24b8b70, 0xc76c51a3, 0xd192e819, 0xd6990624, 0xf40e3585, 0x106aa070,
   0x19a4c116, 0x1e376c08, 0x2748774c, 0x34b0bcb5, 0x391c0cb3, 0x4ed8aa4a, 0x5b9cca4f, 0x682e6ff3,
   0x748f82ee, 0x78a5636f, 0x84c87814, 0x8cc70208, 0x90befffa, 0xa4506ceb, 0xbef9a3f7, 0xc67178f2]

/-- The eight words that content is mixed into. -/
structure Digest where
  /-- The first word. -/
  a : UInt32
  /-- The second word. -/
  b : UInt32
  /-- The third word. -/
  c : UInt32
  /-- The fourth word. -/
  d : UInt32
  /-- The fifth word. -/
  e : UInt32
  /-- The sixth word. -/
  f : UInt32
  /-- The seventh word. -/
  g : UInt32
  /-- The eighth word. -/
  h : UInt32
deriving Repr, Inhabited

namespace Digest

/-- The words before any content. -/
def fresh : Digest :=
  ⟨0x6a09e667, 0xbb67ae85, 0x3c6ef372, 0xa54ff53a, 0x510e527f, 0x9b05688c, 0x1f83d9ab, 0x5be0cd19⟩

/-- Turns a word by `count` bits. -/
def turn (count x : UInt32) : UInt32 :=
  (x >>> count) ||| (x <<< (32 - count))

/-- A round with a word of content to which the word of the round is added. -/
def round (s : Digest) (word : UInt32) : Digest :=
  let chosen := (s.e &&& s.f) ^^^ ((s.e ^^^ 0xffffffff) &&& s.g)
  let first := s.h + (turn 6 s.e ^^^ turn 11 s.e ^^^ turn 25 s.e) + chosen + word
  let majority := (s.a &&& s.b) ^^^ (s.a &&& s.c) ^^^ (s.b &&& s.c)
  let second := (turn 2 s.a ^^^ turn 13 s.a ^^^ turn 22 s.a) + majority
  ⟨first + second, s.a, s.b, s.c, s.d + first, s.e, s.f, s.g⟩

/-- Adds word by word. -/
def add (s t : Digest) : Digest :=
  ⟨s.a + t.a, s.b + t.b, s.c + t.c, s.d + t.d, s.e + t.e, s.f + t.f, s.g + t.g, s.h + t.h⟩

/-- The words in order. -/
def toList (s : Digest) : List UInt32 :=
  [s.a, s.b, s.c, s.d, s.e, s.f, s.g, s.h]

end Digest

/-- The word that follows sixteen words. -/
def nextWord (words : Array UInt32) (i : Nat) : UInt32 :=
  let x := words.getD (i + 1) 0
  let y := words.getD (i + 14) 0
  words.getD i 0 + (Digest.turn 7 x ^^^ Digest.turn 18 x ^^^ (x >>> 3)) + words.getD (i + 9) 0 +
    (Digest.turn 17 y ^^^ Digest.turn 19 y ^^^ (y >>> 10))

/-- Extends sixteen words by 48 more. -/
def extended (words : Array UInt32) : Array UInt32 :=
  (List.range 48).foldl (fun words i => words.push (nextWord words i)) words

/-- Mixes sixteen words of content in. -/
def mix (s : Digest) (words : Array UInt32) : Digest :=
  s.add ((extended words).toList.zip roundWords |>.foldl (fun t (word, round) =>
    t.round (word + round)) s)

/-- The words that bytes spell, four bytes each, the highest first. -/
def wordsOf : List UInt8 → List UInt32
  | a :: b :: c :: d :: rest =>
    (a.toUInt32 <<< 24 ||| b.toUInt32 <<< 16 ||| c.toUInt32 <<< 8 ||| d.toUInt32) :: wordsOf rest
  | _ => []

/-- Mixes `count` times sixteen words in. -/
def mixAll (s : Digest) : (count : Nat) → List UInt32 → Digest
  | 0, _ => s
  | count + 1, words => mixAll (mix s (words.take 16).toArray) count (words.drop 16)

/-- The content with what fills it up: a bit that is set, and its length in bits at the end. -/
def filledUp (bs : List UInt8) : List UInt8 :=
  let zeros := (119 - bs.length % 64) % 64
  let length := 8 * bs.length
  let digits : List UInt8 := (List.range 8).map fun i => (length >>> (8 * (7 - i))).toUInt8
  bs ++ [0x80] ++ List.replicate zeros 0 ++ digits

/-- The checksum of some content. -/
def sha256 (bs : List UInt8) : List UInt8 :=
  let words := wordsOf (filledUp bs)
  (mixAll .fresh (words.length / 16) words).toList.flatMap fun (w : UInt32) =>
    [(w >>> 24).toUInt8, (w >>> 16).toUInt8, (w >>> 8).toUInt8, w.toUInt8]

end Unscramble.Checksum
