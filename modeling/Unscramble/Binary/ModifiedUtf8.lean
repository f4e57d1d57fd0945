import Unscramble.Body

/-! # Modified UTF-8

The encoding of texts in class files. A text is cut into 16-bit units, supplementary characters into
two of them, and each unit takes one to three bytes; the unit zero takes two, so no byte is zero.

Main definitions: `encode`, `decode`. -/

namespace Unscramble.Binary.ModifiedUtf8

/-- The 16-bit units of a character. -/
def unitsOf (c : Char) : List Nat :=
  let n := c.toNat
  if n < 0x10000 then [n] else [0xd800 + (n - 0x10000) / 0x400, 0xdc00 + (n - 0x10000) % 0x400]

/-- The bytes of a unit. -/
def bytesOf (unit : Nat) : Bytes :=
  if unit ≠ 0 ∧ unit < 0x80 then [unit.toUInt8]
  else if unit < 0x800 then [(0xc0 + unit / 0x40).toUInt8, (0x80 + unit % 0x40).toUInt8]
  else [(0xe0 + unit / 0x1000).toUInt8, (0x80 + unit / 0x40 % 0x40).toUInt8,
    (0x80 + unit % 0x40).toUInt8]

/-- The bytes of a text. -/
def encode (text : String) : Bytes :=
  text.toList.flatMap fun c => (unitsOf c).flatMap bytesOf

/-- The low six bits of a byte. -/
def sixBits (b : UInt8) : Nat :=
  b.toNat % 0x40

/-- The units that bytes spell, in front of which `done` were found, last first. A byte that starts
no unit stands for the replacement character. -/
def unitsFrom (done : List Nat) : Bytes → List Nat
  | [] => done.reverse
  | [a] => if a < 0x80 then (a.toNat :: done).reverse else (0xfffd :: done).reverse
  | [a, b] =>
    if a < 0x80 then unitsFrom (a.toNat :: done) [b]
    else if a.toNat / 0x20 = 6 then ((a.toNat % 0x20 * 0x40 + sixBits b) :: done).reverse
    else unitsFrom (0xfffd :: done) [b]
  | a :: b :: c :: rest =>
    if a < 0x80 then unitsFrom (a.toNat :: done) (b :: c :: rest)
    else if a.toNat / 0x20 = 6 then
      unitsFrom ((a.toNat % 0x20 * 0x40 + sixBits b) :: done) (c :: rest)
    else if a.toNat / 0x10 = 14 then
      unitsFrom ((a.toNat % 0x10 * 0x1000 + sixBits b * 0x40 + sixBits c) :: done) rest
    else unitsFrom (0xfffd :: done) (b :: c :: rest)
termination_by bs => bs.length

/-- Whether a unit is the first of a pair. -/
def isHigh (unit : Nat) : Bool :=
  0xd800 ≤ unit && unit < 0xdc00

/-- Whether a unit is the second of a pair. -/
def isLow (unit : Nat) : Bool :=
  0xdc00 ≤ unit && unit < 0xe000

/-- The character of a unit that stands alone; half of a pair is replaced. -/
def single (unit : Nat) : Char :=
  if isHigh unit || isLow unit then Char.ofNat 0xfffd else Char.ofNat unit

/-- The characters that units spell, in front of which `done` were found, last first. -/
def charsFrom (done : List Char) : List Nat → List Char
  | [] => done.reverse
  | [u] => (single u :: done).reverse
  | u :: v :: rest =>
    if isHigh u && isLow v then
      charsFrom (Char.ofNat (0x10000 + (u - 0xd800) * 0x400 + (v - 0xdc00)) :: done) rest
    else charsFrom (single u :: done) (v :: rest)
termination_by units => units.length

/-- The text that bytes spell. -/
def decode (bs : Bytes) : String :=
  String.ofList (charsFrom [] (unitsFrom [] bs))

end Unscramble.Binary.ModifiedUtf8
