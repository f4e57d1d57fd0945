/-! # Decimals

The text of a floating-point number: the shortest decimal that reads back as it, in positional or
scientific notation.

Main definitions: `Binary`, `shortest`. -/

namespace Unscramble.Decimal

/-! ### Shortest decimals

The decimal with the fewest digits that reads back as a given binary number, and of those the one
nearest to it. A binary number is `m * 2 ^ q` with a positive `m`; the reals that round to it form
an interval around it whose ends belong to it when `m` is even. All comparisons are exact, on
naturals over a common denominator.

Main definitions: `Binary`, `shortest`. -/

/-- A positive binary number `m * 2 ^ q`. When `atPowerOfTwo` holds, the gap to the next smaller
number is half of the gap to the next greater one. -/
structure Binary where
  /-- The significand. -/
  m : Nat
  /-- The exponent of two. -/
  q : Int
  /-- Whether the number is the least of its binade, and not of the lowest one. -/
  atPowerOfTwo : Bool
deriving Repr

/-- A decimal number `digits * 10 ^ exponent`. -/
structure Numeral where
  /-- The digits, read as a natural number. -/
  digits : Nat
  /-- The exponent of ten of the last digit. -/
  exponent : Int
deriving Repr, DecidableEq

/-- A value and the ends of its rounding interval, all over one denominator. -/
structure Interval where
  /-- Numerator of the lower end. -/
  low : Nat
  /-- Numerator of the value. -/
  value : Nat
  /-- Numerator of the upper end. -/
  high : Nat
  /-- The common denominator. -/
  den : Nat
  /-- Whether the ends belong to the interval. -/
  closed : Bool

/-- The reals that round to a binary number. -/
def Binary.interval (b : Binary) : Interval :=
  let up := Nat.pow 2 (b.q - 2).toNat
  let below := if b.atPowerOfTwo then 1 else 2
  { low := (4 * b.m - below) * up
    value := 4 * b.m * up
    high := (4 * b.m + 2) * up
    den := Nat.pow 2 (2 - b.q).toNat
    closed := b.m % 2 == 0 }

/-- The same interval measured in units of `10 ^ g`. -/
def Interval.inUnits (i : Interval) (g : Int) : Interval :=
  let up := Nat.pow 10 (-g).toNat
  { i with
    low := i.low * up
    value := i.value * up
    high := i.high * up
    den := i.den * Nat.pow 10 g.toNat }

/-- Whether the natural number `d` lies in the interval. -/
def Interval.contains (i : Interval) (d : Nat) : Bool :=
  if i.closed then i.low ≤ d * i.den && d * i.den ≤ i.high
  else i.low < d * i.den && d * i.den < i.high

/-- The natural number next to the value that lies in the interval: the nearer one of the two
neighbours, the upper one in a tie. -/
def Interval.neighbour? (i : Interval) : Option Nat :=
  let d := i.value / i.den
  match i.contains d, i.contains (d + 1) with
  | true, true => if 2 * (i.value - d * i.den) < i.den then some d else some (d + 1)
  | true, false => some d
  | false, true => some (d + 1)
  | false, false => none

/-- The least `k` at most `fuel` with `den ≤ value * 10 ^ k`. -/
def leadingZeros (value den : Nat) : Nat → Nat
  | 0 => 0
  | fuel + 1 => if den ≤ value then 0 else leadingZeros (value * 10) den fuel + 1

/-- The exponent of ten of the leading digit of the value. -/
def Interval.magnitude (i : Interval) : Int :=
  if i.den ≤ i.value then ((Nat.toDigits 10 (i.value / i.den)).length : Int) - 1
  else -(leadingZeros i.value i.den 400 : Int)

/-- The first hit on the grids of `count`, `count + 1`, … digits, trying `fuel` of them. -/
def Interval.search (i : Interval) (magnitude : Int) (count : Nat) : Nat → Option Numeral
  | 0 => none
  | fuel + 1 =>
    let g := magnitude + 1 - count
    match (i.inUnits g).neighbour? with
    | some d => some ⟨d, g⟩
    | none => i.search magnitude (count + 1) fuel

/-- Moves trailing zeros of the digits into the exponent. -/
def Numeral.strip (d : Numeral) : Nat → Numeral
  | 0 => d
  | fuel + 1 =>
    if d.digits != 0 && d.digits % 10 == 0 then Numeral.strip ⟨d.digits / 10, d.exponent + 1⟩ fuel
    else d

/-- The decimal with the fewest digits that reads back as `b`, the nearest one if there are several.
-/
def shortest (b : Binary) : Numeral :=
  let i := b.interval
  let found := i.search i.magnitude 1 20
  (found.getD ⟨0, 0⟩).strip 20

/-! ### The text of a floating-point number

The text of a binary floating-point number given by its bits: the fewest digits that read back, in
positional notation from `0.0001` up to below `10 ^ 16`, with at least one digit after the point,
and in scientific notation elsewhere. -/

/-- A binary interchange format: how many bits hold the fraction and how many the exponent. -/
structure Format where
  /-- Width of the fraction field. -/
  fractionBits : Nat
  /-- Width of the exponent field. -/
  exponentBits : Nat

/-- The 32-bit format. -/
def single : Format := ⟨23, 8⟩

/-- The 64-bit format. -/
def double : Format := ⟨52, 11⟩

/-- What the bits of a floating-point number stand for, the sign apart. -/
inductive Magnitude where
  /-- Not a number. -/
  | nan
  /-- Beyond every number. -/
  | infinite
  /-- Zero. -/
  | zero
  /-- A positive number. -/
  | finite (value : Binary)

/-- Reads the bits of a number of format `f`, without its sign. -/
def Format.magnitude (f : Format) (bits : Nat) : Magnitude :=
  let fraction := bits % Nat.pow 2 f.fractionBits
  let top := Nat.pow 2 f.exponentBits - 1
  let exponent := bits / Nat.pow 2 f.fractionBits % Nat.pow 2 f.exponentBits
  let bias : Int := (Nat.pow 2 (f.exponentBits - 1) : Nat) - 1 + f.fractionBits
  if exponent == top then (if fraction == 0 then .infinite else .nan)
  else if exponent == 0 then
    if fraction == 0 then .zero else .finite ⟨fraction, 1 - bias, false⟩
  else
    .finite
      ⟨Nat.pow 2 f.fractionBits + fraction, exponent - bias, fraction == 0 && exponent != 1⟩

/-- Whether the sign bit is set. -/
def Format.isNegative (f : Format) (bits : Nat) : Bool :=
  bits / Nat.pow 2 (f.fractionBits + f.exponentBits) % 2 == 1

/-- A run of zeros. -/
def zeros (n : Nat) : String :=
  String.ofList (List.replicate n '0')

/-- Writes a decimal in positional notation from `0.0001` up to below `10 ^ 16`, and elsewhere with
one digit before the point and an exponent. -/
def Numeral.text (d : Numeral) : String :=
  let digits := (Nat.toDigits 10 d.digits)
  let count : Int := digits.length
  let lead := d.exponent + count - 1
  if lead < -4 || 15 < lead then
    let fraction := digits.drop 1
    String.ofList (digits.take 1) ++
      (if fraction.isEmpty then "" else "." ++ String.ofList fraction)
      ++ "e" ++ toString lead
  else if lead < 0 then "0." ++ zeros (-lead - 1).toNat ++ String.ofList digits
  else if 0 ≤ d.exponent then String.ofList digits ++ zeros d.exponent.toNat ++ ".0"
  else
    let whole := (count + d.exponent).toNat
    String.ofList (digits.take whole) ++ "." ++ String.ofList (digits.drop whole)

/-- The text of a floating-point number of format `f`. -/
def Format.text (f : Format) (bits : Nat) : String :=
  let sign := if f.isNegative bits then "-" else ""
  match f.magnitude bits with
  | .nan => "NaN"
  | .infinite => sign ++ "inf"
  | .zero => sign ++ "0.0"
  | .finite b => sign ++ (shortest b).text

end Unscramble.Decimal
