/-! # Sets of characters

A set of characters is a list of ranges of code points in ascending order, no two of which overlap
or touch. So a set is written in one way only, and sets can be compared.

Main definitions: `CharRange`, `CharSet`, `CharSet.union`, `CharSet.inter`, `CharSet.diff`,
`CharSet.compl`. -/

namespace Unscramble.Pattern

/-- The greatest code point. -/
def lastCodePoint : Nat := 0x10ffff

/-- The code point of the next character; no character lies between 0xd7ff and 0xe000. -/
def following (n : Nat) : Nat :=
  if n = 0xd7ff then 0xe000 else n + 1

/-- The code point of the character before. -/
def preceding (n : Nat) : Nat :=
  if n = 0xe000 then 0xd7ff else n - 1

/-- The characters whose code points lie between two bounds. -/
structure CharRange where
  /-- The least code point. -/
  low : Nat
  /-- The greatest code point. -/
  high : Nat
deriving DecidableEq, Repr, Inhabited

namespace CharRange

/-- The range between two code points, whichever of them is the greater. -/
def spanning (a b : Nat) : CharRange :=
  ⟨min a b, max a b⟩

/-- Whether a character lies in the range. -/
def contains (r : CharRange) (c : Char) : Bool :=
  r.low ≤ c.toNat && c.toNat ≤ r.high

/-- What two ranges have in common. -/
def inter? (r s : CharRange) : Option CharRange :=
  if max r.low s.low ≤ min r.high s.high then some ⟨max r.low s.low, min r.high s.high⟩ else none

/-- What is left of a range without another, in ascending order. -/
def diff (r s : CharRange) : List CharRange :=
  if s.high < r.low || r.high < s.low then [r]
  else
    (if r.low < s.low then [⟨r.low, preceding s.low⟩] else []) ++
      (if s.high < r.high then [⟨following s.high, r.high⟩] else [])

end CharRange

/-- A set of characters: ascending ranges that neither overlap nor touch. -/
abbrev CharSet := List CharRange

namespace CharSet

/-- The set of one character. -/
def single (c : Char) : CharSet :=
  [⟨c.toNat, c.toNat⟩]

/-- The only character of a set. -/
def single? : CharSet → Option Char
  | [r] => if r.low = r.high then some (Char.ofNat r.low) else none
  | _ => none

/-- Whether a character is in the set. -/
def contains (set : CharSet) (c : Char) : Bool :=
  set.any (·.contains c)

/-- Adds a range, which takes in the ranges that it overlaps or touches. -/
def insert (r : CharRange) : CharSet → CharSet
  | [] => [r]
  | s :: rest =>
    if r.high + 1 < s.low then r :: s :: rest
    else if s.high + 1 < r.low then s :: insert r rest
    else insert ⟨min r.low s.low, max r.high s.high⟩ rest

/-- What is in either set. -/
def union (a b : CharSet) : CharSet :=
  b.foldl (fun set r => insert r set) a

/-- What is in both sets. -/
def inter (a b : CharSet) : CharSet :=
  a.flatMap fun r => b.filterMap r.inter?

/-- What is in the first set only. -/
def diff (a b : CharSet) : CharSet :=
  a.flatMap fun r => b.foldl (fun pieces s => pieces.flatMap (·.diff s)) [r]

/-- What is in exactly one of the sets. -/
def symmDiff (a b : CharSet) : CharSet :=
  diff (union a b) (inter a b)

/-- The gaps behind each range of a set. Where two ranges end and begin at the two sides of the code
points that are no characters, the gap consists of the characters on both sides. -/
def gaps : CharSet → List CharRange
  | [] => []
  | [r] => if r.high < lastCodePoint then [⟨following r.high, lastCodePoint⟩] else []
  | r :: s :: rest => .spanning (following r.high) (preceding s.low) :: gaps (s :: rest)

/-- What is not in the set. -/
def compl : CharSet → CharSet
  | [] => [⟨0, lastCodePoint⟩]
  | r :: rest => (if 0 < r.low then [⟨0, preceding r.low⟩] else []) ++ gaps (r :: rest)

end CharSet

end Unscramble.Pattern
