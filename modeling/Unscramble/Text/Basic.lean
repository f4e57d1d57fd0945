/-! # Texts

What the formats read here share: blank characters, cutting a text at a character, counts in decimal
digits, UTF-8 with faults, and tables of properties of characters.

Main definitions: `isBlank`, `trim`, `words`, `cut?`, `inTable`. -/

namespace Unscramble.Text

/-! ### Blank characters

The white space that separates words and surrounds entries of the text formats read here. -/

/-- The characters with the property `White_Space`. -/
def isBlank (c : Char) : Bool :=
  let n := c.toNat
  (9 ≤ n && n ≤ 13) || n == 0x20 || n == 0x85 || n == 0xa0 || n == 0x1680 ||
    (0x2000 ≤ n && n ≤ 0x200a) || n == 0x2028 || n == 0x2029 || n == 0x202f || n == 0x205f ||
    n == 0x3000

/-- The characters of `cs` without the blanks at both ends. -/
def trimChars (cs : List Char) : List Char :=
  ((cs.dropWhile isBlank).reverse.dropWhile isBlank).reverse

/-- The text without the blanks at both ends. -/
def trim (s : String) : String :=
  String.ofList (trimChars s.toList)

/-- The maximal runs of characters that are not blank, the first of which `word` has begun. -/
def wordsFrom (word : List Char) : List Char → List (List Char)
  | [] => if word.isEmpty then [] else [word.reverse]
  | c :: rest =>
    if isBlank c then
      if word.isEmpty then wordsFrom [] rest else word.reverse :: wordsFrom [] rest
    else wordsFrom (c :: word) rest

/-- The words of a text: its maximal runs of characters that are not blank. -/
def words (s : String) : List String :=
  (wordsFrom [] s.toList).map String.ofList

/-! ### Cutting texts

Cutting a text at a character, for formats that separate their parts by one. -/

/-- Splits off the characters before the first `stop`; `none` if there is no `stop`. The second part
starts after it. -/
def cut (stop : Char) (cs : List Char) : Option (List Char × List Char) :=
  match cs.dropWhile (· != stop) with
  | [] => none
  | _ :: rest => some (cs.takeWhile (· != stop), rest)

/-- Dropping characters leaves no more than there were. -/
theorem length_dropWhile_le (p : Char → Bool) (cs : List Char) :
    (cs.dropWhile p).length ≤ cs.length :=
  (List.dropWhile_suffix p).length_le

/-- What follows a cut is shorter than the whole. -/
theorem length_lt_of_cut {stop : Char} {cs before rest : List Char}
    (h : cut stop cs = some (before, rest)) : rest.length < cs.length := by
  have hle := length_dropWhile_le (· != stop) cs
  unfold cut at h
  split at h
  · exact absurd h (by simp)
  · rename_i d r hd
    rw [hd] at hle
    simp only [Option.some.injEq, Prod.mk.injEq] at h
    rw [← h.2]
    exact hle

/-- The part of a text after the last `stop`, the whole text if there is none. -/
def afterLast (stop : Char) (s : String) : String :=
  String.ofList (s.toList.reverse.takeWhile (· != stop)).reverse

/-- The part of a text up to and with the last `stop`, empty if there is none. -/
def throughLast (stop : Char) (s : String) : String :=
  String.ofList (s.toList.reverse.dropWhile (· != stop)).reverse

/-- The part of a text before the first `stop`, the whole text if there is none. -/
def beforeFirst (stop : Char) (s : String) : String :=
  String.ofList (s.toList.takeWhile (· != stop))

/-- The lines of a text, the first of which `line` has begun. -/
def linesFrom (line : List Char) : List Char → List (List Char)
  | [] => if line.isEmpty then [] else [line.reverse]
  | c :: rest => if c == '\n' then line.reverse :: linesFrom [] rest else linesFrom (c :: line) rest

/-- The lines of a text. A line feed ends a line, and the text after the last one is a line if it is
not empty. -/
def lines (s : String) : List String :=
  (linesFrom [] s.toList).map String.ofList

/-- The rest of a text that starts with `start`. -/
def stripStart? (start s : String) : Option String :=
  if start.toList.isPrefixOf s.toList then some (String.ofList (s.toList.drop start.length))
  else none

/-- Replaces a character everywhere. -/
def replaceChar (old new : Char) (s : String) : String :=
  s.map fun c => if c == old then new else c

/-! ### Counts

Reading a count from its decimal digits. -/

/-- The greatest count, that of 64 bits. -/
def maxCount : Nat := 18446744073709551615

/-- The count that decimal digits spell, in front of which there may be a plus sign. -/
def count? (cs : List Char) : Option Nat :=
  let digits := if cs.head? == some '+' then cs.drop 1 else cs
  if digits.isEmpty || !digits.all Char.isDigit then none else
    let n := digits.foldl (fun n c => n * 10 + (c.toNat - '0'.toNat)) 0
    if n ≤ maxCount then some n else none

/-! ### UTF-8 with faults

Reading a text from bytes that are meant to be UTF-8. Bytes that belong to no character are
replaced, those of a character that breaks off by one replacement character together. -/

/-- The bytes that may follow a first byte, a range for each; `none` if it starts no character. -/
def followers (first : UInt8) : Option (List (UInt8 × UInt8)) :=
  let any := ((0x80, 0xbf) : UInt8 × UInt8)
  if first < 0x80 then some []
  else if first < 0xc2 then none
  else if first < 0xe0 then some [any]
  else if first = 0xe0 then some [(0xa0, 0xbf), any]
  else if first = 0xed then some [(0x80, 0x9f), any]
  else if first < 0xf0 then some [any, any]
  else if first = 0xf0 then some [(0x90, 0xbf), any, any]
  else if first < 0xf4 then some [any, any, any]
  else if first = 0xf4 then some [(0x80, 0x8f), any, any]
  else none

/-- The bytes at the front that lie in given ranges, up to the first that does not. -/
def fitting : List (UInt8 × UInt8) → List UInt8 → List UInt8
  | (low, high) :: ranges, b :: rest =>
    if low ≤ b && b ≤ high then b :: fitting ranges rest else []
  | _, _ => []

/-- The character of a first byte and the bytes that follow it. -/
def charOfUtf8 (first : UInt8) (following : List UInt8) : Char :=
  let high :=
    match following.length with
    | 0 => first.toNat
    | 1 => first.toNat % 0x20
    | 2 => first.toNat % 0x10
    | _ => first.toNat % 0x08
  Char.ofNat (following.foldl (fun n b => n * 0x40 + b.toNat % 0x40) high)

/-- The characters that bytes spell. -/
def charsOfUtf8 : List UInt8 → List Char
  | [] => []
  | first :: rest =>
    match followers first with
    | none => '\ufffd' :: charsOfUtf8 rest
    | some ranges =>
      let following := fitting ranges rest
      let c := if following.length = ranges.length then charOfUtf8 first following else '\ufffd'
      c :: charsOfUtf8 (rest.drop following.length)
termination_by bs => bs.length
decreasing_by
  · simp
  · simp only [List.length_drop, List.length_cons]
    omega

/-- The text that bytes spell. -/
def ofUtf8 (bs : List UInt8) : String :=
  String.ofList (charsOfUtf8 bs)

/-- The text that bytes spell without a fault. A fault shows when the text is spelt again. -/
def ofUtf8? (bs : List UInt8) : Option String :=
  let text := ofUtf8 bs
  if text.toUTF8.toList = bs then some text else none

/-! ### Tables of intervals

A property of characters is kept as a table: closed intervals of code points in ascending order.
Main definition: `inTable`, which looks a code point up. -/

/-- Whether some interval of `table` between the indices `low` and `high` contains `c`, by bisection
of an ascending table. -/
def inTable (table : Array (Nat × Nat)) (c low high : Nat) : Bool :=
  if low < high then
    let mid := (low + high) / 2
    match table[mid]? with
    | none => false
    | some (first, last) =>
      if c < first then inTable table c low mid
      else if last < c then inTable table c (mid + 1) high
      else true
  else false
termination_by high - low

end Unscramble.Text
