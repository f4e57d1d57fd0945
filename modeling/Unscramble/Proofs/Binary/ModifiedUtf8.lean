import Mathlib
import Unscramble.Binary.ModifiedUtf8

/-! # Texts survive their encoding

Decoding the bytes of a text gives the text: each unit is found again from its one to three bytes,
and each character from its one or two units. No byte of a text is zero, and none is one that starts
a character of four bytes in standard UTF-8.

Main statements: `decode_encode`, `encode_invertible`. -/

namespace Unscramble.Binary.ModifiedUtf8

/-! ### Units -/

/-- A byte below 128 is a unit on its own. -/
theorem unitsFrom_cons_of_lt {a : UInt8} (ha : a < 0x80) (done : List Nat) (rest : Bytes) :
    unitsFrom done (a :: rest) = unitsFrom (a.toNat :: done) rest := by
  match rest with
  | [] => simp only [unitsFrom, if_pos ha]
  | [b] => simp only [unitsFrom, if_pos ha]
  | b :: c :: rest => rw [unitsFrom, if_pos ha]

/-- A byte that starts a unit of two bytes. -/
theorem unitsFrom_cons_of_two {a b : UInt8} (ha : a.toNat / 0x20 = 6) (done : List Nat)
    (rest : Bytes) : unitsFrom done (a :: b :: rest) =
      unitsFrom ((a.toNat % 0x20 * 0x40 + sixBits b) :: done) rest := by
  have hlt : ¬a < 0x80 := by
    rw [UInt8.lt_iff_toNat_lt]
    change ¬a.toNat < 128
    omega
  match rest with
  | [] => simp only [unitsFrom, if_neg hlt, if_pos ha]
  | c :: rest => rw [unitsFrom, if_neg hlt, if_pos ha]

/-- A byte that starts a unit of three bytes. -/
theorem unitsFrom_cons_of_three {a b c : UInt8} (ha : a.toNat / 0x10 = 14) (done : List Nat)
    (rest : Bytes) : unitsFrom done (a :: b :: c :: rest) =
      unitsFrom ((a.toNat % 0x10 * 0x1000 + sixBits b * 0x40 + sixBits c) :: done) rest := by
  have hlt : ¬a < 0x80 := by
    rw [UInt8.lt_iff_toNat_lt]
    change ¬a.toNat < 128
    omega
  have htwo : ¬a.toNat / 0x20 = 6 := by omega
  rw [unitsFrom, if_neg hlt, if_neg htwo, if_pos ha]

/-- A small number is kept in a byte. -/
theorem toNat_toUInt8 {n : Nat} (hn : n < 256) : n.toUInt8.toNat = n :=
  Nat.mod_eq_of_lt hn

/-- A unit is found again from its bytes. -/
theorem unitsFrom_bytesOf {unit : Nat} (hu : unit < 0x10000) (done : List Nat) (rest : Bytes) :
    unitsFrom done (bytesOf unit ++ rest) = unitsFrom (unit :: done) rest := by
  -- One, two or three bytes, by the size of the unit; the unit zero takes two.
  rw [bytesOf]
  by_cases hone : unit ≠ 0 ∧ unit < 0x80
  · have hnat : unit.toUInt8.toNat = unit := toNat_toUInt8 (by omega)
    have hlt : unit.toUInt8 < 0x80 := by
      rw [UInt8.lt_iff_toNat_lt, hnat]
      exact hone.2
    rw [if_pos hone, List.singleton_append, unitsFrom_cons_of_lt hlt, hnat]
  · rw [if_neg hone]
    by_cases htwo : unit < 0x800
    · have hfirst : (0xc0 + unit / 0x40).toUInt8.toNat = 0xc0 + unit / 0x40 :=
        toNat_toUInt8 (by omega)
      have hsecond : (0x80 + unit % 0x40).toUInt8.toNat = 0x80 + unit % 0x40 :=
        toNat_toUInt8 (by omega)
      have hvalue : (0xc0 + unit / 0x40) % 0x20 * 0x40 + (0x80 + unit % 0x40) % 0x40 = unit := by
        omega
      rw [if_pos htwo, List.cons_append, List.singleton_append,
        unitsFrom_cons_of_two (by rw [hfirst]; omega), sixBits, hfirst, hsecond, hvalue]
    · have hfirst : (0xe0 + unit / 0x1000).toUInt8.toNat = 0xe0 + unit / 0x1000 :=
        toNat_toUInt8 (by omega)
      have hsecond : (0x80 + unit / 0x40 % 0x40).toUInt8.toNat = 0x80 + unit / 0x40 % 0x40 :=
        toNat_toUInt8 (by omega)
      have hthird : (0x80 + unit % 0x40).toUInt8.toNat = 0x80 + unit % 0x40 :=
        toNat_toUInt8 (by omega)
      have hvalue : (0xe0 + unit / 0x1000) % 0x10 * 0x1000 +
          (0x80 + unit / 0x40 % 0x40) % 0x40 * 0x40 + (0x80 + unit % 0x40) % 0x40 = unit := by
        omega
      rw [if_neg htwo, List.cons_append, List.cons_append, List.singleton_append,
        unitsFrom_cons_of_three (by rw [hfirst]; omega), sixBits, sixBits, hfirst, hsecond, hthird,
        hvalue]

/-- The bytes of a unit start none of four bytes, and zero is not among them. -/
theorem bounds_of_mem_bytesOf {unit : Nat} (hu : unit < 0x10000) {b : UInt8}
    (hb : b ∈ bytesOf unit) : 0 < b ∧ b < 0xf0 := by
  -- Each byte is the image of a number in these bounds, whatever the length of the unit.
  have himage : ∀ n, 0 < n → n < 0xf0 → 0 < n.toUInt8 ∧ n.toUInt8 < 0xf0 := by
    intro n hpos hlt
    have hnat : n.toUInt8.toNat = n := toNat_toUInt8 (by omega)
    rw [UInt8.lt_iff_toNat_lt, UInt8.lt_iff_toNat_lt, hnat]
    exact ⟨hpos, hlt⟩
  rw [bytesOf] at hb
  by_cases hone : unit ≠ 0 ∧ unit < 0x80
  · rw [if_pos hone, List.mem_singleton] at hb
    subst hb
    exact himage unit (by omega) (by omega)
  · rw [if_neg hone] at hb
    by_cases htwo : unit < 0x800
    · rw [if_pos htwo] at hb
      simp only [List.mem_cons, List.not_mem_nil, or_false] at hb
      rcases hb with rfl | rfl
      · exact himage _ (by omega) (by omega)
      · exact himage _ (by omega) (by omega)
    · rw [if_neg htwo] at hb
      simp only [List.mem_cons, List.not_mem_nil, or_false] at hb
      rcases hb with rfl | rfl | rfl
      · exact himage _ (by omega) (by omega)
      · exact himage _ (by omega) (by omega)
      · exact himage _ (by omega) (by omega)

/-- Units are found again from their bytes. -/
theorem unitsFrom_flatMap_bytesOf {units : List Nat} (hu : ∀ u ∈ units, u < 0x10000)
    (done : List Nat) : unitsFrom done (units.flatMap bytesOf) = done.reverse ++ units := by
  induction units generalizing done with
  | nil =>
    rw [List.flatMap_nil, unitsFrom, List.append_nil]
  | cons u units ih =>
    rw [List.flatMap_cons, unitsFrom_bytesOf (hu u (by simp)),
      ih (fun v hv => hu v (by simp [hv])), List.reverse_cons, List.append_assoc]
    rfl

/-! ### Characters -/

/-- A character is no half of a pair. -/
theorem toNat_bounds (c : Char) :
    c.toNat < 0xd800 ∨ 0xe000 ≤ c.toNat ∧ c.toNat < 0x110000 := by
  rcases c.valid with h | ⟨h, h'⟩
  · exact .inl h
  · refine .inr ⟨?_, h'⟩
    change 0xdfff < c.toNat at h
    omega

/-- The units of a character are 16-bit numbers. -/
theorem lt_of_mem_unitsOf {c : Char} {u : Nat} (hu : u ∈ unitsOf c) : u < 0x10000 := by
  have hc := toNat_bounds c
  rw [unitsOf] at hu
  split at hu
  · next h => rw [List.mem_singleton.1 hu]; exact h
  · next h =>
    simp only [List.mem_cons, List.not_mem_nil, or_false] at hu
    omega

/-- A character is found again from its units. -/
theorem charsFrom_unitsOf (c : Char) (done : List Char) (rest : List Nat) :
    charsFrom done (unitsOf c ++ rest) = charsFrom (c :: done) rest := by
  have hc := toNat_bounds c
  rw [unitsOf]
  -- One unit, unless the character lies beyond the first plane: then a high and a low surrogate.
  by_cases hone : c.toNat < 0x10000
  · have hhigh : isHigh c.toNat = false := by
      simp only [isHigh, Bool.and_eq_false_iff, decide_eq_false_iff_not]
      omega
    have hlow : isLow c.toNat = false := by
      simp only [isLow, Bool.and_eq_false_iff, decide_eq_false_iff_not]
      omega
    have hsingle : single c.toNat = c := by
      rw [single, hhigh, hlow]
      exact Char.ofNat_toNat c
    rw [if_pos hone, List.singleton_append]
    -- The reader looks one unit ahead, so what follows matters even for a character of one unit.
    cases rest with
    | nil => rw [charsFrom, charsFrom, hsingle]
    | cons v rest =>
      rw [charsFrom, hhigh, hsingle]
      rfl
  · have hhigh : isHigh (0xd800 + (c.toNat - 0x10000) / 0x400) = true := by
      simp only [isHigh, Bool.and_eq_true, decide_eq_true_eq]
      omega
    have hlow : isLow (0xdc00 + (c.toNat - 0x10000) % 0x400) = true := by
      simp only [isLow, Bool.and_eq_true, decide_eq_true_eq]
      omega
    have hvalue : 0x10000 + (0xd800 + (c.toNat - 0x10000) / 0x400 - 0xd800) * 0x400 +
        (0xdc00 + (c.toNat - 0x10000) % 0x400 - 0xdc00) = c.toNat := by
      omega
    rw [if_neg hone, List.cons_append, List.singleton_append, charsFrom, hhigh, hlow, hvalue,
      Char.ofNat_toNat]
    rfl

/-- Characters are found again from their units. -/
theorem charsFrom_flatMap_unitsOf (cs done : List Char) :
    charsFrom done (cs.flatMap unitsOf) = done.reverse ++ cs := by
  induction cs generalizing done with
  | nil => rw [List.flatMap_nil, charsFrom, List.append_nil]
  | cons c cs ih =>
    rw [List.flatMap_cons, charsFrom_unitsOf, ih, List.reverse_cons, List.append_assoc]
    rfl

/-- A text is found again from its bytes. -/
theorem decode_encode (text : String) : decode (encode text) = text := by
  have hunits : ∀ u ∈ text.toList.flatMap unitsOf, u < 0x10000 := by
    intro u hu
    obtain ⟨c, -, hc⟩ := List.mem_flatMap.1 hu
    exact lt_of_mem_unitsOf hc
  have hencode : encode text = (text.toList.flatMap unitsOf).flatMap bytesOf := by
    rw [encode, List.flatMap_assoc]
  rw [decode, hencode, unitsFrom_flatMap_bytesOf hunits, List.reverse_nil, List.nil_append,
    charsFrom_flatMap_unitsOf, List.reverse_nil, List.nil_append, String.ofList_toList]

/-- The encoding of a text gives the text back, and its bytes are between 1 and `0xef`: a zero is
spelled in two bytes, and a supplementary character in two units of three. -/
theorem encode_invertible (text : String) :
    decode (encode text) = text ∧ ∀ b ∈ encode text, 0 < b ∧ b < 0xf0 := by
  refine ⟨decode_encode text, fun b hb => ?_⟩
  obtain ⟨c, -, hc⟩ := List.mem_flatMap.1 hb
  obtain ⟨unit, hunit, hbyte⟩ := List.mem_flatMap.1 hc
  exact bounds_of_mem_bytesOf (lt_of_mem_unitsOf hunit) hbyte

-- A zero takes two bytes, and a supplementary character takes six.
example : encode "\x00😀" = [0xc0, 0x80, 0xed, 0xa0, 0xbd, 0xed, 0xb8, 0x80] := by decide

end Unscramble.Binary.ModifiedUtf8
