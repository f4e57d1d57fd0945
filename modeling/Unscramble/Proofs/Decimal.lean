import Mathlib.Algebra.Order.Field.Rat
import Mathlib.Tactic.Positivity
import Mathlib.Tactic.Ring
import Mathlib.Tactic.Linarith
import Mathlib.Tactic.FieldSimp
import Unscramble.Proofs.Quoting

/-! # Decimals read back

The text of a floating-point number reads back as a decimal that rounds to the number, and nothing
rounds to two numbers of one format. So the text tells the number, except that all NaNs have one
text.

Main definitions: `read`, `Binary.Rounds`, `Format.Canonical`. Main statements: `read_text`,
`rounds_shortest`, `Format.eq_of_rounds`, `Format.text_inj`. -/

namespace Unscramble.Decimal

/-! ### Reading decimals -/

/-- The number that a decimal stands for. -/
def Numeral.value (d : Numeral) : ℚ :=
  d.digits * 10 ^ d.exponent

/-- Reads an integer; digits without a sign are a natural number, and no digits are zero. -/
def readInt : List Char → Int
  | '-' :: cs => -(Nat.ofDigitChars 10 cs 0 : Int)
  | cs => Nat.ofDigitChars 10 cs 0

/-- Reads a decimal: digits, a point and the digits of a fraction, and a power of ten behind an `e`.
The parts behind the point and behind the `e` may be left out. -/
def read (cs : List Char) : ℚ :=
  let mantissa := cs.takeWhile (· != 'e')
  let power := (cs.dropWhile (· != 'e')).drop 1
  let whole := mantissa.takeWhile (· != '.')
  let fraction := (mantissa.dropWhile (· != '.')).drop 1
  Nat.ofDigitChars 10 (whole ++ fraction) 0 * 10 ^ (readInt power - fraction.length)

/-- An integer is read back. -/
theorem readInt_toString (n : Int) : readInt (toString n).toList = n := by
  rw [Int.toString_eq_repr, Int.repr_eq_if]
  split
  · next h =>
    rw [Nat.toList_repr]
    have hsign : ∀ cs, Nat.toDigits 10 n.toNat ≠ '-' :: cs := by
      intro cs h
      have hmem : '-' ∈ Nat.toDigits 10 n.toNat := h ▸ List.mem_cons_self
      exact absurd (Nat.isDigit_of_mem_toDigits (by decide) (by decide) hmem) (by decide)
    rw [readInt, Nat.ofDigitChars_ten_toDigits]
    · omega
    · exact hsign
  · rw [String.toList_append, Nat.toList_repr]
    show -(Nat.ofDigitChars 10 (Nat.toDigits 10 _) 0 : Int) = n
    rw [Nat.ofDigitChars_ten_toDigits]
    omega

/-- A run of characters ends where the first of another kind stands. -/
theorem span_stop {stop : Char} {front : List Char} (h : stop ∉ front) (rest : List Char) :
    (front ++ stop :: rest).takeWhile (· != stop) = front ∧
      (front ++ stop :: rest).dropWhile (· != stop) = stop :: rest := by
  have hfront : ∀ c ∈ front, (c != stop) = true := by
    intro c hc
    rw [bne_iff_ne]
    rintro rfl
    exact h hc
  rw [List.takeWhile_append_of_pos hfront, List.dropWhile_append_of_pos hfront]
  simp

/-- Without the character that ends it a run takes everything. -/
theorem span_all {stop : Char} {cs : List Char} (h : stop ∉ cs) :
    cs.takeWhile (· != stop) = cs ∧ cs.dropWhile (· != stop) = [] := by
  have hall : ∀ c ∈ cs, (c != stop) = true := by
    intro c hc
    rw [bne_iff_ne]
    rintro rfl
    exact h hc
  exact ⟨List.takeWhile_eq_self_iff.2 hall, List.dropWhile_eq_nil_iff.2 hall⟩

/-- Digits alone are a natural number. -/
theorem read_whole {cs : List Char} (hpoint : '.' ∉ cs) (hpower : 'e' ∉ cs) :
    read cs = Nat.ofDigitChars 10 cs 0 := by
  rw [read, (span_all hpower).1, (span_all hpower).2, (span_all hpoint).1, (span_all hpoint).2]
  simp [readInt]

/-- The digits behind the point count less by as many powers of ten. -/
theorem read_point {whole fraction : List Char} (hpoint : '.' ∉ whole) (hpower : 'e' ∉ whole)
    (hpower' : 'e' ∉ fraction) : read (whole ++ '.' :: fraction) =
      Nat.ofDigitChars 10 (whole ++ fraction) 0 * 10 ^ (-fraction.length : ℤ) := by
  have hall : 'e' ∉ whole ++ '.' :: fraction := by
    rw [List.mem_append, List.mem_cons, not_or, not_or]
    exact ⟨hpower, by decide, hpower'⟩
  rw [read, (span_all hall).1, (span_all hall).2, (span_stop hpoint fraction).1,
    (span_stop hpoint fraction).2]
  simp [readInt]

/-- A power of ten behind the digits multiplies what these stand for. -/
theorem read_power {cs : List Char} (hpower : 'e' ∉ cs) (n : Int) :
    read (cs ++ 'e' :: (toString n).toList) = read cs * 10 ^ n := by
  have hten : (10 : ℚ) ≠ 0 := by norm_num
  rw [read, read, (span_stop hpower _).1, (span_stop hpower _).2, (span_all hpower).1,
    (span_all hpower).2, List.drop_succ_cons, List.drop_zero, readInt_toString]
  rw [mul_assoc, ← zpow_add₀ hten]
  simp [readInt, sub_eq_neg_add, add_comm]

/-- Zeros have neither a point nor a power of ten. -/
theorem not_mem_replicate_zero (n : Nat) :
    '.' ∉ List.replicate n '0' ∧ 'e' ∉ List.replicate n '0' := by
  simp

section

variable {digits : List Char} {m : Nat} {n : Int} (hdigits : Nat.ofDigitChars 10 digits 0 = m)
  (hpoint : '.' ∉ digits) (hpower : 'e' ∉ digits)

include hdigits hpoint hpower

/-- Digits of which the first stands before a point, with a power of ten behind them. -/
theorem read_scientific (hne : digits ≠ []) :
    read (String.ofList (digits.take 1) ++ (if (digits.drop 1).isEmpty then ""
        else "." ++ String.ofList (digits.drop 1)) ++ "e" ++
          toString (n + digits.length - 1)).toList = m * 10 ^ n := by
  have hten : (10 : ℚ) ≠ 0 := by norm_num
  obtain ⟨c, fraction, rfl⟩ := List.exists_cons_of_ne_nil hne
  obtain ⟨hpointc, hpointf⟩ := not_or.1 (mt List.mem_cons.2 hpoint)
  obtain ⟨hpowerc, hpowerf⟩ := not_or.1 (mt List.mem_cons.2 hpower)
  have hmantissa : ∃ mantissa : List Char, 'e' ∉ mantissa ∧
      (String.ofList ((c :: fraction).take 1) ++ (if ((c :: fraction).drop 1).isEmpty then ""
        else "." ++ String.ofList ((c :: fraction).drop 1))).toList = mantissa ∧
      read mantissa = m * 10 ^ (-fraction.length : ℤ) := by
    cases fraction with
    | nil =>
      refine ⟨[c], hpower, by simp, ?_⟩
      rw [read_whole hpoint hpower, hdigits]
      simp
    | cons c' fraction =>
      refine ⟨[c] ++ '.' :: (c' :: fraction), ?_, by simp, ?_⟩
      · simpa [hpowerc] using hpowerf
      · rw [read_point (by simpa using hpointc) (by simpa using hpowerc) hpowerf]
        rw [List.singleton_append, hdigits]
  obtain ⟨mantissa, hplain, htext, hread⟩ := hmantissa
  rw [String.toList_append, String.toList_append, htext, List.append_assoc,
    show "e".toList = ['e'] from rfl, List.singleton_append, read_power hplain, hread, mul_assoc,
    ← zpow_add₀ hten, List.length_cons]
  congr 2
  push_cast
  ring

omit hpoint in
/-- Digits that stand behind a point and zeros. -/
theorem read_small (hsmall : n + digits.length - 1 < 0) :
    read ("0." ++ zeros (-(n + digits.length - 1) - 1).toNat ++ String.ofList digits).toList =
      m * 10 ^ n := by
  set count := (-(n + digits.length - 1) - 1).toNat with hcount
  have htext : ("0." ++ zeros count ++ String.ofList digits).toList =
      ['0'] ++ '.' :: (List.replicate count '0' ++ digits) := by
    simp [zeros]
  have hfraction : 'e' ∉ List.replicate count '0' ++ digits := by
    rw [List.mem_append, not_or]
    exact ⟨(not_mem_replicate_zero count).2, hpower⟩
  have hlength : (-(List.replicate count '0' ++ digits).length : ℤ) = n := by
    rw [List.length_append, List.length_replicate]
    omega
  rw [htext, read_point (by decide) (by decide) hfraction, hlength,
    show ['0'] = List.replicate 1 '0' from rfl, Nat.ofDigitChars_append, Nat.ofDigitChars_append,
    Nat.ofDigitChars_replicate_zero, Nat.ofDigitChars_replicate_zero, Nat.mul_zero, hdigits]

/-- Digits with zeros between them and the point. -/
theorem read_large (hn : 0 ≤ n) :
    read (String.ofList digits ++ zeros n.toNat ++ ".0").toList = m * 10 ^ n := by
  have htext : (String.ofList digits ++ zeros n.toNat ++ ".0").toList =
      (digits ++ List.replicate n.toNat '0') ++ '.' :: List.replicate 1 '0' := by
    simp [zeros]
  have hwhole : '.' ∉ digits ++ List.replicate n.toNat '0' ∧
      'e' ∉ digits ++ List.replicate n.toNat '0' := by
    rw [List.mem_append, List.mem_append, not_or, not_or]
    exact ⟨⟨hpoint, (not_mem_replicate_zero _).1⟩, hpower, (not_mem_replicate_zero _).2⟩
  have hpow : (10 : ℚ) ^ n = 10 ^ n.toNat := by
    rw [← zpow_natCast, Int.toNat_of_nonneg hn]
  rw [htext, read_point hwhole.1 hwhole.2 (not_mem_replicate_zero 1).2, Nat.ofDigitChars_append,
    Nat.ofDigitChars_append, hdigits, Nat.ofDigitChars_replicate_zero,
    Nat.ofDigitChars_replicate_zero, hpow, List.length_replicate]
  push_cast
  rw [zpow_neg, zpow_one]
  ring

/-- Digits with the point between them. -/
theorem read_between (hn : n < 0) (hlead : 0 ≤ n + digits.length - 1) :
    read (String.ofList (digits.take ((digits.length : ℤ) + n).toNat) ++ "." ++
      String.ofList (digits.drop ((digits.length : ℤ) + n).toNat)).toList = m * 10 ^ n := by
  set whole := ((digits.length : ℤ) + n).toNat with hwhole
  have htext : (String.ofList (digits.take whole) ++ "." ++
      String.ofList (digits.drop whole)).toList =
        digits.take whole ++ '.' :: digits.drop whole := by
    simp
  have hlength : (-(digits.drop whole).length : ℤ) = n := by
    rw [List.length_drop]
    omega
  rw [htext, read_point (fun h => hpoint (List.mem_of_mem_take h))
    (fun h => hpower (List.mem_of_mem_take h)) (fun h => hpower (List.mem_of_mem_drop h)),
    List.take_append_drop, hdigits, hlength]

end

/-- **The text of a decimal reads back as it.** -/
theorem read_text (d : Numeral) : read d.text.toList = d.value := by
  have hdigits : Nat.ofDigitChars 10 (Nat.toDigits 10 d.digits) 0 = d.digits :=
    Nat.ofDigitChars_ten_toDigits
  have hpoint : '.' ∉ Nat.toDigits 10 d.digits := not_mem_toDigits (by decide) _
  have hpower : 'e' ∉ Nat.toDigits 10 d.digits := not_mem_toDigits (by decide) _
  rw [Numeral.text, Numeral.value]
  dsimp only
  -- where the point stands depends on the size of the number
  split
  · exact read_scientific hdigits hpoint hpower Nat.toDigits_ne_nil
  · split
    · next hsmall => exact read_small hdigits hpower hsmall
    · next hlarge =>
      split
      · next hexponent => exact read_large hdigits hpoint hpower hexponent
      · next hexponent =>
        exact read_between hdigits hpoint hpower (Int.not_le.1 hexponent) (Int.not_lt.1 hlarge)

/-! ### Rounding -/

/-- The number that a binary number stands for. -/
def Binary.value (b : Binary) : ℚ :=
  b.m * 2 ^ b.q

/-- The lower end of the interval that rounds to a binary number. -/
def Binary.low (b : Binary) : ℚ :=
  (4 * b.m - if b.atPowerOfTwo then 1 else 2) * 2 ^ (b.q - 2)

/-- The upper end of the interval that rounds to a binary number. -/
def Binary.high (b : Binary) : ℚ :=
  (4 * b.m + 2) * 2 ^ (b.q - 2)

/-- A number rounds to a binary number; halfway numbers round to an even significand. -/
def Binary.Rounds (b : Binary) (x : ℚ) : Prop :=
  if b.m % 2 = 0 then b.low ≤ x ∧ x ≤ b.high else b.low < x ∧ x < b.high

/-- A power is a fraction of powers with natural exponents. -/
theorem pow_toNat {a : ℚ} (ha : a ≠ 0) (n : Int) : a ^ n.toNat = a ^ n * a ^ (-n).toNat := by
  rw [← zpow_natCast, ← zpow_natCast, ← zpow_add₀ ha]
  congr 1
  omega

/-- The numerators over the common denominator, for units of a power of ten. -/
theorem exists_scale (q g : Int) : ∃ scale : ℚ, 0 < scale ∧
    (∀ a : Nat, ((a * Nat.pow 2 (q - 2).toNat * Nat.pow 10 (-g).toNat : Nat) : ℚ) =
      a * 2 ^ (q - 2) * scale) ∧
    ∀ d : Nat, ((d * (Nat.pow 2 (2 - q).toNat * Nat.pow 10 g.toNat) : Nat) : ℚ) =
      d * 10 ^ g * scale := by
  have htwo : (2 : ℚ) ^ (q - 2).toNat = 2 ^ (q - 2) * 2 ^ (2 - q).toNat := by
    rw [pow_toNat two_ne_zero, neg_sub]
  have hten : (10 : ℚ) ^ g.toNat = 10 ^ g * 10 ^ (-g).toNat := pow_toNat (by norm_num) g
  refine ⟨2 ^ (2 - q).toNat * 10 ^ (-g).toNat, by positivity, fun a => ?_, fun d => ?_⟩
  · rw [Nat.pow_eq, Nat.pow_eq]
    push_cast
    rw [htwo]
    ring
  · rw [Nat.pow_eq, Nat.pow_eq]
    push_cast
    rw [hten]
    ring

/-- A number of units of a power of ten lies in the interval if it rounds to the binary number. -/
theorem contains_inUnits_iff {b : Binary} (hm : 0 < b.m) (g : Int) (d : Nat) :
    (b.interval.inUnits g).contains d = true ↔ b.Rounds (d * 10 ^ g) := by
  obtain ⟨scale, hscale, hup, hdown⟩ := exists_scale b.q g
  have hbelow : ((4 * b.m - if b.atPowerOfTwo then 1 else 2 : Nat) : ℚ) =
      4 * b.m - if b.atPowerOfTwo then 1 else 2 := by
    rw [Nat.cast_sub (by split <;> omega)]
    split <;> push_cast <;> rfl
  have habove : ((4 * b.m + 2 : Nat) : ℚ) = 4 * b.m + 2 := by push_cast; rfl
  have hlow : ((b.interval.inUnits g).low : ℚ) = b.low * scale := by
    rw [Binary.low, ← hbelow]
    exact hup _
  have hhigh : ((b.interval.inUnits g).high : ℚ) = b.high * scale := by
    rw [Binary.high, ← habove]
    exact hup _
  have hd : ((d * (b.interval.inUnits g).den : Nat) : ℚ) = d * 10 ^ g * scale := hdown d
  have hclosed : (b.interval.inUnits g).closed = (b.m % 2 == 0) := rfl
  rw [Interval.contains, Binary.Rounds, hclosed]
  by_cases heven : b.m % 2 = 0
  · rw [if_pos (by simpa using heven), if_pos heven, Bool.and_eq_true, decide_eq_true_eq,
      decide_eq_true_eq, ← Nat.cast_le (α := ℚ), ← Nat.cast_le (α := ℚ), hlow, hhigh, hd,
      mul_le_mul_iff_left₀ hscale, mul_le_mul_iff_left₀ hscale]
  · rw [if_neg (by simpa using heven), if_neg heven, Bool.and_eq_true, decide_eq_true_eq,
      decide_eq_true_eq, ← Nat.cast_lt (α := ℚ), ← Nat.cast_lt (α := ℚ), hlow, hhigh, hd,
      mul_lt_mul_iff_left₀ hscale, mul_lt_mul_iff_left₀ hscale]

/-! ### The search -/

/-- What is found next to the value lies in the interval. -/
theorem contains_of_neighbour? {i : Interval} {d : Nat} (h : i.neighbour? = some d) :
    i.contains d = true := by
  rw [Interval.neighbour?] at h
  split at h
  · next hlow hhigh =>
    split at h <;> cases h
    · exact hlow
    · exact hhigh
  · next hlow _ =>
    cases h
    exact hlow
  · next _ hhigh =>
    cases h
    exact hhigh
  · cases h

/-- Something is found next to the value if a unit is less than the distance of the value to the
upper end. -/
theorem isSome_neighbour? {i : Interval} (hden : 0 < i.den) (hlow : i.low < i.value)
    (hhigh : i.value + i.den < i.high) : i.neighbour?.isSome = true := by
  have hcontains : i.contains (i.value / i.den + 1) = true := by
    have hbelow : i.value < (i.value / i.den + 1) * i.den := by
      rw [Nat.mul_comm]
      exact Nat.lt_mul_div_succ _ hden
    have habove : (i.value / i.den + 1) * i.den ≤ i.value + i.den := by
      rw [Nat.add_mul, Nat.one_mul]
      exact Nat.add_le_add_right (Nat.div_mul_le_self _ _) _
    rw [Interval.contains]
    split <;> rw [Bool.and_eq_true, decide_eq_true_eq, decide_eq_true_eq] <;> omega
  rw [Interval.neighbour?]
  rw [hcontains]
  cases i.contains (i.value / i.den)
  · rfl
  · dsimp only
    split <;> rfl

/-- What the search finds lies in the interval, in units of its power of ten. -/
theorem contains_of_search {i : Interval} {magnitude : Int} {count fuel : Nat} {d : Numeral}
    (h : i.search magnitude count fuel = some d) :
    (i.inUnits d.exponent).contains d.digits = true := by
  induction fuel generalizing count with
  | zero => cases h
  | succ fuel ih =>
    rw [Interval.search] at h
    split at h
    · next hfound =>
      cases h
      exact contains_of_neighbour? hfound
    · exact ih h

/-- The search finds something if there is something to find with one of the counts of digits. -/
theorem isSome_search {i : Interval} {magnitude : Int} {count fuel k : Nat} (hk : k < fuel)
    (h : ((i.inUnits (magnitude + 1 - (count + k : Nat))).neighbour?).isSome = true) :
    (i.search magnitude count fuel).isSome = true := by
  induction fuel generalizing count k with
  | zero => omega
  | succ fuel ih =>
    rw [Interval.search]
    split
    · rfl
    · next hnone =>
      cases k with
      | zero =>
        rw [Nat.add_zero, hnone] at h
        cases h
      | succ k =>
        refine ih (Nat.lt_of_succ_lt_succ hk) ?_
        rw [show count + 1 + k = count + (k + 1) by omega]
        exact h

/-- Multiplying by ten often enough reaches the denominator. -/
theorem le_leadingZeros {value den fuel : Nat} (h : den ≤ value * 10 ^ fuel) :
    den ≤ value * 10 ^ leadingZeros value den fuel := by
  induction fuel generalizing value with
  | zero => exact h
  | succ fuel ih =>
    rw [leadingZeros]
    split
    · next hle => simpa using hle
    · rw [Nat.pow_succ', ← Nat.mul_assoc]
      refine ih ?_
      rw [Nat.pow_succ', ← Nat.mul_assoc] at h
      exact h

/-- The power of ten of the leading digit is at most the value. -/
theorem magnitude_le {i : Interval} (hden : 0 < i.den) (hvalue : i.den ≤ i.value * 10 ^ 400) :
    (10 : ℚ) ^ i.magnitude * i.den ≤ i.value := by
  rw [Interval.magnitude]
  split
  · next hle =>
    set n := i.value / i.den with hn
    have hpos : 0 < n := Nat.div_pos hle hden
    -- a number of some digits is at least the power of ten of one digit less
    obtain ⟨k, hk⟩ : ∃ k, (Nat.toDigits 10 n).length = k + 1 :=
      Nat.exists_eq_succ_of_ne_zero Nat.length_toDigits_pos.ne'
    have hdigits : 10 ^ k ≤ n := by
      cases k with
      | zero => exact hpos
      | succ k =>
        by_contra hlt
        have hshort := (Nat.length_toDigits_le_iff (by decide) (Nat.succ_pos k)).2
          (Nat.lt_of_not_le hlt)
        omega
    have hnat : 10 ^ k * i.den ≤ i.value :=
      (Nat.mul_le_mul_right _ hdigits).trans (Nat.div_mul_le_self _ _)
    rw [hk, Nat.cast_succ, add_sub_cancel_right, zpow_natCast]
    exact_mod_cast hnat
  · have hnat := le_leadingZeros hvalue
    rw [zpow_neg, zpow_natCast, inv_mul_le_iff₀ (by positivity), mul_comm]
    exact_mod_cast hnat

/-- Zeros at the end of the digits make no difference. -/
theorem value_strip (d : Numeral) (fuel : Nat) : (d.strip fuel).value = d.value := by
  have hten : (10 : ℚ) ≠ 0 := by norm_num
  induction fuel generalizing d with
  | zero => rfl
  | succ fuel ih =>
    rw [Numeral.strip]
    split
    · next h =>
      have hdigits : d.digits = 10 * (d.digits / 10) := by
        have hmod : d.digits % 10 = 0 := by simpa using (Bool.and_eq_true_iff.1 h).2
        omega
      rw [ih, Numeral.value, Numeral.value]
      conv_rhs => rw [hdigits]
      push_cast
      rw [zpow_add₀ hten]
      ring
    · rfl

section

variable {b : Binary}

/-- The common denominator is positive. -/
theorem den_interval_pos (b : Binary) : 0 < b.interval.den :=
  Nat.pow_pos (by decide)

/-- A binary number of these exponents is no less than a power of ten of 400 leading zeros. -/
theorem den_le_value (hm : 0 < b.m) (hq : -1074 ≤ b.q) :
    b.interval.den ≤ b.interval.value * 10 ^ 400 := by
  have hone : 1 ≤ b.interval.value := Nat.mul_pos (by omega) (Nat.pow_pos (by decide))
  have height : ∀ n : Nat, 2 ^ (3 * n) ≤ 10 ^ n := by
    intro n
    rw [Nat.pow_mul]
    exact Nat.pow_le_pow_left (by decide) n
  calc b.interval.den ≤ 2 ^ (3 * 400) := Nat.pow_le_pow_right (by decide) (by omega)
    _ ≤ 10 ^ 400 := height 400
    _ ≤ b.interval.value * 10 ^ 400 := Nat.le_mul_of_pos_left _ hone

/-- The power of ten of the first digit is not more than the number. -/
theorem pow_magnitude_le (hm : 0 < b.m) (hq : -1074 ≤ b.q) :
    (10 : ℚ) ^ b.interval.magnitude ≤ 4 * b.m * 2 ^ (b.q - 2) := by
  have hden := den_interval_pos b
  have hle := magnitude_le hden (den_le_value hm hq)
  have hpow : (2 : ℚ) ^ (b.q - 2).toNat = 2 ^ (b.q - 2) * 2 ^ (2 - b.q).toNat := by
    rw [pow_toNat two_ne_zero, neg_sub]
  have hscaled : (b.interval.value : ℚ) = 4 * b.m * 2 ^ (b.q - 2) * b.interval.den := by
    show ((4 * b.m * 2 ^ (b.q - 2).toNat : Nat) : ℚ) = _ * ((2 ^ (2 - b.q).toNat : Nat) : ℚ)
    push_cast
    rw [hpow]
    ring
  rw [hscaled] at hle
  exact le_of_mul_le_mul_right hle (by exact_mod_cast hden)

/-- With twenty digits a unit is less than the distance to the upper end. -/
theorem unit_lt (hm : 0 < b.m) (hm' : b.m < 2 ^ 53) (hq : -1074 ≤ b.q) :
    (10 : ℚ) ^ (b.interval.magnitude + 1 - (1 + 19 : Nat)) < 2 * 2 ^ (b.q - 2) := by
  have hten : (10 : ℚ) ≠ 0 := by norm_num
  have hsmall : (4 * b.m : ℚ) * 10 ^ (-19 : ℤ) < 2 := by
    have hm' : (b.m : ℚ) < 2 ^ 53 := by exact_mod_cast hm'
    rw [show (10 : ℚ) ^ (-19 : ℤ) = 1 / 10 ^ 19 by norm_num]
    linarith
  have hpos : (0 : ℚ) < 2 ^ (b.q - 2) := by positivity
  calc (10 : ℚ) ^ (b.interval.magnitude + 1 - (1 + 19 : Nat))
      = 10 ^ b.interval.magnitude * 10 ^ (-19 : ℤ) := by
        rw [← zpow_add₀ hten]
        congr 1
        omega
    _ ≤ 4 * b.m * 2 ^ (b.q - 2) * 10 ^ (-19 : ℤ) :=
        mul_le_mul_of_nonneg_right (pow_magnitude_le hm hq) (by positivity)
    _ = 4 * b.m * 10 ^ (-19 : ℤ) * 2 ^ (b.q - 2) := by ring
    _ < 2 * 2 ^ (b.q - 2) := mul_lt_mul_of_pos_right hsmall hpos

/-- In units that are less than the distance to the upper end, some decimal rounds to the number. -/
theorem isSome_neighbour?_inUnits {g : Int} (hm : 0 < b.m)
    (hunit : (10 : ℚ) ^ g < 2 * 2 ^ (b.q - 2)) :
    ((b.interval.inUnits g).neighbour?).isSome = true := by
  obtain ⟨scale, hscale, hup, hdown⟩ := exists_scale b.q g
  refine isSome_neighbour? (Nat.mul_pos (den_interval_pos b) (Nat.pow_pos (by decide))) ?_ ?_
  · refine Nat.mul_lt_mul_of_pos_right (Nat.mul_lt_mul_of_pos_right ?_ (Nat.pow_pos (by decide)))
      (Nat.pow_pos (by decide))
    split <;> omega
  · have hvalue : ((b.interval.inUnits g).value : ℚ) =
        ((4 * b.m : Nat) : ℚ) * 2 ^ (b.q - 2) * scale := hup (4 * b.m)
    have hhigh : ((b.interval.inUnits g).high : ℚ) =
        ((4 * b.m + 2 : Nat) : ℚ) * 2 ^ (b.q - 2) * scale := hup (4 * b.m + 2)
    have hden : ((b.interval.inUnits g).den : ℚ) = 10 ^ g * scale := by
      rw [← Nat.one_mul (b.interval.inUnits g).den]
      exact (hdown 1).trans (by rw [Nat.cast_one, one_mul])
    rw [← Nat.cast_lt (α := ℚ), Nat.cast_add, hvalue, hhigh, hden]
    push_cast
    calc 4 * (b.m : ℚ) * 2 ^ (b.q - 2) * scale + 10 ^ g * scale
        < 4 * (b.m : ℚ) * 2 ^ (b.q - 2) * scale + 2 * 2 ^ (b.q - 2) * scale := by
          gcongr
      _ = (4 * b.m + 2) * 2 ^ (b.q - 2) * scale := by ring

/-- **The decimal that is found rounds to the binary number.** -/
theorem rounds_shortest (hm : 0 < b.m) (hm' : b.m < 2 ^ 53) (hq : -1074 ≤ b.q) :
    b.Rounds (shortest b).value := by
  have hfound := isSome_neighbour?_inUnits hm (unit_lt hm hm' hq)
  obtain ⟨d, hd⟩ := Option.isSome_iff_exists.1 (isSome_search (by decide : 19 < 20) hfound)
  have hshortest : shortest b = d.strip 20 := by
    rw [shortest, hd]
    rfl
  rw [hshortest, value_strip]
  exact (contains_inUnits_iff hm d.exponent d.digits).1 (contains_of_search hd)

end

/-! ### Numbers of one format -/

namespace Format

/-- The exponent of two of the least numbers of a format. -/
def least (f : Format) : Int :=
  1 - ((2 ^ (f.exponentBits - 1) : Nat) - 1 + f.fractionBits : Int)

/-- The significands and exponents that a format has. Greater exponents come with all bits of the
significand. -/
structure Canonical (f : Format) (b : Binary) : Prop where
  /-- The number is positive. -/
  pos : 0 < b.m
  /-- The significand has no more bits than the format has. -/
  lt : b.m < 2 ^ (f.fractionBits + 1)
  /-- The exponent is one of the format. -/
  least_le : f.least ≤ b.q
  /-- The leading bit is only missing for the least exponent. -/
  normal : b.q = f.least ∨ 2 ^ f.fractionBits ≤ b.m
  /-- Where the gap to the next smaller number is smaller. -/
  gap : b.atPowerOfTwo = true ↔ b.m = 2 ^ f.fractionBits ∧ b.q ≠ f.least

variable {f : Format} {b b' : Binary} {x : ℚ}

/-- What rounds to a number lies between the ends of its interval, and strictly if the significand
is odd. -/
theorem Rounds.bounds (h : b.Rounds x) :
    b.low ≤ x ∧ x ≤ b.high ∧ (b.m % 2 = 1 → b.low < x ∧ x < b.high) := by
  rw [Binary.Rounds] at h
  split at h
  · next heven => exact ⟨h.1, h.2, fun hodd => absurd hodd (by omega)⟩
  · exact ⟨h.1.le, h.2.le, fun _ => h⟩

/-- Nothing rounds to two numbers with one exponent. -/
theorem not_lt_of_rounds (hq : b.q = b'.q) (h : b.Rounds x) (h' : b'.Rounds x) : ¬b.m < b'.m := by
  intro hlt
  obtain ⟨-, hhigh, hstrict⟩ := Rounds.bounds h
  obtain ⟨hlow, -, hstrict'⟩ := Rounds.bounds h'
  have hpos : (0 : ℚ) < 2 ^ (b.q - 2) := by positivity
  have hbelow : (if b'.atPowerOfTwo then 1 else 2 : ℚ) ≤ 2 := by split <;> norm_num
  have hends : b.high ≤ b'.low := by
    have hnext : (b.m : ℚ) + 1 ≤ b'.m := by exact_mod_cast hlt
    rw [Binary.high, Binary.low, ← hq]
    exact mul_le_mul_of_nonneg_right (by linarith) hpos.le
  -- an end that two intervals share belongs to the one with the even significand only
  rcases Nat.mod_two_eq_zero_or_one b.m with heven | hodd
  · rcases Nat.mod_two_eq_zero_or_one b'.m with heven' | hodd'
    · have hfar : (b.m : ℚ) + 2 ≤ b'.m := by
        have hnat : b.m + 2 ≤ b'.m := by omega
        exact_mod_cast hnat
      have hapart : b.high < b'.low := by
        rw [Binary.high, Binary.low, ← hq]
        exact mul_lt_mul_of_pos_right (by linarith) hpos
      linarith
    · linarith [(hstrict' hodd').1]
  · linarith [(hstrict hodd).2]

/-- Nothing rounds to two numbers with different exponents. -/
theorem not_lt_of_rounds_of_canonical (hb : f.Canonical b) (hb' : f.Canonical b') (h : b.Rounds x)
    (h' : b'.Rounds x) : ¬b.q < b'.q := by
  intro hlt
  obtain ⟨-, hhigh, hstrict⟩ := Rounds.bounds h
  obtain ⟨hlow, -, -⟩ := Rounds.bounds h'
  have hpos : (0 : ℚ) < 2 ^ (b.q - 2) := by positivity
  have hgreat : b'.q ≠ f.least := by
    have hleast := hb.least_le
    omega
  have hnormal : 2 ^ f.fractionBits ≤ b'.m := hb'.normal.resolve_left hgreat
  have hm : b.m < 2 * 2 ^ f.fractionBits := by
    rw [← Nat.pow_succ']
    exact hb.lt
  obtain ⟨k, hk⟩ : ∃ k : ℕ, b'.q - 2 = b.q - 2 + (k + 1 : ℕ) := ⟨(b'.q - b.q - 1).toNat, by omega⟩
  have hscale : (2 : ℚ) ^ (b'.q - 2) = 2 ^ (b.q - 2) * 2 ^ (k + 1) := by
    rw [hk, zpow_add₀ two_ne_zero, zpow_natCast]
  set front : ℚ := 4 * b'.m - if b'.atPowerOfTwo then 1 else 2 with hfront
  have hfront : (4 * 2 ^ f.fractionBits - 1 : ℚ) ≤ front := by
    rcases hnormal.eq_or_lt with heq | hlt
    · have hgap : b'.atPowerOfTwo = true := hb'.gap.2 ⟨heq.symm, hgreat⟩
      rw [hfront, hgap, ← heq]
      push_cast
      simp
    · have hnext : (2 ^ f.fractionBits + 1 : ℚ) ≤ b'.m := by exact_mod_cast hlt
      have hbelow : (if b'.atPowerOfTwo then 1 else 2 : ℚ) ≤ 2 := by split <;> norm_num
      linarith
  have hone : (1 : ℚ) ≤ 2 ^ f.fractionBits := one_le_pow₀ one_le_two
  have hdouble : (8 * 2 ^ f.fractionBits - 2 : ℚ) * 2 ^ (b.q - 2) ≤ b'.low := by
    have htwo : (2 : ℚ) ≤ 2 ^ (k + 1) := by
      rw [pow_succ]
      linarith [one_le_pow₀ (one_le_two (α := ℚ)) (n := k)]
    have hgrow : front * 2 ≤ front * 2 ^ (k + 1) := mul_le_mul_of_nonneg_left htwo (by linarith)
    calc (8 * 2 ^ f.fractionBits - 2 : ℚ) * 2 ^ (b.q - 2)
        ≤ front * 2 ^ (k + 1) * 2 ^ (b.q - 2) := mul_le_mul_of_nonneg_right (by linarith) hpos.le
      _ = b'.low := by
        rw [Binary.low, hscale]
        ring
  have hhigh' : b.high = (4 * b.m + 2) * 2 ^ (b.q - 2) := rfl
  -- only the greatest significand reaches that far, and it is odd
  have hle : (8 * 2 ^ f.fractionBits - 2 : ℚ) ≤ 4 * b.m + 2 := by
    refine le_of_mul_le_mul_right ?_ hpos
    rw [← hhigh']
    linarith
  have hodd : b.m % 2 = 1 := by
    have hnat : 2 * 2 ^ f.fractionBits ≤ b.m + 1 := by
      have hcast : (2 * 2 ^ f.fractionBits : ℚ) ≤ b.m + 1 := by linarith
      exact_mod_cast hcast
    omega
  have hlt : (8 * 2 ^ f.fractionBits - 2 : ℚ) < 4 * b.m + 2 := by
    refine lt_of_mul_lt_mul_right ?_ hpos.le
    rw [← hhigh']
    linarith [(hstrict hodd).2]
  have hgreatest : (b.m : ℚ) + 1 ≤ 2 * 2 ^ f.fractionBits := by exact_mod_cast hm
  linarith

/-- **No number rounds to two numbers of a format.** -/
theorem eq_of_rounds (hb : f.Canonical b) (hb' : f.Canonical b') (h : b.Rounds x)
    (h' : b'.Rounds x) : b = b' := by
  have hq : b.q = b'.q := le_antisymm (not_lt.1 (not_lt_of_rounds_of_canonical hb' hb h' h))
    (not_lt.1 (not_lt_of_rounds_of_canonical hb hb' h h'))
  have hm : b.m = b'.m := le_antisymm (not_lt.1 (not_lt_of_rounds hq.symm h' h))
    (not_lt.1 (not_lt_of_rounds hq h h'))
  have hgap : b.atPowerOfTwo = b'.atPowerOfTwo := by
    rw [Bool.eq_iff_iff, hb.gap, hb'.gap, hq, hm]
  obtain ⟨m, q, atPowerOfTwo⟩ := b
  obtain ⟨m', q', atPowerOfTwo'⟩ := b'
  cases hq
  cases hm
  cases hgap
  rfl

/-! ### Texts of numbers -/

/-- A format that decimals of twenty digits can tell the numbers of. -/
structure Small (f : Format) : Prop where
  /-- The fraction has at most as many bits as that of the 64-bit format. -/
  fraction : f.fractionBits ≤ 52
  /-- The exponent has at most as many bits as that of the 64-bit format. -/
  exponent : f.exponentBits ≤ 11

/-- The narrow format is small. -/
theorem small_single : single.Small := ⟨by decide, by decide⟩

/-- The wide format is small. -/
theorem small_double : double.Small := ⟨by decide, by decide⟩

/-- The field of the fraction. -/
def fraction (f : Format) (bits : Nat) : Nat :=
  bits % 2 ^ f.fractionBits

/-- The field of the exponent. -/
def exponent (f : Format) (bits : Nat) : Nat :=
  bits / 2 ^ f.fractionBits % 2 ^ f.exponentBits

/-- What the fields of the fraction and of the exponent stand for. -/
theorem magnitude_eq (f : Format) (bits : Nat) : f.magnitude bits =
    if f.exponent bits = 2 ^ f.exponentBits - 1 then
      if f.fraction bits = 0 then .infinite else .nan
    else if f.exponent bits = 0 then
      if f.fraction bits = 0 then .zero else .finite ⟨f.fraction bits, f.least, false⟩
    else .finite ⟨2 ^ f.fractionBits + f.fraction bits, f.exponent bits - 1 + f.least,
      f.fraction bits == 0 && f.exponent bits != 1⟩ := by
  have hexponent : (f.exponent bits : Int) - 1 + f.least =
      f.exponent bits - ((2 ^ (f.exponentBits - 1) : Nat) - 1 + f.fractionBits) := by
    rw [least]
    omega
  rw [hexponent]
  show (if (f.exponent bits == 2 ^ f.exponentBits - 1) = true then
    if (f.fraction bits == 0) = true then Magnitude.infinite else .nan
    else if (f.exponent bits == 0) = true then
      if (f.fraction bits == 0) = true then .zero else .finite ⟨f.fraction bits, f.least, false⟩
    else _) = _
  simp only [beq_iff_eq]
  rfl

/-- A fraction has as many bits as the format gives it. -/
theorem fraction_lt (f : Format) (bits : Nat) : f.fraction bits < 2 ^ f.fractionBits :=
  Nat.mod_lt _ (Nat.two_pow_pos _)

/-- The positive numbers of a format are canonical. -/
theorem canonical_of_magnitude {bits : Nat} (h : f.magnitude bits = .finite b) :
    f.Canonical b := by
  have hlt := f.fraction_lt bits
  have hpow : 2 ^ (f.fractionBits + 1) = 2 ^ f.fractionBits + 2 ^ f.fractionBits := by
    rw [Nat.pow_succ, Nat.mul_two]
  -- By the exponent bits: all set is no number, none set is subnormal, and the others have a
  -- leading one.
  rw [magnitude_eq] at h
  split at h
  · split at h <;> cases h
  · split at h
    · split at h
      · cases h
      · next hfraction =>
        cases h
        exact ⟨by dsimp only; omega, by dsimp only; omega, le_refl _, .inl rfl, by simp⟩
    · next hexponent =>
      cases h
      refine ⟨?_, ?_, ?_, .inr (Nat.le_add_right _ _), ?_⟩
      · exact Nat.add_pos_left (Nat.two_pow_pos _) _
      · dsimp only
        omega
      · dsimp only
        omega
      · dsimp only
        rw [Bool.and_eq_true, beq_iff_eq, bne_iff_ne]
        omega

/-- Numbers that are no NaN and stand for the same have the same fraction and exponent. -/
theorem fields_inj {bits bits' : Nat} (hnan : f.magnitude bits ≠ .nan)
    (h : f.magnitude bits = f.magnitude bits') :
    f.fraction bits = f.fraction bits' ∧ f.exponent bits = f.exponent bits' := by
  have hlt := f.fraction_lt bits
  have hlt' := f.fraction_lt bits'
  rw [magnitude_eq] at hnan
  rw [magnitude_eq, magnitude_eq] at h
  split_ifs at h hnan <;>
    simp only [Magnitude.finite.injEq, Binary.mk.injEq, reduceCtorEq, ne_eq,
      not_true_eq_false] at h hnan <;>
    omega

/-- The bits of a number are its sign, its exponent and its fraction. -/
theorem bits_inj {bits bits' : Nat} (hbits : bits < 2 ^ (f.fractionBits + f.exponentBits + 1))
    (hbits' : bits' < 2 ^ (f.fractionBits + f.exponentBits + 1))
    (hsign : f.isNegative bits = f.isNegative bits')
    (hfraction : f.fraction bits = f.fraction bits')
    (hexponent : f.exponent bits = f.exponent bits') : bits = bits' := by
  -- The bits are written out as a sum, with the quotients and remainders of the two powers.
  have hparts : ∀ bits < 2 ^ (f.fractionBits + f.exponentBits + 1), bits =
      ((if f.isNegative bits then 1 else 0) * 2 ^ f.exponentBits + f.exponent bits) *
        2 ^ f.fractionBits + f.fraction bits := by
    intro bits hbits
    have htop : bits / 2 ^ (f.fractionBits + f.exponentBits) < 2 := by
      rw [Nat.div_lt_iff_lt_mul (Nat.two_pow_pos _), ← Nat.pow_succ']
      exact hbits
    have hsign : (if f.isNegative bits then 1 else 0) =
        bits / 2 ^ f.fractionBits / 2 ^ f.exponentBits := by
      rw [Nat.div_div_eq_div_mul, ← Nat.pow_add, isNegative, Nat.pow_eq]
      generalize bits / 2 ^ (f.fractionBits + f.exponentBits) = top at htop ⊢
      split
      · next h =>
        have h := beq_iff_eq.1 h
        omega
      · next h =>
        have h := mt beq_iff_eq.2 h
        omega
    rw [hsign, exponent, fraction, Nat.div_add_mod', Nat.div_add_mod']
  rw [hparts bits hbits, hparts bits' hbits', hsign, hfraction, hexponent]

/-- The text of a magnitude. -/
def magnitudeText : Magnitude → String
  | .nan => "NaN"
  | .infinite => "inf"
  | .zero => "0.0"
  | .finite b => (shortest b).text

/-- The text of a number that is no NaN has its sign in front. -/
theorem text_eq {bits : Nat} (h : f.magnitude bits ≠ .nan) :
    f.text bits = (if f.isNegative bits then "-" else "") ++ magnitudeText (f.magnitude bits) := by
  rw [text]
  cases hmagnitude : f.magnitude bits with
  | nan => exact absurd hmagnitude h
  | _ => rfl

/-- The text of a decimal begins with a digit. -/
theorem exists_digit_text (d : Numeral) :
    ∃ c, d.text.toList.head? = some c ∧ c.isDigit = true := by
  obtain ⟨c, cs, hdigits⟩ : ∃ c cs, Nat.toDigits 10 d.digits = c :: cs :=
    List.exists_cons_of_ne_nil Nat.toDigits_ne_nil
  have hc : c.isDigit = true := Nat.isDigit_of_mem_toDigits (b := 10) (n := d.digits) (by decide)
    (by decide) (hdigits ▸ List.mem_cons_self)
  rw [Numeral.text, hdigits]
  dsimp only
  split
  · exact ⟨c, by simp, hc⟩
  · split
    · exact ⟨'0', by simp, by decide⟩
    · next hlead =>
      split
      · exact ⟨c, by simp, hc⟩
      · obtain ⟨whole, hwhole⟩ : ∃ whole,
            (((c :: cs).length : ℤ) + d.exponent).toNat = whole + 1 :=
          Nat.exists_eq_succ_of_ne_zero (by omega)
        rw [hwhole]
        exact ⟨c, by simp, hc⟩

/-- The text of a magnitude begins with a digit if this is zero or a finite number, and with a
letter otherwise. -/
theorem exists_head_magnitudeText (x : Magnitude) : ∃ c, (magnitudeText x).toList.head? = some c ∧
    (c = 'N' ∧ x = .nan ∨ c = 'i' ∧ x = .infinite ∨
      c.isDigit = true ∧ (x = .zero ∨ ∃ b, x = .finite b)) := by
  cases x with
  | nan => exact ⟨'N', rfl, .inl ⟨rfl, rfl⟩⟩
  | infinite => exact ⟨'i', rfl, .inr (.inl ⟨rfl, rfl⟩)⟩
  | zero => exact ⟨'0', rfl, .inr (.inr ⟨by decide, .inl rfl⟩)⟩
  | finite b =>
    obtain ⟨c, htext, hc⟩ := exists_digit_text (shortest b)
    exact ⟨c, htext, .inr (.inr ⟨hc, .inr ⟨b, rfl⟩⟩)⟩

/-- What rounds to a positive number is positive. -/
theorem pos_of_rounds (hb : f.Canonical b) (h : b.Rounds x) : 0 < x := by
  obtain ⟨hlow, -, -⟩ := Rounds.bounds h
  have hpos : (1 : ℚ) ≤ b.m := by exact_mod_cast hb.pos
  have hbelow : (if b.atPowerOfTwo then 1 else 2 : ℚ) ≤ 2 := by split <;> norm_num
  refine lt_of_lt_of_le ?_ hlow
  exact mul_pos (by linarith) (by positivity)

/-- The decimals of the positive numbers of a format round to them. -/
theorem rounds_text (hf : f.Small) (hb : f.Canonical b) :
    b.Rounds (read (magnitudeText (.finite b)).toList) := by
  have hread : read (magnitudeText (.finite b)).toList = (shortest b).value := read_text _
  rw [hread]
  refine rounds_shortest hb.pos (lt_of_lt_of_le hb.lt ?_) (le_trans ?_ hb.least_le)
  · exact Nat.pow_le_pow_right (by decide) (Nat.succ_le_succ hf.fraction)
  · have hpow : 2 ^ (f.exponentBits - 1) ≤ 2 ^ 10 :=
      Nat.pow_le_pow_right (by decide) (Nat.sub_le_sub_right hf.exponent 1)
    have hfraction := hf.fraction
    rw [least]
    omega

/-- A text of a magnitude tells the magnitude, if it is one of the format. -/
theorem magnitudeText_inj (hf : f.Small) {x x' : Magnitude}
    (hx : ∀ b, x = .finite b → f.Canonical b) (hx' : ∀ b, x' = .finite b → f.Canonical b)
    (h : magnitudeText x = magnitudeText x') : x = x' := by
  obtain ⟨c, hhead, hc⟩ := exists_head_magnitudeText x
  obtain ⟨c', hhead', hc'⟩ := exists_head_magnitudeText x'
  rw [← h, hhead] at hhead'
  cases hhead'
  -- A canonical number is positive, so its text does not read as zero.
  have hzero : ∀ b, f.Canonical b → magnitudeText .zero ≠ magnitudeText (.finite b) := by
    intro b hb heq
    have hpos := pos_of_rounds hb (rounds_text hf hb)
    rw [← heq] at hpos
    have hread : read (magnitudeText .zero).toList = 0 := by
      show read (['0'] ++ '.' :: ['0']) = 0
      rw [read_point (by decide) (by decide) (by decide)]
      rw [show Nat.ofDigitChars 10 (['0'] ++ ['0']) 0 = 0 from rfl, Nat.cast_zero, zero_mul]
    rw [hread] at hpos
    exact lt_irrefl 0 hpos
  -- The first character tells infinity, NaN and digits apart; only among the numbers is the value
  -- needed.
  rcases hc with ⟨rfl, rfl⟩ | ⟨rfl, rfl⟩ | ⟨hdigit, hvalue⟩
  · rcases hc' with ⟨-, rfl⟩ | ⟨hc', -⟩ | ⟨hc', -⟩
    · rfl
    · exact absurd hc' (by decide)
    · exact absurd hc' (by decide)
  · rcases hc' with ⟨hc', -⟩ | ⟨-, rfl⟩ | ⟨hc', -⟩
    · exact absurd hc' (by decide)
    · rfl
    · exact absurd hc' (by decide)
  · rcases hc' with ⟨rfl, -⟩ | ⟨rfl, -⟩ | ⟨-, hvalue'⟩
    · exact absurd hdigit (by decide)
    · exact absurd hdigit (by decide)
    · rcases hvalue with rfl | ⟨b, rfl⟩ <;> rcases hvalue' with rfl | ⟨b', rfl⟩
      · rfl
      · exact absurd h (hzero b' (hx' b' rfl))
      · exact absurd h.symm (hzero b (hx b rfl))
      · have hround := rounds_text hf (hx b rfl)
        rw [h] at hround
        rw [eq_of_rounds (hx b rfl) (hx' b' rfl) hround (rounds_text hf (hx' b' rfl))]

/-- The text of a number that is no NaN begins with its sign if it is negative. -/
theorem exists_head_text {bits : Nat} (h : f.magnitude bits ≠ .nan) :
    ∃ c, (f.text bits).toList.head? = some c ∧ c ≠ 'N' ∧
      (c = '-' ↔ f.isNegative bits = true) := by
  obtain ⟨c, hhead, hc⟩ := exists_head_magnitudeText (f.magnitude bits)
  have hplain : c ≠ 'N' ∧ c ≠ '-' := by
    rcases hc with ⟨-, hnan⟩ | ⟨rfl, -⟩ | ⟨hdigit, -⟩
    · exact absurd hnan h
    · decide
    · constructor <;> rintro rfl <;> exact absurd hdigit (by decide)
  rw [text_eq h]
  cases hsign : f.isNegative bits with
  | true => exact ⟨'-', by simp, by decide, by simp⟩
  | false => exact ⟨c, by simpa using hhead, hplain.1, by simpa using hplain.2⟩

/-- **The text of a number tells the number.** Only NaNs have texts that do not tell their bits. -/
theorem text_inj (hf : f.Small) {bits bits' : Nat}
    (hbits : bits < 2 ^ (f.fractionBits + f.exponentBits + 1))
    (hbits' : bits' < 2 ^ (f.fractionBits + f.exponentBits + 1)) (h : f.text bits = f.text bits') :
    bits = bits' ∨ f.magnitude bits = .nan ∧ f.magnitude bits' = .nan := by
  -- The text of NaN starts with a letter that no other text starts with.
  have hother : ∀ {bits bits' : Nat}, f.magnitude bits = .nan → f.magnitude bits' ≠ .nan →
      f.text bits ≠ f.text bits' := by
    intro bits bits' hnan hnumber heq
    obtain ⟨c, hhead, hc, -⟩ := exists_head_text hnumber
    have htext : f.text bits = "NaN" := by rw [text, hnan]
    rw [← heq, htext, show "NaN".toList.head? = some 'N' from rfl] at hhead
    exact hc (Option.some.inj hhead).symm
  by_cases hnan : f.magnitude bits = .nan
  · by_cases hnan' : f.magnitude bits' = .nan
    · exact .inr ⟨hnan, hnan'⟩
    · exact absurd h (hother hnan hnan')
  · by_cases hnan' : f.magnitude bits' = .nan
    · exact absurd h.symm (hother hnan' hnan)
    · left
      -- The sign is told by the first character, so the magnitudes have the same text too.
      have hsign : f.isNegative bits = f.isNegative bits' := by
        obtain ⟨c, hhead, -, hc⟩ := exists_head_text hnan
        obtain ⟨c', hhead', -, hc'⟩ := exists_head_text hnan'
        rw [← h, hhead] at hhead'
        cases hhead'
        rw [Bool.eq_iff_iff, ← hc, hc']
      rw [text_eq hnan, text_eq hnan', hsign, String.append_right_inj] at h
      have hmagnitude := magnitudeText_inj hf (fun _ => canonical_of_magnitude)
        (fun _ => canonical_of_magnitude) h
      obtain ⟨hfraction, hexponent⟩ := fields_inj hnan hmagnitude
      exact bits_inj hbits hbits' hsign hfraction hexponent

end Format

end Unscramble.Decimal
