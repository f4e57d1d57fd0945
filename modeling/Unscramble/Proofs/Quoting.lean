import Unscramble.Decimal
import Unscramble.Proofs.Text
import Unscramble.Text.Printable

/-! # Quoted texts and numbers

A quoted text is over at its second quote, and it determines the text. It has no line break, and
neither have numbers.

Main statements: `escapeChar_append_inj`, `quoted_append_inj`, `newline_not_mem_quoted`,
`newline_not_mem_format`. -/

namespace Unscramble

/-! ### Numbers -/

/-- Hexadecimal digits determine the number. -/
theorem toDigits_sixteen_inj {m n : Nat} : Nat.toDigits 16 m = Nat.toDigits 16 n ↔ m = n := by
  refine ⟨fun h => ?_, fun h => h ▸ rfl⟩
  have hdigit : ∀ i < 16, ∀ j < 16, Nat.digitChar i = Nat.digitChar j → i = j := by decide
  -- On the number; with one digit and with more the texts have different lengths.
  induction m using Nat.strong_induction_on generalizing n with
  | h m ih =>
    by_cases hm : m < 16
    · by_cases hn : n < 16
      · rw [Nat.toDigits_of_lt_base hm, Nat.toDigits_of_lt_base hn] at h
        exact hdigit m hm n hn (List.cons.inj h).1
      · rw [Nat.toDigits_of_lt_base hm, Nat.toDigits_of_base_le (by decide) (by omega)] at h
        have hlength := congrArg List.length h
        have hpos := List.length_pos_of_ne_nil (Nat.toDigits_ne_nil (n := n / 16) (b := 16))
        simp only [List.length_append, List.length_singleton] at hlength
        omega
    · by_cases hn : n < 16
      · rw [Nat.toDigits_of_lt_base hn, Nat.toDigits_of_base_le (by decide) (by omega)] at h
        have hlength := congrArg List.length h
        have hpos := List.length_pos_of_ne_nil (Nat.toDigits_ne_nil (n := m / 16) (b := 16))
        simp only [List.length_append, List.length_singleton] at hlength
        omega
      · rw [Nat.toDigits_of_base_le (by decide) (by omega),
          Nat.toDigits_of_base_le (b := 16) (n := n) (by decide) (by omega)] at h
        obtain ⟨hfront, hlast⟩ := List.append_inj' h rfl
        have hquotient := ih (m / 16) (by omega) hfront
        have hrest := hdigit (m % 16) (Nat.mod_lt m (by decide)) (n % 16) (Nat.mod_lt n (by decide))
          (List.cons.inj hlast).1
        omega

/-- A character of a hexadecimal number is a digit. -/
theorem exists_digitChar_of_mem {n : Nat} {c : Char} (h : c ∈ Nat.toDigits 16 n) :
    ∃ i < 16, c = Nat.digitChar i := by
  induction n using Nat.strong_induction_on with
  | h n ih =>
    by_cases hn : n < 16
    · rw [Nat.toDigits_of_lt_base hn, List.mem_singleton] at h
      exact ⟨n, hn, h⟩
    · rw [Nat.toDigits_of_base_le (by decide) (by omega), List.mem_append, List.mem_singleton] at h
      rcases h with h | h
      · exact ih (n / 16) (by omega) h
      · exact ⟨n % 16, Nat.mod_lt n (by decide), h⟩

/-- A decimal number has no other characters than digits. -/
theorem not_mem_toDigits {c : Char} (hc : c.isDigit = false) (n : Nat) : c ∉ Nat.toDigits 10 n := by
  intro h
  rw [Nat.isDigit_of_mem_toDigits (by decide) (by decide) h] at hc
  cases hc

/-- The digits of a number are its only characters. -/
theorem not_mem_toString_nat {n : Nat} {c : Char} (hc : c.isDigit = false) :
    c ∉ (toString n).toList := by
  rw [Nat.toString_eq_ofList_toDigits, String.toList_ofList]
  exact not_mem_toDigits hc n

/-- An integer may have a sign besides. -/
theorem not_mem_toString_int {n : Int} {c : Char} (hc : c.isDigit = false) (hsign : c ≠ '-') :
    c ∉ (toString n).toList := by
  have hdigits : ∀ n : Nat, c ∉ n.repr.toList := fun n => not_mem_toString_nat hc
  rw [Int.toString_eq_repr, Int.repr_eq_if]
  split
  · exact hdigits _
  · rw [String.toList_append, List.mem_append, not_or]
    exact ⟨by simpa using hsign, hdigits _⟩

/-- A floating-point number has no line break. -/
theorem newline_not_mem_format (f : Decimal.Format) (bits : Nat) :
    '\n' ∉ (f.text bits).toList := by
  have hdigits : ∀ n : Nat, '\n' ∉ Nat.toDigits 10 n := not_mem_toDigits (by decide)
  have hzeros : ∀ n, '\n' ∉ (Decimal.zeros n).toList := by
    intro n h
    rw [Decimal.zeros, String.toList_ofList, List.mem_replicate] at h
    exact absurd h.2 (by decide)
  have hint : ∀ n : Int, '\n' ∉ (toString n).toList := fun n =>
    not_mem_toString_int (by decide) (by decide)
  -- A numeral is made of digits, zeros, a point and the letter of the exponent.
  have hnumeral : ∀ d : Decimal.Numeral, '\n' ∉ d.text.toList := by
    intro d
    have htake : ∀ n, '\n' ∉ (Nat.toDigits 10 d.digits).take n := fun n h =>
      hdigits d.digits (List.mem_of_mem_take h)
    have hdrop : ∀ n, '\n' ∉ (Nat.toDigits 10 d.digits).drop n := fun n h =>
      hdigits d.digits (List.mem_of_mem_drop h)
    rw [Decimal.Numeral.text]
    dsimp only
    split
    · simp only [String.toList_append, String.toList_ofList, List.mem_append, not_or]
      refine ⟨⟨⟨htake 1, ?_⟩, by decide⟩, hint _⟩
      split
      · decide
      · rw [String.toList_append, String.toList_ofList, List.mem_append, not_or]
        exact ⟨by decide, String.toList_ofList ▸ hdrop 1⟩
    · split
      · simp only [String.toList_append, String.toList_ofList, List.mem_append, not_or]
        exact ⟨⟨by decide, hzeros _⟩, hdigits _⟩
      · split
        · simp only [String.toList_append, String.toList_ofList, List.mem_append, not_or]
          exact ⟨⟨hdigits _, hzeros _⟩, by decide⟩
        · simp only [String.toList_append, String.toList_ofList, List.mem_append, not_or]
          exact ⟨⟨htake _, by decide⟩, hdrop _⟩
  have hsign : '\n' ∉ (if f.isNegative bits then "-" else "").toList := by
    split <;> decide
  rw [Decimal.Format.text]
  split
  · decide
  all_goals
    rw [String.toList_append, List.mem_append, not_or]
    refine ⟨hsign, ?_⟩
  · decide
  · decide
  · exact hnumeral _

namespace Text

/-! ### Escapes -/

/-- The characters that are written with a mark behind a backslash, and their marks. -/
def marks : List (Char × Char) :=
  [('\x00', '0'), ('\t', 't'), ('\r', 'r'), ('\n', 'n'), ('\\', '\\'), ('"', '"')]

/-- How a character is written between double quotes: as itself, if it is no quote, no backslash and
no line break, or as a backslash and something that tells it. -/
theorem escapeChar_cases (c : Char) :
    (c ≠ '"' ∧ c ≠ '\\' ∧ c ≠ '\n' ∧ (escapeChar '"' c).toList = [c]) ∨
      (∃ mark, (c, mark) ∈ marks ∧ (escapeChar '"' c).toList = ['\\', mark]) ∨
      (escapeChar '"' c).toList =
        '\\' :: 'u' :: '\x7b' :: (Nat.toDigits 16 c.toNat ++ ['\x7d']) := by
  -- The branches of the definition, from the characters with a mark of their own to those shown by
  -- their number.
  rw [escapeChar]
  split
  · next h => exact .inr (.inl ⟨'0', by rw [beq_iff_eq.1 h]; decide, rfl⟩)
  split
  · next h => exact .inr (.inl ⟨'t', by rw [beq_iff_eq.1 h]; decide, rfl⟩)
  split
  · next h => exact .inr (.inl ⟨'r', by rw [beq_iff_eq.1 h]; decide, rfl⟩)
  split
  · next h => exact .inr (.inl ⟨'n', by rw [beq_iff_eq.1 h]; decide, rfl⟩)
  split
  · next h =>
    refine .inr (.inl ⟨c, ?_, String.toList_ofList⟩)
    rcases Bool.or_eq_true_iff.1 h with h | h <;> rw [beq_iff_eq.1 h] <;> decide
  split
  · next hbreak hspecial _ =>
    rw [Bool.or_eq_true, not_or] at hspecial
    refine .inl ⟨by simpa using hspecial.2, by simpa using hspecial.1, by simpa using hbreak, ?_⟩
    exact String.toList_singleton c
  · refine .inr (.inr ?_)
    rw [codePointEscape, hexDigits, String.toList_append, String.toList_append,
      String.toList_ofList (l := Nat.toDigits 16 c.toNat), List.append_assoc]
    rfl

/-- Only the escape of a line break has to do with line breaks, and it has none. -/
theorem newline_not_mem_escapeChar (c : Char) : '\n' ∉ (escapeChar '"' c).toList := by
  rcases escapeChar_cases c with ⟨-, -, hc, heq⟩ | ⟨mark, hmark, heq⟩ | heq <;> rw [heq]
  · simpa using Ne.symm hc
  · have hmarks : ∀ x ∈ marks, '\n' ∉ ['\\', x.2] := by decide
    exact hmarks _ hmark
  · intro h
    have h : '\n' ∈ Nat.toDigits 16 c.toNat := by simpa using h
    obtain ⟨i, hi, heq⟩ := exists_digitChar_of_mem h
    have hdigits : ∀ i < 16, '\n' ≠ Nat.digitChar i := by decide
    exact hdigits i hi heq

/-- An escape does not begin with a quote. -/
theorem quote_ne_escapeChar (c : Char) (xs ys : List Char) :
    '"' :: xs ≠ (escapeChar '"' c).toList ++ ys := by
  intro h
  rcases escapeChar_cases c with ⟨hc, -, -, heq⟩ | ⟨mark, -, heq⟩ | heq <;> rw [heq] at h
  · exact hc (List.cons.inj h).1.symm
  · exact absurd (List.cons.inj h).1 (by decide)
  · exact absurd (List.cons.inj h).1 (by decide)

/-- An escape is over where it ends, and tells its character. -/
theorem escapeChar_append_inj {c d : Char} {xs ys : List Char}
    (h : (escapeChar '"' c).toList ++ xs = (escapeChar '"' d).toList ++ ys) : c = d ∧ xs = ys := by
  have hmarks : ∀ x ∈ marks, ∀ y ∈ marks, x.2 = y.2 → x.1 = y.1 := by decide
  have hcode : ∀ x ∈ marks, x.2 ≠ 'u' := by decide
  -- The closing brace is no hexadecimal digit, so the number of an escape is over there.
  have hbrace : ∀ n, '\x7d' ∉ Nat.toDigits 16 n := by
    intro n hmem
    obtain ⟨i, hi, heq⟩ := exists_digitChar_of_mem hmem
    have hdigits : ∀ i < 16, '\x7d' ≠ Nat.digitChar i := by decide
    exact hdigits i hi heq
  -- The second character tells the kinds of escapes apart, and a character that is not escaped is
  -- no backslash.
  rcases escapeChar_cases c with ⟨-, hc, -, heq⟩ | ⟨mark, hmark, heq⟩ | heq <;>
    rcases escapeChar_cases d with ⟨-, hd, -, heq'⟩ | ⟨mark', hmark', heq'⟩ | heq' <;>
    rw [heq, heq'] at h <;> simp only [List.cons_append, List.nil_append] at h
  · exact List.cons.inj h
  · exact absurd (List.cons.inj h).1 hc
  · exact absurd (List.cons.inj h).1 hc
  · exact absurd (List.cons.inj h).1.symm hd
  · obtain ⟨-, h⟩ := List.cons.inj h
    obtain ⟨hsame, h⟩ := List.cons.inj h
    exact ⟨hmarks _ hmark _ hmark' hsame, h⟩
  · exact absurd (List.cons.inj (List.cons.inj h).2).1 (hcode _ hmark)
  · exact absurd (List.cons.inj h).1.symm hd
  · exact absurd (List.cons.inj (List.cons.inj h).2).1.symm (hcode _ hmark')
  · obtain ⟨-, h⟩ := List.cons.inj h
    obtain ⟨-, h⟩ := List.cons.inj h
    obtain ⟨-, h⟩ := List.cons.inj h
    rw [List.append_assoc, List.append_assoc, List.singleton_append, List.singleton_append,
      append_cons_inj (hbrace _) (hbrace _)] at h
    exact ⟨Char.toNat_inj.1 (toDigits_sixteen_inj.1 h.1), h.2.2⟩

/-! ### Quoted texts -/

/-- A quoted text is the escapes of its characters between quotes. -/
theorem toList_quoted (s : String) :
    (quoted s).toList = '"' :: (s.toList.flatMap fun c => (escapeChar '"' c).toList) ++ ['"'] := by
  have hfold : ∀ (cs : List Char) (acc : String),
      (cs.foldl (fun acc c => acc ++ escapeChar '"' c) acc).toList =
        acc.toList ++ cs.flatMap fun c => (escapeChar '"' c).toList := by
    intro cs
    induction cs with
    | nil => simp
    | cons c cs ih => simp [ih]
  rw [quoted, String.toList_append, String.toList_append, hfold]
  rfl

/-- A quoted text has no line break. -/
theorem newline_not_mem_quoted (s : String) : '\n' ∉ (quoted s).toList := by
  rw [toList_quoted]
  intro h
  have h : ∃ c ∈ s.toList, '\n' ∈ (escapeChar '"' c).toList := by simpa using h
  obtain ⟨c, -, hc⟩ := h
  exact newline_not_mem_escapeChar c hc

/-- A quoted text is over at its second quote, and tells the text. -/
theorem quoted_append_inj {s t : String} {xs ys : List Char}
    (h : (quoted s).toList ++ xs = (quoted t).toList ++ ys) : s = t ∧ xs = ys := by
  -- On the characters, for those of the other text: the quote at the end is no beginning of an
  -- escape.
  have hescapes : ∀ (cs ds : List Char),
      (cs.flatMap fun c => (escapeChar '"' c).toList) ++ '"' :: xs =
        (ds.flatMap fun c => (escapeChar '"' c).toList) ++ '"' :: ys → cs = ds ∧ xs = ys := by
    intro cs
    induction cs with
    | nil =>
      intro ds h
      cases ds with
      | nil => exact ⟨rfl, (List.cons.inj h).2⟩
      | cons d ds =>
        rw [List.flatMap_cons, List.append_assoc] at h
        exact absurd h (quote_ne_escapeChar d _ _)
    | cons c cs ih =>
      intro ds h
      cases ds with
      | nil =>
        rw [List.flatMap_cons, List.append_assoc] at h
        exact absurd h.symm (quote_ne_escapeChar c _ _)
      | cons d ds =>
        rw [List.flatMap_cons, List.flatMap_cons, List.append_assoc, List.append_assoc] at h
        obtain ⟨rfl, hrest⟩ := escapeChar_append_inj h
        obtain ⟨rfl, hend⟩ := ih ds hrest
        exact ⟨rfl, hend⟩
  rw [toList_quoted, toList_quoted] at h
  simp only [List.cons_append, List.append_assoc, List.nil_append] at h
  obtain ⟨hchars, h⟩ := hescapes _ _ (List.cons.inj h).2
  exact ⟨String.toList_injective hchars, h⟩

end Text

end Unscramble
