import Mathlib
import Unscramble.Text.Basic

/-! # Cut and trimmed texts

A cut takes a text apart at the first character of a kind, and the parts determine the text. Lines
that are written one after the other are read one after the other, and a text that begins and ends
with a character that is not blank is trimmed.

Main statements: `cut_eq_some_iff`, `cut_eq_none_iff`, `linesFrom_lines`, `trimChars_eq_self_iff`. -/

namespace Unscramble.Text

/-- A cut finds the first place of its character. -/
theorem cut_eq_some_iff {stop : Char} {cs before rest : List Char} :
    cut stop cs = some (before, rest) ↔ cs = before ++ stop :: rest ∧ stop ∉ before := by
  induction cs generalizing before with
  | nil => simp [cut]
  | cons c cs ih =>
    -- The first character is the one, or belongs to what is before it.
    by_cases hc : c = stop
    · subst hc
      have hcut : cut c (c :: cs) = some ([], cs) := by simp [cut]
      rw [hcut]
      cases before with
      | nil => simp
      | cons b before => simp +contextual [eq_comm]
    · have hcut : cut stop (c :: cs) = (cut stop cs).map fun parts => (c :: parts.1, parts.2) := by
        rw [cut, cut, List.dropWhile_cons_of_pos (by simpa using hc),
          List.takeWhile_cons_of_pos (by simpa using hc)]
        split <;> rfl
      rw [hcut, Option.map_eq_some_iff]
      cases before with
      | nil => simp [hc]
      | cons b before =>
        simp only [Prod.exists, Prod.mk.injEq, List.cons.injEq, List.cons_append, List.mem_cons,
          not_or]
        constructor
        · rintro ⟨before', rest', h, ⟨rfl, rfl⟩, rfl⟩
          obtain ⟨rfl, hstop⟩ := ih.1 h
          exact ⟨⟨rfl, rfl⟩, Ne.symm hc, hstop⟩
        · rintro ⟨⟨rfl, rfl⟩, -, hstop⟩
          exact ⟨before, rest, ih.2 ⟨rfl, hstop⟩, ⟨rfl, rfl⟩, rfl⟩

/-- There is nothing to cut at a character that does not occur. -/
theorem cut_eq_none_iff {stop : Char} {cs : List Char} : cut stop cs = none ↔ stop ∉ cs := by
  constructor
  · intro h hmem
    obtain ⟨before, rest, rfl, hstop⟩ := List.eq_append_cons_of_mem hmem
    rw [cut_eq_some_iff.2 ⟨rfl, hstop⟩] at h
    cases h
  · intro h
    cases hcut : cut stop cs with
    | none => rfl
    | some parts =>
      obtain ⟨rfl, -⟩ := cut_eq_some_iff.1 hcut
      exact absurd (List.mem_append_right _ List.mem_cons_self) h

/-- Two texts that go on with characters that the other one lacks end at the same place. -/
theorem append_cons_inj {a b : Char} {xs ys xs' ys' : List Char} (ha : a ∉ xs') (hb : b ∉ xs) :
    xs ++ a :: ys = xs' ++ b :: ys' ↔ xs = xs' ∧ a = b ∧ ys = ys' := by
  induction xs generalizing xs' with
  | nil =>
    cases xs' with
    | nil => simp
    | cons x' xs' => simp_all
  | cons x xs ih =>
    rw [List.mem_cons, not_or] at hb
    cases xs' with
    | nil => simp [Ne.symm hb.1]
    | cons x' xs' =>
      rw [List.mem_cons, not_or] at ha
      rw [List.cons_append, List.cons_append, List.cons.injEq, ih ha.2 hb.2, List.cons.injEq,
        and_assoc]

/-! ### Lines -/

/-- Characters without a line break go on with the line. -/
theorem linesFrom_append {xs : List Char} (h : '\n' ∉ xs) (line rest : List Char) :
    linesFrom line (xs ++ rest) = linesFrom (xs.reverse ++ line) rest := by
  induction xs generalizing line with
  | nil => rfl
  | cons x xs ih =>
    rw [List.mem_cons, not_or] at h
    obtain ⟨hx, hxs⟩ := h
    rw [List.cons_append, linesFrom, if_neg (by simpa using Ne.symm hx), ih hxs,
      List.reverse_cons, List.append_assoc]
    rfl

/-- Lines of which each is ended are read one after the other. -/
theorem linesFrom_lines {ls : List (List Char)} (h : ∀ l ∈ ls, '\n' ∉ l) :
    linesFrom [] (ls.flatMap (· ++ ['\n'])) = ls := by
  induction ls with
  | nil => rfl
  | cons l ls ih =>
    rw [List.flatMap_cons, List.append_assoc, linesFrom_append (h l List.mem_cons_self),
      List.singleton_append, linesFrom, if_pos (beq_self_eq_true '\n'), List.append_nil, List.reverse_reverse,
      ih fun l hl => h l (List.mem_cons_of_mem _ hl)]

/-- No line contains a line feed. -/
theorem not_mem_of_mem_linesFrom {line cs l : List Char} (hline : '\n' ∉ line)
    (h : l ∈ linesFrom line cs) : '\n' ∉ l := by
  induction cs generalizing line with
  | nil =>
    rw [linesFrom] at h
    split at h
    · cases h
    · rw [List.mem_singleton.1 h, List.mem_reverse]
      exact hline
  | cons c cs ih =>
    rw [linesFrom] at h
    split at h
    · rcases List.mem_cons.1 h with rfl | h
      · rwa [List.mem_reverse]
      · exact ih List.not_mem_nil h
    · next hc =>
      refine ih ?_ h
      rw [List.mem_cons, not_or]
      exact ⟨fun hn => hc (by simp [← hn]), hline⟩

/-! ### Blanks at the ends -/

/-- Nothing is dropped where the first character is to stay. -/
theorem dropWhile_eq_self_iff {p : Char → Bool} {cs : List Char} :
    cs.dropWhile p = cs ↔ ∀ c ∈ cs.head?, p c = false := by
  cases cs with
  | nil => simp
  | cons c cs => simp [List.dropWhile_eq_self_iff]

/-- What is left begins with no character that is to go. -/
theorem head?_dropWhile {p : Char → Bool} {cs : List Char} :
    ∀ c ∈ (cs.dropWhile p).head?, p c = false := by
  induction cs with
  | nil => simp
  | cons c cs ih =>
    by_cases hc : p c = true
    · rwa [List.dropWhile_cons_of_pos hc]
    · rw [List.dropWhile_cons_of_neg hc]
      simpa using hc

/-- A trimmed text is a part of the text. -/
theorem mem_of_mem_trimChars {cs : List Char} {c : Char} (h : c ∈ trimChars cs) : c ∈ cs := by
  rw [trimChars, List.mem_reverse] at h
  have hmem := (List.dropWhile_sublist isBlank).subset h
  rw [List.mem_reverse] at hmem
  exact (List.dropWhile_sublist isBlank).subset hmem

/-- A trimmed text begins and ends with characters that are not blank. -/
theorem trimChars_ends (cs : List Char) :
    (∀ c ∈ (trimChars cs).head?, isBlank c = false) ∧
      ∀ c ∈ (trimChars cs).getLast?, isBlank c = false := by
  constructor
  · intro c hc
    have hprefix : trimChars cs <+: cs.dropWhile isBlank := by
      have hsuffix : (cs.dropWhile isBlank).reverse.dropWhile isBlank <:+
          (cs.dropWhile isBlank).reverse := List.dropWhile_suffix isBlank
      simpa [trimChars] using List.reverse_prefix.2 hsuffix
    obtain ⟨rest, hrest⟩ := hprefix
    have hhead : c ∈ (cs.dropWhile isBlank).head? := by
      rw [← hrest, List.head?_append, Option.mem_def.1 hc]
      rfl
    exact head?_dropWhile c hhead
  · rw [trimChars, List.getLast?_reverse]
    exact head?_dropWhile

/-- A text has no blanks at its ends if it begins and ends with other characters. -/
theorem trimChars_eq_self_iff {cs : List Char} :
    trimChars cs = cs ↔
      (∀ c ∈ cs.head?, isBlank c = false) ∧ ∀ c ∈ cs.getLast?, isBlank c = false := by
  constructor
  · intro h
    rw [← h]
    exact trimChars_ends cs
  · rintro ⟨hhead, hlast⟩
    rw [trimChars, dropWhile_eq_self_iff.2 hhead, dropWhile_eq_self_iff.2, List.reverse_reverse]
    rwa [List.head?_reverse]

/-- Trimming what is trimmed changes nothing. -/
@[simp] theorem trimChars_trimChars (cs : List Char) : trimChars (trimChars cs) = trimChars cs :=
  trimChars_eq_self_iff.2 (trimChars_ends cs)

/-- A text without blanks is trimmed. -/
theorem trimChars_of_forall {cs : List Char} (h : ∀ c ∈ cs, isBlank c = false) :
    trimChars cs = cs :=
  trimChars_eq_self_iff.2 ⟨fun c hc => h c (List.mem_of_mem_head? hc),
    fun c hc => h c (List.mem_of_mem_getLast? hc)⟩

/-- A text with a character that is not blank does not vanish. -/
theorem trimChars_ne_nil {cs : List Char} {c : Char} (hc : c ∈ cs) (hblank : isBlank c = false) :
    trimChars cs ≠ [] := by
  intro h
  rw [trimChars, List.reverse_eq_nil_iff, List.dropWhile_eq_nil_iff] at h
  have hmem : c ∈ cs.dropWhile isBlank := by
    rw [← List.takeWhile_append_dropWhile (p := isBlank) (l := cs), List.mem_append] at hc
    refine hc.resolve_left fun hfront => ?_
    rw [List.mem_takeWhile_imp hfront] at hblank
    cases hblank
  rw [h c (List.mem_reverse.2 hmem)] at hblank
  cases hblank

/-- A text that begins and ends with trimmed texts is trimmed. -/
theorem trimChars_append {xs ys : List Char} (mid : List Char) (hx : xs ≠ []) (hy : ys ≠ [])
    (htx : trimChars xs = xs) (hty : trimChars ys = ys) :
    trimChars (xs ++ mid ++ ys) = xs ++ mid ++ ys := by
  refine trimChars_eq_self_iff.2 ⟨?_, ?_⟩
  · rw [List.append_assoc, List.head?_append_of_ne_nil _ hx]
    exact (trimChars_eq_self_iff.1 htx).1
  · rw [List.getLast?_append_of_ne_nil _ hy]
    exact (trimChars_eq_self_iff.1 hty).2

/-! ### Replaced characters -/

/-- A character is replaced wherever it stands. -/
@[simp] theorem toList_replaceChar (old new : Char) (s : String) :
    (replaceChar old new s).toList = s.toList.map fun c => if c == old then new else c :=
  String.toList_map

/-- The characters after a replacement. -/
theorem mem_replaceChar {old new c : Char} {s : String} (h : c ∈ (replaceChar old new s).toList) :
    c = new ∨ c ∈ s.toList ∧ c ≠ old := by
  rw [toList_replaceChar] at h
  obtain ⟨d, hd, rfl⟩ := List.mem_map.1 h
  split
  · exact .inl rfl
  · next hne => exact .inr ⟨hd, by simpa using hne⟩

/-- Replacing a character that does not occur changes nothing. -/
theorem replaceChar_of_not_mem {old new : Char} {s : String} (h : old ∉ s.toList) :
    replaceChar old new s = s := by
  apply String.toList_inj.1
  rw [toList_replaceChar]
  have hsame : ∀ c ∈ s.toList, (if c == old then new else c) = id c := by
    intro c hc
    have hne : c ≠ old := by
      rintro rfl
      exact h hc
    rw [if_neg (by simpa using hne), id]
  rw [List.map_congr_left hsame, List.map_id]

end Unscramble.Text
