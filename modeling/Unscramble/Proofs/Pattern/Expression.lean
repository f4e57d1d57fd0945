import Mathlib.Data.List.Basic
import Unscramble.Pattern.Regex

/-! # Expressions and their leftmost-first matches

The grammar of patterns as a family of types: an expression of a rank is built from expressions of
the ranks below, so that everything of the family can be written down as it stands. What it matches
is said without an automaton, by listing the ends of all matches from a position, preferred ones
first. A search takes the first of them at the leftmost position and goes on behind it.

Main definitions: `Expr`, `Expr.ends`, `Expr.spans`.
Main statements: `Expr.ends_bounds`, `Expr.spans_spec`. -/

namespace Unscramble.Pattern

/-- The ranks of the grammar, from the tightest to the loosest. -/
inductive Rank where
  /-- What a repetition applies to. -/
  | unit
  /-- A unit that may be repeated. -/
  | item
  /-- Items one after the other. -/
  | sequence
  /-- Sequences to choose from. -/
  | choice

/-- A regular expression as it is written, with atoms of type `α`. -/
inductive Expr (α : Type) : Rank → Type where
  /-- An atom. -/
  | atom (a : α) : Expr α .unit
  /-- An expression in parentheses. -/
  | group (body : Expr α .choice) : Expr α .unit
  /-- A unit that is not repeated. -/
  | once (body : Expr α .unit) : Expr α .item
  /-- A unit that is repeated. -/
  | repeated (body : Expr α .unit) (rounds : Rounds) : Expr α .item
  /-- No item. -/
  | empty : Expr α .sequence
  /-- An item in front of others. -/
  | next (first : Expr α .item) (rest : Expr α .sequence) : Expr α .sequence
  /-- A single sequence. -/
  | only (last : Expr α .sequence) : Expr α .choice
  /-- A sequence that is preferred to others. -/
  | or (first : Expr α .sequence) (rest : Expr α .choice) : Expr α .choice

/-! ### Matches -/

/-- The ends of what goes on and of what stops, in the order of preference. -/
def preferring (greedy : Bool) (further stop : List Nat) : List Nat :=
  if greedy then further ++ stop else stop ++ further

/-- The ends of one round or more from a position on, of which at most `fuel` are made. A round that
reads nothing is the last one. -/
def roundsFrom (greedy : Bool) (body : Nat → List Nat) : (fuel : Nat) → Nat → List Nat
  | 0, _ => []
  | fuel + 1, i =>
    (body i).flatMap fun j =>
      if i < j then preferring greedy (roundsFrom greedy body fuel j) [j] else [j]

/-- The ends of rounds in a text of the given size. Every round but the last reads something, so
there is no more than one for each place of the text. -/
def Rounds.ends (rounds : Rounds) (greedy : Bool) (size : Nat) (body : Nat → List Nat) (i : Nat) :
    List Nat :=
  match rounds with
  | .atMostOne => preferring greedy (body i) [i]
  | .any => preferring greedy (roundsFrom greedy body (size + 1) i) [i]
  | .atLeastOne => roundsFrom greedy body (size + 1) i

variable {α σ τ : Type}

/-- The end of a match of a single place of a text, if what stands there satisfies a condition. -/
def readAt (accepts : σ → Bool) (text : Array σ) (i : Nat) : List Nat :=
  if (text[i]?).any accepts then [i + 1] else []

/-- The ends of all matches that begin at a position of a text, preferred ones first: a repetition
prefers more rounds, a choice prefers what stands first. -/
def Expr.ends (accepts : α → σ → Bool) (text : Array σ) : {rank : Rank} → Expr α rank → Nat → List Nat
  | _, .atom a, i => readAt (accepts a) text i
  | _, .group body, i => body.ends accepts text i
  | _, .once body, i => body.ends accepts text i
  | _, .repeated body rounds, i => rounds.ends true text.size (body.ends accepts text) i
  | _, .empty, i => [i]
  | _, .next first rest, i => (first.ends accepts text i).flatMap (rest.ends accepts text)
  | _, .only last, i => last.ends accepts text i
  | _, .or first rest, i => first.ends accepts text i ++ rest.ends accepts text i

/-- The matches found from a position on, where `ends` lists the ends of the matches that begin at a
position. Where the preferred one is empty the search goes on at the next position, and behind a
match it goes on at its end. -/
def spansFrom (ends : Nat → List Nat) : (fuel : Nat) → Nat → List (Nat × Nat)
  | 0, _ => []
  | fuel + 1, i =>
    match (ends i).head? with
    | none => spansFrom ends fuel (i + 1)
    | some e => if i < e then (i, e) :: spansFrom ends fuel e else spansFrom ends fuel (i + 1)

/-- The leftmost-first matches of an expression in a text that are not empty, as their beginnings
and ends. -/
def Expr.spans (accepts : α → σ → Bool) (text : Array σ) (e : Expr α .choice) : List (Nat × Nat) :=
  spansFrom (e.ends accepts text) text.size 0

/-! ### Bounds -/

/-- An end is one of another round or of leaving. -/
theorem mem_preferring {greedy : Bool} {further stop : List Nat} {j : Nat} :
    j ∈ preferring greedy further stop ↔ j ∈ further ∨ j ∈ stop := by
  unfold preferring
  cases greedy
  · simp [or_comm]
  · simp

/-- What is read at a position stands in the text, so the position is not behind it. -/
theorem of_mem_readAt {accepts : σ → Bool} {text : Array σ} {i j : Nat}
    (hj : j ∈ readAt accepts text i) : i < text.size ∧ j = i + 1 := by
  unfold readAt at hj
  split at hj
  case isTrue hread =>
    have hin : i < text.size := by
      by_contra hout
      rw [Array.getElem?_eq_none (Nat.le_of_not_lt hout)] at hread
      cases hread
    exact ⟨hin, List.mem_singleton.1 hj⟩
  case isFalse => cases hj

/-- Rounds end where the body ends, and so within the same bounds. -/
theorem roundsFrom_bounds {greedy : Bool} {body : Nat → List Nat} {size : Nat}
    (h : ∀ i, ∀ j ∈ body i, i ≤ j ∧ j ≤ max i size) :
    ∀ fuel i, ∀ j ∈ roundsFrom greedy body fuel i, i ≤ j ∧ j ≤ max i size := by
  intro fuel
  induction fuel with
  | zero =>
    intro i j hj
    cases hj
  | succ fuel ih =>
    intro i j hj
    obtain ⟨m, hm, hj⟩ := List.mem_flatMap.1 hj
    have hbounds := h i m hm
    split at hj
    · rcases mem_preferring.1 hj with hj | hj
      · have := ih m j hj
        omega
      · cases List.mem_singleton.1 hj
        exact hbounds
    · cases List.mem_singleton.1 hj
      exact hbounds

/-- Rounds end within the text, at or behind where they begin. -/
theorem Rounds.ends_bounds (rounds : Rounds) {greedy : Bool} {body : Nat → List Nat} {size : Nat}
    (h : ∀ i, ∀ j ∈ body i, i ≤ j ∧ j ≤ max i size) :
    ∀ i, ∀ j ∈ rounds.ends greedy size body i, i ≤ j ∧ j ≤ max i size := by
  intro i j hj
  have stop : j ∈ [i] → i ≤ j ∧ j ≤ max i size := by
    intro hj
    cases List.mem_singleton.1 hj
    omega
  cases rounds with
  | atMostOne => exact (mem_preferring.1 hj).elim (h i j) stop
  | any => exact (mem_preferring.1 hj).elim (roundsFrom_bounds h _ i j) stop
  | atLeastOne => exact roundsFrom_bounds h _ i j hj

/-- A match ends within the text and not before it begins. -/
theorem Expr.ends_bounds (accepts : α → σ → Bool) (text : Array σ) {rank : Rank} (e : Expr α rank) :
    ∀ i, ∀ j ∈ e.ends accepts text i, i ≤ j ∧ j ≤ max i text.size := by
  induction e with
  | atom a =>
    intro i j hj
    have := of_mem_readAt hj
    omega
  | group body ih => exact ih
  | once body ih => exact ih
  | repeated body rounds ih => exact rounds.ends_bounds ih
  | empty =>
    intro i j hj
    cases List.mem_singleton.1 hj
    omega
  | next first rest ihf ihr =>
    intro i j hj
    obtain ⟨m, hm, hj⟩ := List.mem_flatMap.1 hj
    have hfirst := ihf i m hm
    have hrest := ihr m j hj
    omega
  | only last ih => exact ih
  | or first rest ihf ihr =>
    intro i j hj
    exact (List.mem_append.1 hj).elim (ihf i j) (ihr i j)

/-! ### Spans -/

section

variable {ends : Nat → List Nat} {size : Nat}

/-- A search finds nothing behind the text. -/
theorem spansFrom_of_le (within : ∀ i, ∀ j ∈ ends i, j ≤ max i size) (fuel : Nat) :
    ∀ {i : Nat}, size ≤ i → spansFrom ends fuel i = [] := by
  induction fuel with
  | zero =>
    intro i _
    rfl
  | succ fuel ih =>
    intro i hi
    rw [spansFrom]
    cases hends : (ends i).head? with
    | none => exact ih (Nat.le_succ_of_le hi)
    | some e =>
      have hlast := within i e (List.mem_of_head? hends)
      show (if i < e then _ else _) = _
      rw [if_neg (by omega)]
      exact ih (Nat.le_succ_of_le hi)

/-- A search makes no more steps than there are positions left, whatever more it may make. -/
theorem spansFrom_congr (within : ∀ i, ∀ j ∈ ends i, j ≤ max i size) (fuel : Nat) :
    ∀ {fuel' i : Nat}, size - i ≤ fuel → size - i ≤ fuel' →
      spansFrom ends fuel i = spansFrom ends fuel' i := by
  induction fuel with
  | zero =>
    intro fuel' i hfuel _
    rw [spansFrom_of_le within fuel' (Nat.le_of_sub_eq_zero (Nat.le_zero.1 hfuel))]
    rfl
  | succ fuel ih =>
    intro fuel' i hfuel hfuel'
    cases fuel' with
    | zero => rw [spansFrom_of_le within _ (Nat.le_of_sub_eq_zero (Nat.le_zero.1 hfuel'))]; rfl
    | succ fuel' =>
      have hbehind : ∀ {j : Nat}, i < j → spansFrom ends fuel j = spansFrom ends fuel' j :=
        fun hj => ih (by omega) (by omega)
      rw [spansFrom, spansFrom]
      cases (ends i).head? with
      | none => exact hbehind (Nat.lt_succ_self i)
      | some e =>
        show (if i < e then _ else _) = if i < e then _ else _
        by_cases he : i < e
        · rw [if_pos he, if_pos he, hbehind he]
        · rw [if_neg he, if_neg he, hbehind (Nat.lt_succ_self i)]

/-- A search finds matches that are not empty, one behind the other. -/
theorem spansFrom_spec (within : ∀ i, ∀ j ∈ ends i, j ≤ max i size) (fuel : Nat) :
    ∀ i, (∀ span ∈ spansFrom ends fuel i,
        i ≤ span.1 ∧ span.1 < span.2 ∧ span.2 ≤ size ∧ (ends span.1).head? = some span.2) ∧
      (spansFrom ends fuel i).Pairwise fun span later => span.2 ≤ later.1 := by
  -- On the fuel, for every place to search from.
  induction fuel with
  | zero =>
    intro i
    exact ⟨fun span hspan => absurd hspan List.not_mem_nil, .nil⟩
  | succ fuel ih =>
    intro i
    have further : (∀ span ∈ spansFrom ends fuel (i + 1),
        i ≤ span.1 ∧ span.1 < span.2 ∧ span.2 ≤ size ∧ (ends span.1).head? = some span.2) ∧
        (spansFrom ends fuel (i + 1)).Pairwise fun span later => span.2 ≤ later.1 := by
      refine ⟨fun span hspan => ?_, (ih (i + 1)).2⟩
      have h := (ih (i + 1)).1 span hspan
      exact ⟨Nat.le_of_succ_le h.1, h.2⟩
    rw [spansFrom]
    cases hends : (ends i).head? with
    | none => exact further
    | some e =>
      show (∀ span ∈ if i < e then _ else _, _) ∧ List.Pairwise _ (if i < e then _ else _)
      by_cases he : i < e
      · have hlast := within i e (List.mem_of_head? hends)
        rw [if_pos he]
        refine ⟨fun span hspan => ?_, List.pairwise_cons.2 ⟨fun span hspan => ?_, (ih e).2⟩⟩
        · rcases List.mem_cons.1 hspan with rfl | hspan
          · exact ⟨Nat.le_refl i, he, by simp only; omega, hends⟩
          · have h := (ih e).1 span hspan
            exact ⟨by omega, h.2⟩
        · exact ((ih e).1 span hspan).1
      · rw [if_neg he]
        exact further

end

/-- The leftmost-first matches of an expression are in the text, are not empty and stand one behind
the other, and each is the preferred one where it begins. -/
theorem Expr.spans_spec (accepts : α → σ → Bool) (text : Array σ) (e : Expr α .choice) :
    (∀ span ∈ e.spans accepts text, span.1 < span.2 ∧ span.2 ≤ text.size ∧
        (e.ends accepts text span.1).head? = some span.2) ∧
      (e.spans accepts text).Pairwise fun span later => span.2 ≤ later.1 := by
  have h := spansFrom_spec (fun i j hj => (e.ends_bounds accepts text i j hj).2) text.size 0
  exact ⟨fun span hspan => (h.1 span hspan).2, h.2⟩

end Unscramble.Pattern
