import Mathlib.Data.List.Chain
import Unscramble.Proofs.Lists
import Unscramble.Proofs.Pattern.Layout

/-! # The simple form of expressions

Expressions are built in a simple form, which matches what they are built from. The ends of matches
are then not the same list, but the same one is preferred, whatever must follow. Taking what all
alternatives begin with out of them keeps the meaning only if there is at most one way to match it:
a repetition in front is matched before one of the alternatives is chosen.

Main definitions: `Alike`, `sequenceEnds`, `Regex.isRigid`, `IsNormal`, `IsChoosable`, `Chooses`.
Main statements: `Regex.ends_concat`, `CharSet.contains_union`, `alternationIn_spec`. -/

namespace Unscramble.Pattern

/-! ### The preferred end -/

/-- Whether two lists of ends agree in the one that is preferred, whatever must follow. -/
def Alike (es fs : List Nat) : Prop :=
  ∀ (β : Type) (next : Nat → Option β), es.findSome? next = fs.findSome? next

namespace Alike

variable {es es' fs fs' : List Nat}

/-- Ends prefer what they prefer. -/
theorem refl (es : List Nat) : Alike es es :=
  fun _ _ => rfl

/-- Ends that prefer the same as others prefer what those do. -/
theorem trans (h : Alike es fs) (h' : Alike fs fs') : Alike es fs' :=
  fun β next => (h β next).trans (h' β next)

/-- The preferred end itself is the same. -/
theorem head? (h : Alike es fs) : es.head? = fs.head? := by
  have head : ∀ l : List Nat, l.findSome? some = l.head? := by
    intro l
    cases l <;> rfl
  rw [← head, ← head, h]

/-- Ends in front of others may be exchanged, and so may the others. -/
theorem append (h : Alike es fs) (h' : Alike es' fs') : Alike (es ++ es') (fs ++ fs') := by
  intro β next
  rw [List.findSome?_append, List.findSome?_append, h, h']

end Alike

/-- What a search gives that goes on in several ways behind each end. -/
theorem findSome?_flatMap {β : Type} (es : List Nat) (f : Nat → List Nat) (next : Nat → Option β) :
    (es.flatMap f).findSome? next = es.findSome? fun e => (f e).findSome? next := by
  induction es with
  | nil => rfl
  | cons e es ih =>
    rw [List.flatMap_cons, List.findSome?_append, ih, List.findSome?_cons]
    cases (f e).findSome? next <;> rfl

/-- Ends may be exchanged where every one of them is gone on from, and so may what they are gone on
to. -/
theorem Alike.flatMap {es fs : List Nat} {f g : Nat → List Nat} (h : Alike es fs)
    (h' : ∀ j, Alike (f j) (g j)) : Alike (es.flatMap f) (fs.flatMap g) := by
  intro β next
  rw [findSome?_flatMap, findSome?_flatMap, h]
  congr 1
  funext j
  exact h' j β next

/-- A round may be exchanged, whether another one is preferred or leaving. -/
theorem Alike.preferring {greedy : Bool} {es fs : List Nat} (h : Alike es fs) (stop : List Nat) :
    Alike (preferring greedy es stop) (preferring greedy fs stop) := by
  unfold Pattern.preferring
  cases greedy
  · exact (Alike.refl stop).append h
  · exact h.append (Alike.refl stop)

/-- The body of rounds may be exchanged. -/
theorem Alike.roundsFrom {greedy : Bool} {body body' : Nat → List Nat}
    (h : ∀ i, Alike (body i) (body' i)) (fuel : Nat) :
    ∀ i, Alike (roundsFrom greedy body fuel i) (roundsFrom greedy body' fuel i) := by
  induction fuel with
  | zero =>
    intro i
    exact Alike.refl []
  | succ fuel ih =>
    intro i
    refine (h i).flatMap fun j => ?_
    by_cases hj : i < j
    · rw [if_pos hj, if_pos hj]
      exact (ih j).preferring [j]
    · rw [if_neg hj, if_neg hj]
      exact Alike.refl [j]

/-- Rounds of bodies that prefer the same end prefer the same one. -/
theorem Alike.rounds {greedy : Bool} {size : Nat} {body body' : Nat → List Nat}
    (h : ∀ i, Alike (body i) (body' i)) (rounds : Rounds) (i : Nat) :
    Alike (rounds.ends greedy size body i) (rounds.ends greedy size body' i) := by
  cases rounds with
  | atMostOne => exact (h i).preferring [i]
  | any => exact (Alike.roundsFrom h _ i).preferring [i]
  | atLeastOne => exact Alike.roundsFrom h _ i

/-! ### Sequences -/

/-- The ends of matches of expressions one after the other. -/
def sequenceEnds (text : Array Char) : List Regex → Nat → List Nat
  | [], i => [i]
  | r :: rs, i => (r.ends text i).flatMap (sequenceEnds text rs)

section

variable {text : Array Char}

/-- A sequence of one part ends where that part does. -/
theorem sequenceEnds_singleton (r : Regex) (i : Nat) : sequenceEnds text [r] i = r.ends text i :=
  List.flatMap_singleton' _

/-- A sequence ends where its second half does, begun where the first half ends. -/
theorem sequenceEnds_append (rs rs' : List Regex) (i : Nat) :
    sequenceEnds text (rs ++ rs') i = (sequenceEnds text rs i).flatMap (sequenceEnds text rs') := by
  induction rs generalizing i with
  | nil => rw [List.nil_append, sequenceEnds, List.flatMap_singleton]
  | cons r rs ih =>
    rw [List.cons_append, sequenceEnds, sequenceEnds, List.flatMap_assoc]
    congr 1
    funext j
    exact ih j

/-- A text is read by reading its second half where the first half ends. -/
theorem literalEnds_append (cs cs' : List Char) (i : Nat) :
    literalEnds text (cs ++ cs') i = (literalEnds text cs i).flatMap (literalEnds text cs') := by
  induction cs generalizing i with
  | nil => rw [List.nil_append, literalEnds, List.flatMap_singleton]
  | cons c cs ih =>
    rw [List.cons_append, literalEnds, literalEnds, List.flatMap_assoc]
    congr 1
    funext j
    exact ih j

/-- The parts of an expression in sequence end where the expression does. -/
theorem sequenceEnds_parts (r : Regex) (i : Nat) : sequenceEnds text r.parts i = r.ends text i := by
  induction r generalizing i with
  | empty => rfl
  | seq first second _ ih =>
    rw [Regex.parts, sequenceEnds, Regex.ends]
    congr 1
    funext j
    exact ih j
  | _ => exact sequenceEnds_singleton _ i

/-- Taking the expressions of a sequence apart changes no end. -/
theorem sequenceEnds_flatMap_parts (rs : List Regex) (i : Nat) :
    sequenceEnds text (rs.flatMap Regex.parts) i = sequenceEnds text rs i := by
  induction rs generalizing i with
  | nil => rfl
  | cons r rs ih =>
    rw [List.flatMap_cons, sequenceEnds_append, sequenceEnds_parts, sequenceEnds]
    congr 1
    funext j
    exact ih j

/-- The first of joined literals in front of others. -/
theorem sequenceEnds_joinLiterals_cons (cs : List Char) (rs : List Regex) (i : Nat) :
    sequenceEnds text (Regex.joinLiterals (.literal cs :: rs)) i =
      (literalEnds text cs i).flatMap (sequenceEnds text (Regex.joinLiterals rs)) := by
  rw [Regex.joinLiterals]
  split
  case h_1 cs' rest heq =>
    rw [sequenceEnds, Regex.ends, literalEnds_append, List.flatMap_assoc, heq]
    rfl
  case h_2 => rfl

/-- Joining the texts that stand side by side changes no end. -/
theorem sequenceEnds_joinLiterals (rs : List Regex) (i : Nat) :
    sequenceEnds text (Regex.joinLiterals rs) i = sequenceEnds text rs i := by
  induction rs generalizing i with
  | nil => rfl
  | cons r rs ih =>
    have hrest : sequenceEnds text (Regex.joinLiterals rs) = sequenceEnds text rs := funext ih
    cases r with
    | literal cs => rw [sequenceEnds_joinLiterals_cons, hrest]; rfl
    | _ =>
      rw [Regex.joinLiterals, sequenceEnds, hrest, sequenceEnds]
      exact nofun

/-- The expression that is made of parts ends where their sequence does. -/
theorem ends_ofParts (rs : List Regex) (i : Nat) :
    (Regex.ofParts rs).ends text i = sequenceEnds text rs i := by
  induction rs generalizing i with
  | nil => rfl
  | cons r rs ih =>
    cases rs with
    | nil => exact (sequenceEnds_singleton r i).symm
    | cons r' rs =>
      have hrest : (Regex.ofParts (r' :: rs)).ends text = sequenceEnds text (r' :: rs) := funext ih
      rw [Regex.ofParts, Regex.ends, hrest, sequenceEnds]
      exact List.cons_ne_nil r' rs

/-- Expressions in a row match what they match one after the other. -/
theorem Regex.ends_concat (rs : List Regex) (i : Nat) :
    (concat rs).ends text i = sequenceEnds text rs i := by
  rw [concat, ends_ofParts, sequenceEnds_joinLiterals, sequenceEnds_flatMap_parts]

end

/-! ### Sets -/

/-- The character with a valid number has that number. -/
theorem toNat_ofNat {n : Nat} (h : n.isValidChar) : (Char.ofNat n).toNat = n := by
  rw [Char.ofNat, dif_pos h]
  rfl

/-- Whether the bounds of a range are characters, the lower one first. -/
def CharRange.IsValid (r : CharRange) : Prop :=
  r.low ≤ r.high ∧ r.low.isValidChar ∧ r.high.isValidChar

/-- Whether all ranges of a set are valid. -/
def CharSet.IsValid (set : CharSet) : Prop :=
  ∀ r ∈ set, r.IsValid

namespace CharSet

/-- The set of one character is in order. -/
theorem isValid_single (c : Char) : IsValid (single c) := by
  intro r hr
  cases List.mem_singleton.1 hr
  exact ⟨Nat.le_refl _, c.valid, c.valid⟩

/-- A set has the characters of its first range and those of the other ones. -/
theorem contains_cons (r : CharRange) (set : CharSet) (c : Char) :
    contains (r :: set) c = (r.contains c || contains set c) :=
  List.any_cons

/-- The set of one character has that character only. -/
theorem contains_single (c d : Char) : (single c).contains d = (d == c) := by
  have htoNat : d = c ↔ c.toNat = d.toNat := eq_comm.trans Char.toNat_inj.symm
  rw [single, contains_cons]
  show (decide (c.toNat ≤ d.toNat) && decide (d.toNat ≤ c.toNat) || false) = _
  rw [Bool.or_false, Bool.eq_iff_iff, Bool.and_eq_true, decide_eq_true_eq, decide_eq_true_eq,
    beq_iff_eq, htoNat]
  omega

/-- Adding a range to a set adds its characters. A range that meets another one is joined with it,
and what lies between their outer bounds lies in one of them. -/
theorem contains_insert {r : CharRange} {set : CharSet} (hr : r.IsValid) (hset : IsValid set) :
    IsValid (insert r set) ∧ ∀ c, (insert r set).contains c = (r.contains c || set.contains c) := by
  -- On the set: the range goes in front of the first one that is higher, and takes in the ranges
  -- that it meets.
  induction set generalizing r with
  | nil =>
    refine ⟨fun s hs => ?_, fun c => rfl⟩
    cases List.mem_singleton.1 hs
    exact hr
  | cons s set ih =>
    have hs := hset s List.mem_cons_self
    have hrest : IsValid set := fun s hs => hset s (List.mem_cons_of_mem _ hs)
    rw [insert]
    split
    · exact ⟨fun t ht => (List.mem_cons.1 ht).elim (fun h => h ▸ hr) (hset t), fun c => rfl⟩
    · split
      · obtain ⟨hvalid, hcontains⟩ := ih hr hrest
        refine ⟨fun t ht => (List.mem_cons.1 ht).elim (fun h => h ▸ hs) (hvalid t), fun c => ?_⟩
        rw [contains_cons, contains_cons, hcontains, Bool.or_left_comm]
      · have hjoined : CharRange.IsValid ⟨min r.low s.low, max r.high s.high⟩ := by
          refine ⟨?_, ?_, ?_⟩
          · have := hr.1
            simp only
            omega
          · show (min r.low s.low).isValidChar
            rcases Nat.le_total r.low s.low with h | h
            · rw [Nat.min_eq_left h]
              exact hr.2.1
            · rw [Nat.min_eq_right h]
              exact hs.2.1
          · show (max r.high s.high).isValidChar
            rcases Nat.le_total r.high s.high with h | h
            · rw [Nat.max_eq_right h]
              exact hs.2.2
            · rw [Nat.max_eq_left h]
              exact hr.2.2
        obtain ⟨hvalid, hcontains⟩ := ih hjoined hrest
        refine ⟨hvalid, fun c => ?_⟩
        rw [hcontains, contains_cons, ← Bool.or_assoc]
        congr 1
        rw [Bool.eq_iff_iff]
        simp only [CharRange.contains, Bool.or_eq_true, Bool.and_eq_true, decide_eq_true_eq]
        have := hr.1
        have := hs.1
        omega

/-- The union of two sets in order is in order and has the characters of both. -/
theorem contains_union {a b : CharSet} (ha : IsValid a) (hb : IsValid b) :
    IsValid (union a b) ∧ ∀ c, (union a b).contains c = (a.contains c || b.contains c) := by
  induction b generalizing a with
  | nil =>
    refine ⟨ha, fun c => ?_⟩
    show a.contains c = (a.contains c || false)
    rw [Bool.or_false]
  | cons r b ih =>
    obtain ⟨hvalid, hcontains⟩ := contains_insert (hb r List.mem_cons_self) ha
    obtain ⟨hunion, hall⟩ := ih hvalid fun s hs => hb s (List.mem_cons_of_mem _ hs)
    refine ⟨hunion, fun c => ?_⟩
    show (union (insert r a) b).contains c = _
    rw [hall, hcontains, contains_cons, Bool.or_comm (r.contains c), Bool.or_assoc]

/-- The union of several sets, one after the other. -/
theorem contains_foldl_union {sets : List CharSet} (hsets : ∀ set ∈ sets, IsValid set) :
    ∀ {a : CharSet}, IsValid a → IsValid (sets.foldl union a) ∧
      ∀ c, (sets.foldl union a).contains c = (a.contains c || sets.any (·.contains c)) := by
  induction sets with
  | nil =>
    intro a ha
    refine ⟨ha, fun c => ?_⟩
    show a.contains c = (a.contains c || false)
    rw [Bool.or_false]
  | cons set sets ih =>
    intro a ha
    obtain ⟨hvalid, hcontains⟩ := contains_union ha (hsets set List.mem_cons_self)
    obtain ⟨hfold, hall⟩ := ih (fun s hs => hsets s (List.mem_cons_of_mem _ hs)) hvalid
    refine ⟨hfold, fun c => ?_⟩
    rw [List.foldl_cons, hall, hcontains, List.any_cons, Bool.or_assoc]

/-- The only character of a set is the only one that it contains. -/
theorem contains_of_single? {set : CharSet} {c : Char} (hset : IsValid set)
    (h : set.single? = some c) (d : Char) : set.contains d = (single c).contains d := by
  match set with
  | [] => cases h
  | [r] =>
    rw [single?] at h
    split at h
    case isTrue heq =>
      cases h
      have hvalid := (hset r List.mem_cons_self).2.1
      rw [single, toNat_ofNat hvalid]
      show (decide _ && decide _ || false) = (decide _ && decide _ || false)
      rw [← heq]
    case isFalse => cases h
  | _ :: _ :: _ => cases h

end CharSet

/-- Reading depends only on which characters are accepted. -/
theorem readAt_congr {σ : Type} {accepts accepts' : σ → Bool} (h : ∀ c, accepts c = accepts' c)
    (text : Array σ) (i : Nat) : readAt accepts text i = readAt accepts' text i := by
  rw [funext h]

/-- A set in its simple form matches its characters. -/
theorem Regex.ends_ofSet {text : Array Char} {set : CharSet} (hset : set.IsValid) (i : Nat) :
    (ofSet set).ends text i = readAt set.contains text i := by
  unfold ofSet
  split
  case h_1 c hc =>
    rw [Regex.ends, literalEnds]
    show (readAt _ text i).flatMap (fun j => [j]) = _
    rw [List.flatMap_singleton', readAt_congr (CharSet.contains_of_single? hset hc)]
  case h_2 => rfl

/-- An expression that matches single characters matches those of a set. -/
theorem Regex.ends_of_charSet? {text : Array Char} {r : Regex} {set : CharSet}
    (h : r.charSet? = some set) (i : Nat) : r.ends text i = readAt set.contains text i := by
  unfold charSet? at h
  split at h
  case h_1 c =>
    cases h
    exact List.flatMap_singleton' _
  case h_2 =>
    cases h
    rfl
  case h_3 => cases h

/-! ### Steadiness -/

section

variable {text : Array Char}

/-- The parts of a steady expression are steady. -/
theorem isSteady_parts {r : Regex} (h : r.IsSteady text) : ∀ p ∈ r.parts, p.IsSteady text := by
  induction r with
  | empty =>
    intro p hp
    cases hp
  | seq first second _ ih =>
    intro p hp
    rcases List.mem_cons.1 hp with rfl | hp
    · exact h.1
    · exact ih h.2 p hp
  | _ =>
    intro p hp
    cases List.mem_singleton.1 hp
    exact h

/-- Joining texts keeps parts steady. -/
theorem isSteady_joinLiterals {rs : List Regex} (h : ∀ r ∈ rs, r.IsSteady text) :
    ∀ p ∈ Regex.joinLiterals rs, p.IsSteady text := by
  induction rs with
  | nil => exact h
  | cons r rs ih =>
    have hrest := ih fun p hp => h p (List.mem_cons_of_mem _ hp)
    cases r with
    | literal cs =>
      rw [Regex.joinLiterals]
      split
      case h_1 cs' rest heq =>
        rw [heq] at hrest
        intro p hp
        rcases List.mem_cons.1 hp with rfl | hp
        · exact trivial
        · exact hrest p (List.mem_cons_of_mem _ hp)
      case h_2 => exact List.forall_mem_cons.2 ⟨trivial, hrest⟩
    | _ =>
      rw [Regex.joinLiterals]
      · exact List.forall_mem_cons.2 ⟨h _ List.mem_cons_self, hrest⟩
      · exact nofun

/-- What is made of steady parts is steady. -/
theorem isSteady_ofParts {rs : List Regex} (h : ∀ r ∈ rs, r.IsSteady text) :
    (Regex.ofParts rs).IsSteady text := by
  induction rs with
  | nil => exact trivial
  | cons r rs ih =>
    cases rs with
    | nil => exact h r List.mem_cons_self
    | cons r' rs =>
      exact ⟨h r List.mem_cons_self, ih fun p hp => h p (List.mem_cons_of_mem _ hp)⟩

/-- A sequence of steady expressions is steady. -/
theorem isSteady_concat {rs : List Regex} (h : ∀ r ∈ rs, r.IsSteady text) :
    (Regex.concat rs).IsSteady text := by
  refine isSteady_ofParts (isSteady_joinLiterals fun p hp => ?_)
  obtain ⟨r, hr, hp⟩ := List.mem_flatMap.1 hp
  exact isSteady_parts (h r hr) p hp

/-- A choice between steady expressions is steady. -/
theorem isSteady_ofBranches {rs : List Regex} (h : ∀ r ∈ rs, r.IsSteady text) :
    (Regex.ofBranches rs).IsSteady text := by
  induction rs with
  | nil => exact trivial
  | cons r rs ih =>
    cases rs with
    | nil => exact h r List.mem_cons_self
    | cons r' rs =>
      exact ⟨h r List.mem_cons_self, ih fun p hp => h p (List.mem_cons_of_mem _ hp)⟩

end

/-! ### Alternatives -/

/-- Whether there is at most one way to match an expression at a position. -/
def Regex.isRigid : Regex → Bool
  | .empty | .literal _ | .oneOf _ | .anchor _ => true
  | _ => false

/-- Whether an expression may stand in a sequence as it is. -/
def Regex.IsPart : Regex → Prop
  | .literal _ | .group _ _ | .repetition _ _ _ => True
  | .oneOf set => set.IsValid
  | _ => False

/-- Whether an expression is a literal. -/
def Regex.IsLiteral : Regex → Prop
  | .literal _ => True
  | _ => False

/-- Whether a list of expressions is a sequence in its simple form. -/
def IsNormal (ps : List Regex) : Prop :=
  (∀ p ∈ ps, p.IsPart) ∧ ps.IsChain fun p q => ¬ (p.IsLiteral ∧ q.IsLiteral)

section

variable {text : Array Char}

/-- There is at most one way to read a character. -/
theorem length_readAt_le {σ : Type} (accepts : σ → Bool) (text : Array σ) (i : Nat) :
    (readAt accepts text i).length ≤ 1 := by
  unfold readAt
  split <;> simp

/-- There is at most one way to read a text. -/
theorem length_literalEnds_le (text : Array Char) (cs : List Char) (i : Nat) :
    (literalEnds text cs i).length ≤ 1 := by
  induction cs generalizing i with
  | nil => exact Nat.le_refl 1
  | cons c cs ih =>
    rw [literalEnds]
    have hone := length_readAt_le (CharSet.single c).contains text i
    cases hread : readAt (CharSet.single c).contains text i with
    | nil => exact Nat.zero_le 1
    | cons j rest =>
      rw [hread] at hone
      have hnil : rest = [] := List.length_eq_zero_iff.1 (Nat.le_zero.1 (Nat.le_of_succ_le_succ hone))
      rw [hnil, List.flatMap_singleton]
      exact ih j

/-- There is at most one way to match a rigid expression. -/
theorem Regex.length_ends_le (text : Array Char) {r : Regex} (h : r.isRigid = true) (i : Nat) :
    (r.ends text i).length ≤ 1 := by
  cases r with
  | empty => exact Nat.le_refl 1
  | literal cs => exact length_literalEnds_le text cs i
  | oneOf set => exact length_readAt_le _ text i
  | anchor place =>
    rw [ends]
    split <;> simp
  | group | repetition | seq | alt => cases h

/-- There is at most one way to match rigid parts in sequence. -/
theorem length_sequenceEnds_le (text : Array Char) {rs : List Regex}
    (h : ∀ r ∈ rs, r.isRigid = true) (i : Nat) : (sequenceEnds text rs i).length ≤ 1 := by
  induction rs generalizing i with
  | nil => exact Nat.le_refl 1
  | cons r rs ih =>
    rw [sequenceEnds]
    have hone := Regex.length_ends_le text (h r List.mem_cons_self) i
    match r.ends text i, hone with
    | [], _ => exact Nat.zero_le 1
    | [j], _ =>
      rw [List.flatMap_singleton]
      exact ih (fun p hp => h p (List.mem_cons_of_mem _ hp)) j

/-- A part is its only part. -/
theorem Regex.IsPart.parts {p : Regex} (h : p.IsPart) : p.parts = [p] := by
  cases p with
  | literal | oneOf | group | repetition => rfl
  | empty | anchor | seq | alt => cases h

/-- A part is its only alternative. -/
theorem Regex.IsPart.branches {p : Regex} (h : p.IsPart) : p.branches = [p] := by
  cases p with
  | literal | oneOf | group | repetition => rfl
  | empty | anchor | seq | alt => cases h

/-- A part is not made of several parts. -/
theorem Regex.IsPart.several {p : Regex} (h : p.IsPart) : p.several = [] := by
  cases p with
  | literal | oneOf | group | repetition => rfl
  | empty | anchor | seq | alt => cases h

namespace IsNormal

variable {ps : List Regex}

/-- What is left of parts in their simple form is in that form. -/
theorem drop (h : IsNormal ps) (n : Nat) : IsNormal (ps.drop n) :=
  ⟨fun p hp => h.1 p (List.mem_of_mem_drop hp), h.2.suffix (List.drop_suffix n ps)⟩

/-- The parts of what is made of parts are those. -/
theorem parts (h : ∀ p ∈ ps, p.IsPart) : (Regex.ofParts ps).parts = ps := by
  induction ps with
  | nil => rfl
  | cons p ps ih =>
    cases ps with
    | nil => exact (h p List.mem_cons_self).parts
    | cons q ps =>
      show p :: (Regex.ofParts (q :: ps)).parts = _
      rw [ih fun p hp => h p (List.mem_cons_of_mem _ hp)]

/-- What is made of parts in sequence is its only alternative. -/
theorem branches (h : ∀ p ∈ ps, p.IsPart) :
    (Regex.ofParts ps).branches = [Regex.ofParts ps] := by
  match ps with
  | [] => rfl
  | [p] => exact (h p List.mem_cons_self).branches
  | _ :: _ :: _ => rfl

/-- If what is made of parts has several, they are the first of those. -/
theorem several_prefix (h : ∀ p ∈ ps, p.IsPart) : (Regex.ofParts ps).several <+: ps := by
  match ps with
  | [] => exact List.nil_prefix
  | [p] =>
    show p.several <+: [p]
    rw [(h p List.mem_cons_self).several]
    exact List.nil_prefix
  | p :: q :: ps =>
    show (Regex.ofParts (p :: q :: ps)).parts <+: _
    rw [parts h]

/-- Parts that are joined as they are. -/
theorem flatMap_parts (h : ∀ p ∈ ps, p.IsPart) : ps.flatMap Regex.parts = ps := by
  induction ps with
  | nil => rfl
  | cons p ps ih =>
    rw [List.flatMap_cons, (h p List.mem_cons_self).parts,
      ih fun q hq => h q (List.mem_cons_of_mem _ hq)]
    rfl

/-- No texts stand side by side among parts in their simple form. -/
theorem joinLiterals_eq (h : IsNormal ps) : Regex.joinLiterals ps = ps := by
  induction ps with
  | nil => rfl
  | cons p ps ih =>
    have hrest := ih (h.drop 1)
    cases p with
    | literal cs =>
      rw [Regex.joinLiterals, hrest]
      match ps, h.2 with
      | .literal cs' :: ps, hchain => exact absurd ⟨trivial, trivial⟩ (List.isChain_cons_cons.1 hchain).1
      | [], _ => rfl
      | .empty :: _, _ | .oneOf _ :: _, _ | .anchor _ :: _, _ | .group _ _ :: _, _
      | .repetition _ _ _ :: _, _ | .seq _ _ :: _, _ | .alt _ _ :: _, _ => rfl
    | _ =>
      rw [Regex.joinLiterals, hrest]
      exact nofun

/-- A simple sequence stays as it is. -/
theorem concat (h : IsNormal ps) : Regex.concat ps = Regex.ofParts ps := by
  rw [Regex.concat, flatMap_parts h.1, joinLiterals_eq h]

/-- Joining literals makes a sequence simple. -/
theorem joinLiterals (h : ∀ p ∈ ps, p.IsPart) : IsNormal (Regex.joinLiterals ps) := by
  induction ps with
  | nil => exact ⟨h, .nil⟩
  | cons p ps ih =>
    have hrest := ih fun q hq => h q (List.mem_cons_of_mem _ hq)
    -- A literal in front of a sequence that starts with one is joined with it; otherwise no two
    -- meet.
    cases p with
    | literal cs =>
      rw [Regex.joinLiterals]
      split
      case h_1 cs' rest heq =>
        rw [heq] at hrest
        refine ⟨fun q hq => ?_, ?_⟩
        · rcases List.mem_cons.1 hq with rfl | hq
          · exact trivial
          · exact hrest.1 q (List.mem_cons_of_mem _ hq)
        · cases rest with
          | nil => exact .singleton _
          | cons q rest =>
            obtain ⟨hfirst, hchain⟩ := List.isChain_cons_cons.1 hrest.2
            exact List.isChain_cons_cons.2 ⟨hfirst, hchain⟩
      case h_2 hnot =>
        refine ⟨List.forall_mem_cons.2 ⟨trivial, hrest.1⟩, ?_⟩
        cases hjoined : Regex.joinLiterals ps with
        | nil => exact .singleton _
        | cons q rest =>
          refine List.isChain_cons_cons.2 ⟨fun hboth => ?_, hjoined ▸ hrest.2⟩
          cases q with
          | literal cs' => exact hnot cs' rest hjoined
          | _ => exact hboth.2
    | _ =>
      rw [Regex.joinLiterals]
      · refine ⟨List.forall_mem_cons.2 ⟨h _ List.mem_cons_self, hrest.1⟩, ?_⟩
        cases hjoined : Regex.joinLiterals ps with
        | nil => exact .singleton _
        | cons q rest =>
          exact List.isChain_cons_cons.2 ⟨fun hboth => hboth.1, hjoined ▸ hrest.2⟩
      · exact nofun

end IsNormal

/-- The expressions at the front that two lists have in common are at the front of both. -/
theorem sharedFront_prefix (rs rs' : List Regex) :
    Regex.sharedFront rs rs' <+: rs ∧ Regex.sharedFront rs rs' <+: rs' := by
  induction rs generalizing rs' with
  | nil => exact ⟨List.nil_prefix, List.nil_prefix⟩
  | cons r rs ih =>
    cases rs' with
    | nil => exact ⟨List.nil_prefix, List.nil_prefix⟩
    | cons r' rs' =>
      rw [Regex.sharedFront]
      split
      case isTrue heq =>
        subst heq
        exact ⟨List.cons_prefix_cons.2 ⟨rfl, (ih rs').1⟩, List.cons_prefix_cons.2 ⟨rfl, (ih rs').2⟩⟩
      case isFalse => exact ⟨List.nil_prefix, List.nil_prefix⟩

/-- What expressions have in common at the front is at the front of each of them. -/
theorem foldl_sharedFront_prefix (rs : List Regex) :
    ∀ front : List Regex,
      (rs.foldl (fun front r => Regex.sharedFront front r.several) front) <+: front ∧
        ∀ r ∈ rs, (rs.foldl (fun front r => Regex.sharedFront front r.several) front) <+:
          r.several := by
  induction rs with
  | nil => exact fun front => ⟨List.prefix_rfl, fun r hr => absurd hr List.not_mem_nil⟩
  | cons r rs ih =>
    intro front
    obtain ⟨hfront, hrest⟩ := ih (Regex.sharedFront front r.several)
    have hshared := sharedFront_prefix front r.several
    refine ⟨hfront.trans hshared.1, fun r' hr' => ?_⟩
    rcases List.mem_cons.1 hr' with rfl | hr'
    · exact hfront.trans hshared.2
    · exact hrest r' hr'

/-- The ends of matches of a choice. -/
theorem ends_ofBranches (rs : List Regex) (i : Nat) :
    (Regex.ofBranches rs).ends text i = rs.flatMap fun r => r.ends text i := by
  induction rs with
  | nil =>
    show readAt (fun _ => false) text i = []
    unfold readAt
    cases text[i]? <;> rfl
  | cons r rs ih =>
    cases rs with
    | nil => rw [Regex.ofBranches, List.flatMap_singleton]
    | cons r' rs =>
      rw [Regex.ofBranches, Regex.ends, ih]
      · rfl
      · exact List.cons_ne_nil r' rs

/-- Reading one of two kinds of characters is reading a character of either kind. -/
theorem alike_readAt_or {σ : Type} (accepts accepts' : σ → Bool) (text : Array σ) (i : Nat) :
    Alike (readAt (fun c => accepts c || accepts' c) text i)
      (readAt accepts text i ++ readAt accepts' text i) := by
  intro β next
  unfold readAt
  cases text[i]? with
  | none => rfl
  | some c =>
    simp only [Option.any_some]
    by_cases ha : accepts c = true
    · by_cases hb : accepts' c = true
      · simp only [ha, hb, Bool.or_self, if_true, List.singleton_append, List.findSome?_cons]
        cases next (i + 1) <;> rfl
      · simp [ha, hb]
    · simp [ha]

/-- Reading a character of one of several sets. -/
theorem alike_readAt_any (sets : List CharSet) (i : Nat) :
    Alike (readAt (fun c => sets.any (·.contains c)) text i)
      (sets.flatMap fun set => readAt set.contains text i) := by
  induction sets with
  | nil =>
    unfold readAt
    cases text[i]? <;> exact Alike.refl []
  | cons set sets ih =>
    rw [List.flatMap_cons]
    exact (alike_readAt_or set.contains (fun c => sets.any (·.contains c)) text i).trans
      ((Alike.refl _).append ih)

/-- What all alternatives begin with may be matched once, before one of them is chosen, if there is
at most one way to match it. -/
theorem flatMap_sequenceEnds_append {front : List Regex} (h : ∀ p ∈ front, p.isRigid = true)
    (rests : List (List Regex)) (i : Nat) :
    rests.flatMap (fun rest => sequenceEnds text (front ++ rest) i) =
      (sequenceEnds text front i).flatMap fun j =>
        rests.flatMap fun rest => sequenceEnds text rest j := by
  have hone := length_sequenceEnds_le text h i
  have happend : (fun rest => sequenceEnds text (front ++ rest) i) =
      fun rest => (sequenceEnds text front i).flatMap (sequenceEnds text rest) :=
    funext fun rest => sequenceEnds_append front rest i
  rw [happend]
  match sequenceEnds text front i, hone with
  | [], _ => simp
  | [j], _ => simp

/-- A map that succeeds on a list succeeds on each of its elements. -/
theorem forall₂_of_mapM {α β : Type} {f : α → Option β} {xs : List α} {ys : List β}
    (h : xs.mapM f = some ys) : List.Forall₂ (fun x y => f x = some y) xs ys := by
  induction xs generalizing ys with
  | nil =>
    cases h
    exact .nil
  | cons x xs ih =>
    rw [List.mapM_cons] at h
    obtain ⟨y, hy, h⟩ := Option.bind_eq_some_iff.1 h
    obtain ⟨ys', hys, h⟩ := Option.bind_eq_some_iff.1 h
    cases h
    exact .cons hy (ih hys)

/-- Alternatives that match single characters match those of their sets. -/
theorem flatMap_ends_of_charSet? {rs : List Regex} {sets : List CharSet}
    (h : List.Forall₂ (fun r set => r.charSet? = some set) rs sets) (i : Nat) :
    (rs.flatMap fun r => r.ends text i) = sets.flatMap fun set => readAt set.contains text i := by
  induction h with
  | nil => rfl
  | cons hset _ ih => rw [List.flatMap_cons, List.flatMap_cons, Regex.ends_of_charSet? hset, ih]

/-- The characters that parts match are a set in order, if they match single characters at all. -/
theorem isValid_of_charSet? {ps : List Regex} (h : ∀ p ∈ ps, p.IsPart) {set : CharSet}
    (hset : (Regex.ofParts ps).charSet? = some set) : set.IsValid := by
  match ps with
  | [] => cases hset
  | _ :: _ :: _ => cases hset
  | [p] =>
    have hp := h p List.mem_cons_self
    change p.charSet? = some set at hset
    unfold Regex.charSet? at hset
    split at hset
    case h_1 c =>
      cases hset
      exact CharSet.isValid_single c
    case h_2 =>
      cases hset
      exact hp
    case h_3 => cases hset

/-- Alternatives that are single characters, as one set. -/
theorem ofSet_union_spec {pss : List (List Regex)} (h : ∀ ps ∈ pss, ∀ p ∈ ps, p.IsPart)
    {sets : List CharSet} (hsets : (pss.map Regex.ofParts).mapM Regex.charSet? = some sets)
    (i : Nat) :
    Alike ((Regex.ofSet (sets.foldl CharSet.union [])).ends text i)
      ((pss.map Regex.ofParts).flatMap fun r => r.ends text i) := by
  have hall := forall₂_of_mapM hsets
  have hvalid : ∀ set ∈ sets, CharSet.IsValid set := by
    intro set hset
    obtain ⟨r, hr, heq⟩ := exists_of_mem_right hall hset
    obtain ⟨ps, hps, rfl⟩ := List.mem_map.1 hr
    exact isValid_of_charSet? (h ps hps) heq
  have hempty : CharSet.IsValid [] := fun r hr => absurd hr List.not_mem_nil
  obtain ⟨hunion, hcontains⟩ := CharSet.contains_foldl_union hvalid hempty
  rw [Regex.ends_ofSet hunion, readAt_congr hcontains, flatMap_ends_of_charSet? hall]
  exact alike_readAt_any sets i

/-- Whether alternatives are simple sequences whose meaning does not depend on when what they all
begin with is matched. -/
structure IsChoosable (text : Array Char) (pss : List (List Regex)) : Prop where
  /-- Each alternative is in its simple form. -/
  normal : ∀ ps ∈ pss, IsNormal ps
  /-- Further rounds read something. -/
  steady : ∀ ps ∈ pss, ∀ p ∈ ps, p.IsSteady text
  /-- There is at most one way to match what several alternatives all begin with. -/
  rigid : 2 ≤ pss.length → ∀ front, (∀ ps ∈ pss, front <+: ps) → ∀ p ∈ front, p.isRigid = true

/-- The alternatives are no choices themselves. -/
theorem IsChoosable.flatMap_branches {pss : List (List Regex)} (h : IsChoosable text pss) :
    (pss.map Regex.ofParts).flatMap Regex.branches = pss.map Regex.ofParts := by
  rw [List.flatMap_map]
  have hsingle : ∀ ps ∈ pss, (Regex.ofParts ps).branches = [Regex.ofParts ps] :=
    fun ps hps => IsNormal.branches (h.normal ps hps).1
  clear h
  induction pss with
  | nil => rfl
  | cons ps pss ih =>
    rw [List.flatMap_cons, hsingle ps List.mem_cons_self,
      ih fun ps hps => hsingle ps (List.mem_cons_of_mem _ hps)]
    rfl

/-- Alternatives stay choosable when what they all begin with is taken out of them. -/
theorem IsChoosable.drop {pss : List (List Regex)} (h : IsChoosable text pss) {front : List Regex}
    (hfront : ∀ ps ∈ pss, front <+: ps) :
    IsChoosable text (pss.map (·.drop front.length)) where
  normal := by
    intro ps' hps'
    obtain ⟨ps, hps, rfl⟩ := List.mem_map.1 hps'
    exact (h.normal ps hps).drop _
  steady := by
    intro ps' hps' p hp
    obtain ⟨ps, hps, rfl⟩ := List.mem_map.1 hps'
    exact h.steady ps hps p (List.mem_of_mem_drop hp)
  rigid := by
    intro htwo front' hfront' p hp
    rw [List.length_map] at htwo
    refine h.rigid htwo (front ++ front') (fun ps hps => ?_) p (List.mem_append_right _ hp)
    obtain ⟨rest, rfl⟩ := hfront ps hps
    have := hfront' _ (List.mem_map.2 ⟨_, hps, rfl⟩)
    rw [List.drop_left] at this
    exact (List.prefix_append_right_inj front).2 this

/-- An expression is a choice between alternatives: it prefers the ends that they have, one after the
other. -/
structure Chooses (text : Array Char) (r : Regex) (pss : List (List Regex)) : Prop where
  /-- Every round of its repetitions reads something. -/
  steady : r.IsSteady text
  /-- Its ends are those of the alternatives. -/
  alike : ∀ i, Alike (r.ends text i) (pss.flatMap fun ps => sequenceEnds text ps i)

/-- The ends of the alternatives are those of their parts. -/
theorem flatMap_ends_ofParts (pss : List (List Regex)) (i : Nat) :
    ((pss.map Regex.ofParts).flatMap fun r => r.ends text i) =
      pss.flatMap fun ps => sequenceEnds text ps i := by
  rw [List.flatMap_map]
  congr 1
  funext ps
  exact ends_ofParts ps i

namespace IsChoosable

variable {pss : List (List Regex)} (h : IsChoosable text pss)

include h

/-- Alternatives that are left as they are. -/
theorem chooses_ofBranches : Chooses text (Regex.ofBranches (pss.map Regex.ofParts)) pss where
  steady := by
    refine isSteady_ofBranches fun r hr => ?_
    obtain ⟨ps, hps, rfl⟩ := List.mem_map.1 hr
    exact isSteady_ofParts (h.steady ps hps)
  alike i := by
    rw [ends_ofBranches, flatMap_ends_ofParts]
    exact Alike.refl _

/-- Alternatives that are characters are a set of them. -/
theorem chooses_ofSet {sets : List CharSet}
    (hsets : (pss.map Regex.ofParts).mapM Regex.charSet? = some sets) :
    Chooses text (Regex.ofSet (sets.foldl CharSet.union [])) pss where
  steady := by
    unfold Regex.ofSet
    split <;> exact trivial
  alike i := by
    rw [← flatMap_ends_ofParts]
    exact ofSet_union_spec (fun ps hps => (h.normal ps hps).1) hsets i

/-- What the expressions begin with their parts begin with. -/
theorem prefix_of_several {front : List Regex}
    (hfront : ∀ r ∈ pss.map Regex.ofParts, front <+: r.several) : ∀ ps ∈ pss, front <+: ps :=
  fun ps hps => (hfront _ (List.mem_map_of_mem hps)).trans
    (IsNormal.several_prefix (h.normal ps hps).1)

/-- Parts that are dropped leave the expression of the others. -/
theorem map_concat_drop (n : Nat) :
    (pss.map Regex.ofParts).map (fun r => Regex.concat (r.parts.drop n)) =
      (pss.map (·.drop n)).map Regex.ofParts := by
  rw [List.map_map, List.map_map]
  refine List.map_congr_left fun ps hps => ?_
  have hnormal := h.normal ps hps
  show Regex.concat ((Regex.ofParts ps).parts.drop n) = Regex.ofParts (ps.drop n)
  rw [IsNormal.parts hnormal.1, (hnormal.drop _).concat]

/-- A common front can be taken out of the alternatives. -/
theorem chooses_concat {front : List Regex} (htwo : 2 ≤ pss.length)
    (hfront : ∀ ps ∈ pss, front <+: ps) {r : Regex}
    (hr : Chooses text r (pss.map (·.drop front.length))) :
    Chooses text (Regex.concat (front ++ [r])) pss where
  steady := by
    obtain ⟨ps, hps⟩ := List.exists_mem_of_length_pos (Nat.lt_of_lt_of_le Nat.two_pos htwo)
    refine isSteady_concat fun x hx => ?_
    rcases List.mem_append.1 hx with hx | hx
    · exact h.steady ps hps x ((hfront ps hps).subset hx)
    · cases List.mem_singleton.1 hx
      exact hr.steady
  alike i := by
    -- The common front is matched in one way at most, so it may as well be matched again for each
    -- alternative.
    have hjoined : (pss.flatMap fun ps => sequenceEnds text ps i) =
        (sequenceEnds text front i).flatMap fun j =>
          (pss.map (·.drop front.length)).flatMap fun rest => sequenceEnds text rest j := by
      rw [← flatMap_sequenceEnds_append (h.rigid htwo front hfront), List.flatMap_map]
      refine List.flatMap_congr fun ps hps => ?_
      obtain ⟨rest, rfl⟩ := hfront ps hps
      rw [List.drop_left]
    rw [Regex.ends_concat, sequenceEnds_append, hjoined]
    refine (Alike.refl _).flatMap fun j => ?_
    rw [sequenceEnds_singleton]
    exact hr.alike j

end IsChoosable

/-- **The choice between alternatives in its simple form** prefers the ends that the alternatives
have, one after the other. -/
theorem alternationIn_spec (fuel : Nat) : ∀ {pss : List (List Regex)}, IsChoosable text pss →
    Chooses text (Regex.alternationIn fuel (pss.map Regex.ofParts)) pss := by
  induction fuel with
  | zero => exact fun h => h.chooses_ofBranches
  | succ fuel ih =>
    intro pss h
    rw [Regex.alternationIn, h.flatMap_branches]
    split
    case h_1 sets _ hsets => exact h.chooses_ofSet hsets
    case h_2 first second rest _ heq =>
      have hfold := foldl_sharedFront_prefix (second :: rest) first.several
      dsimp only
      generalize (second :: rest).foldl (fun front r => Regex.sharedFront front r.several)
        first.several = front at hfold ⊢
      split
      case isTrue => exact h.chooses_ofBranches
      case isFalse =>
        have hfront : ∀ ps ∈ pss, front <+: ps := by
          refine h.prefix_of_several ?_
          rw [heq]
          exact List.forall_mem_cons.2 hfold
        have htwo : 2 ≤ pss.length := by
          rw [← List.length_map (Regex.ofParts), heq, List.length_cons, List.length_cons]
          omega
        rw [h.map_concat_drop]
        exact h.chooses_concat htwo hfront (ih (h.drop hfront))
    case h_3 => exact h.chooses_ofBranches

end

end Unscramble.Pattern
