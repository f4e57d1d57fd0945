import Mathlib.Data.Finset.Card
import Mathlib.Data.Finset.Prod
import Mathlib.Logic.Relation
import Unscramble.Proofs.Pattern.Layout

/-! # What a search finds

A search visits no node twice at the same position. That loses nothing: what lies behind a visited
pair of a node and a position has been searched without success, for no way comes back to a pair
that it started from. So the search gives the end of the first way, and the matches found in a text
are the leftmost-first ones.

Main definitions: `Tracks`, `Visits.unseen`.
Main statements: `explore_spec`, `findFrom_spec`, `Regex.filter_findAll`. -/

namespace Unscramble.Pattern

/-! ### Visits -/

namespace Visits

/-- Whether every row has a flag for each of `count` nodes. -/
def IsSound (visits : Visits) (count : Nat) : Prop :=
  ∀ row ∈ visits.rows, row.size = count

/-- Whether a pair of a node and a position was visited in a search that began at `base`. -/
def Seen (visits : Visits) (base : Nat) (x : Nat × Nat) : Prop :=
  base ≤ x.2 ∧ visits.contains x.1 (x.2 - base) = true

/-- The number of pairs that were not visited, of `count` nodes and so many positions. -/
def unseen (visits : Visits) (count positions : Nat) : Nat :=
  ((Finset.range count ×ˢ Finset.range positions).filter fun p =>
    visits.contains p.1 p.2 = false).card

variable {visits : Visits} {count node offset : Nat}

/-- Without visits all visits are sound. -/
theorem isSound_empty (count : Nat) : IsSound {} count := by
  intro row hrow
  cases Array.not_mem_empty row hrow

/-- A visit is in a row. -/
theorem lt_size_of_contains (h : visits.contains node offset = true) :
    offset < visits.rows.size := by
  unfold contains at h
  by_contra hout
  rw [Array.getElem?_eq_none (Nat.le_of_not_lt hout)] at h
  cases h

/-- One visit more within the automaton is sound. -/
theorem isSound_insert (sound : visits.IsSound count) :
    (visits.insert count node offset).IsSound count := by
  unfold insert
  split
  · intro row hrow
    obtain ⟨k, hk, rfl⟩ := Array.mem_iff_getElem.1 hrow
    rw [Array.size_modify] at hk
    rw [Array.getElem_modify]
    have hold := sound visits.rows[k] (Array.getElem_mem hk)
    split
    · rwa [Array.size_setIfInBounds]
    · exact hold
  · intro row hrow
    rcases Array.mem_push.1 hrow with hrow | rfl
    · exact sound row hrow
    · rw [Array.size_setIfInBounds, Array.size_replicate]

/-- A visit makes the rows enough for its place. -/
theorem size_insert (count node : Nat) (hoffset : offset ≤ visits.rows.size) :
    visits.rows.size ≤ (visits.insert count node offset).rows.size ∧
      offset < (visits.insert count node offset).rows.size := by
  unfold insert
  split
  case isTrue hin =>
    rw [Array.size_modify]
    exact ⟨Nat.le_refl _, hin⟩
  case isFalse hout =>
    rw [Array.size_push]
    omega

/-- A visit that is noted adds itself to the visits, and nothing else. -/
theorem contains_insert (sound : visits.IsSound count) (hnode : node < count)
    (hoffset : offset ≤ visits.rows.size) (n o : Nat) :
    (visits.insert count node offset).contains n o = true ↔
      (n = node ∧ o = offset) ∨ visits.contains n o = true := by
  unfold insert contains
  -- Rows are there up to the offset before this one, so the visit falls into a row or starts a new
  -- one.
  split
  case isTrue hin =>
    by_cases ho : o = offset
    · subst ho
      have hrow := sound visits.rows[o] (Array.getElem_mem hin)
      rw [Array.getElem?_modify, if_pos rfl, Array.getElem?_eq_getElem hin]
      simp only [Option.map_some, Option.bind_some, and_true]
      by_cases hn : n = node
      · subst hn
        rw [Array.getElem?_setIfInBounds_self_of_lt (by omega)]
        simp
      · rw [Array.getElem?_setIfInBounds_ne (Ne.symm hn)]
        simp [hn]
    · rw [Array.getElem?_modify, if_neg (Ne.symm ho)]
      simp [ho]
  case isFalse hout =>
    have heq : offset = visits.rows.size := by omega
    by_cases ho : o = offset
    · subst ho
      rw [heq, Array.getElem?_push_size, Array.getElem?_eq_none (Nat.le_refl _)]
      simp only [Option.bind_some, Option.bind_none, Option.getD_none, and_true, Bool.false_eq_true,
        or_false]
      by_cases hn : n = node
      · subst hn
        rw [Array.getElem?_setIfInBounds_self_of_lt (by rwa [Array.size_replicate])]
        simp
      · rw [Array.getElem?_setIfInBounds_ne (Ne.symm hn), Array.getElem?_replicate]
        split <;> simp [hn]
    · rw [Array.getElem?_push, if_neg (by omega)]
      simp [ho]

/-- A visit that is new leaves fewer pairs to visit. -/
theorem unseen_insert_lt (sound : visits.IsSound count) (hnode : node < count)
    (hoffset : offset ≤ visits.rows.size) (hnew : visits.contains node offset = false)
    {positions : Nat} (hposition : offset < positions) :
    (visits.insert count node offset).unseen count positions < visits.unseen count positions := by
  refine Finset.card_lt_card ⟨?_, ?_⟩
  · intro p hp
    rw [Finset.mem_filter] at hp ⊢
    refine ⟨hp.1, ?_⟩
    by_contra hseen
    rw [Bool.not_eq_false] at hseen
    rw [(contains_insert sound hnode hoffset p.1 p.2).2 (.inr hseen)] at hp
    cases hp.2
  · intro hsub
    have hmem : (node, offset) ∈ (Finset.range count ×ˢ Finset.range positions).filter fun p =>
        visits.contains p.1 p.2 = false :=
      Finset.mem_filter.2
        ⟨Finset.mem_product.2 ⟨Finset.mem_range.2 hnode, Finset.mem_range.2 hposition⟩, hnew⟩
    have hnot := (Finset.mem_filter.1 (hsub hmem)).2
    rw [(contains_insert sound hnode hoffset node offset).2 (.inl ⟨rfl, rfl⟩)] at hnot
    cases hnot

/-- No more visits are left than there are nodes at all places. -/
theorem unseen_le (visits : Visits) (count positions : Nat) :
    visits.unseen count positions ≤ count * positions := by
  unfold unseen
  refine (Finset.card_filter_le _ _).trans ?_
  rw [Finset.card_product, Finset.card_range, Finset.card_range]

end Visits

/-! ### Ways that end -/

section

variable {nodes : Array Node} {text : Array Char}

/-- Whether one pair of a node and a position leads to another one in a single step. -/
def Follows (nodes : Array Node) (text : Array Char) (x y : Nat × Nat) : Prop :=
  ∃ n, nodes[x.1]? = some n ∧ y ∈ Automaton.steps text x.2 n

/-- Whether one pair leads to another one. -/
abbrev Reaches (nodes : Array Node) (text : Array Char) : Nat × Nat → Nat × Nat → Prop :=
  Relation.ReflTransGen (Follows nodes text)

/-- A node leads on in the same place or behind one more character of the text. -/
theorem Automaton.mem_steps {i : Nat} {n : Node} {y : Nat × Nat} (hy : y ∈ steps text i n) :
    i ≤ y.2 ∧ y.2 ≤ i + 1 ∧ (i ≤ text.size → y.2 ≤ text.size) := by
  cases n with
  | accept => cases hy
  | read set next =>
    simp only [steps] at hy
    split at hy
    case isTrue hread =>
      have hin : i < text.size := by
        by_contra hout
        rw [Array.getElem?_eq_none (Nat.le_of_not_lt hout)] at hread
        cases hread
      cases List.mem_singleton.1 hy
      exact ⟨Nat.le_succ i, Nat.le_refl _, fun _ => hin⟩
    case isFalse => cases hy
  | check place next =>
    simp only [steps] at hy
    split at hy
    · cases List.mem_singleton.1 hy
      exact ⟨Nat.le_refl i, Nat.le_succ i, id⟩
    · cases hy
  | fork first second =>
    simp only [steps, List.mem_cons, List.not_mem_nil, or_false] at hy
    rcases hy with rfl | rfl <;> exact ⟨Nat.le_refl i, Nat.le_succ i, id⟩

/-- No node leads on to more than two. -/
theorem Automaton.length_steps_le (text : Array Char) (i : Nat) (n : Node) : (steps text i n).length ≤ 2 := by
  cases n with
  | accept => exact Nat.zero_le 2
  | read set next =>
    simp only [steps]
    split <;> simp
  | check place next =>
    simp only [steps]
    split <;> simp
  | fork first second => exact Nat.le_refl 2

/-- From where all ways end no way is endless. -/
theorem Leads.acc {pending : List (Nat × Nat)} {es : List Nat} (h : Leads nodes text pending es) :
    ∀ x ∈ pending, Acc (fun y x => Follows nodes text x y) x := by
  induction h with
  | nil =>
    intro x hx
    cases hx
  | accept node _ ih =>
    intro x hx
    rcases List.mem_cons.1 hx with rfl | hx
    · refine ⟨_, fun y hy => ?_⟩
      obtain ⟨n, hn, hy⟩ := hy
      cases hn.symm.trans node
      cases hy
    · exact ih x hx
  | step node _ _ _ ihf ihr =>
    intro x hx
    rcases List.mem_cons.1 hx with rfl | hx
    · refine ⟨_, fun y hy => ?_⟩
      obtain ⟨n, hn, hy⟩ := hy
      cases hn.symm.trans node
      exact ihf y hy
    · exact ihr x hx

/-- From where all ways end no way comes back to its beginning. -/
theorem not_reaches_of_acc {x : Nat × Nat} (h : Acc (fun y x => Follows nodes text x y) x) :
    ∀ y, Follows nodes text x y → ¬ Reaches nodes text y x := by
  induction h with
  | intro x _ ih =>
    intro y hxy hyx
    -- The way from `y` to `x` and on to `y` begins with a step from `y` too.
    rcases Relation.ReflTransGen.cases_head hyx with rfl | ⟨z, hyz, hzx⟩
    · exact ih y hxy y hxy .refl
    · exact ih y hxy z hyz (hzx.tail hxy)

/-- Where everything on the ways was visited and no way was at its end, no way ends. -/
theorem Leads.eq_nil {pending : List (Nat × Nat)} {es : List Nat}
    (h : Leads nodes text pending es) {seen : Nat × Nat → Prop}
    (inner : ∀ v, seen v → nodes[v.1]? ≠ some .accept) (visited : ∀ x ∈ pending, seen x)
    (closed : ∀ x ∈ pending, ∀ v, Reaches nodes text x v → seen v →
      ∀ y, Follows nodes text v y → seen y) : es = [] := by
  induction h with
  | nil => rfl
  | accept node _ _ => exact absurd node (inner _ (visited _ List.mem_cons_self))
  | @step q i n pending es fs node _ _ _ ihf ihr =>
    have hq : (q, i) ∈ (q, i) :: pending := List.mem_cons_self
    have hes : es = [] := by
      refine ihf (fun y hy => ?_) fun y hy v hv => ?_
      · exact closed _ hq _ .refl (visited _ hq) y ⟨n, node, hy⟩
      · exact closed _ hq v (.head ⟨n, node, hy⟩ hv)
    have hfs : fs = [] :=
      ihr (fun y hy => visited y (List.mem_cons_of_mem _ hy))
        fun y hy => closed y (List.mem_cons_of_mem _ hy)
    rw [hes, hfs]
    rfl

end

/-! ### One search -/

/-- What holds of the visits of a search and the pairs that are pending in it. What a visited pair
leads to is visited or pending; and what a pending pair leads back to is not left to a pair that is
pending behind it. -/
structure Tracks (a : Automaton) (text : Array Char) (base : Nat) (visits : Visits)
    (pending : List (Nat × Nat)) : Prop where
  /-- Every row has a flag for each node. -/
  sound : visits.IsSound a.nodes.size
  /-- Pending pairs are in the text and have a row or are in the first place without one. -/
  near : ∀ x ∈ pending, base ≤ x.2 ∧ x.2 ≤ base + visits.rows.size ∧ x.2 ≤ text.size
  /-- The accepting node is not visited. -/
  inner : ∀ v, visits.Seen base v → a.nodes[v.1]? ≠ some .accept
  /-- What a visited pair leads to is visited or pending. -/
  closed : ∀ v, visits.Seen base v → ∀ y, Follows a.nodes text v y →
    visits.Seen base y ∨ y ∈ pending
  /-- If the visited pair is reached from a pending one, that is so before the pending one. -/
  before : ∀ front x back, pending = front ++ x :: back → ∀ v, visits.Seen base v →
    Reaches a.nodes text x v → ∀ y, Follows a.nodes text v y → visits.Seen base y ∨ y ∈ front

namespace Tracks

variable {a : Automaton} {text : Array Char} {base q i : Nat} {visits : Visits}
  {pending : List (Nat × Nat)}

/-- A visited pair need not be searched again. -/
theorem skip (h : Tracks a text base visits ((q, i) :: pending)) (seen : visits.Seen base (q, i)) :
    Tracks a text base visits pending where
  sound := h.sound
  near := fun x hx => h.near x (List.mem_cons_of_mem _ hx)
  inner := h.inner
  closed := fun v hv y hy => by
    rcases h.closed v hv y hy with hy | hy
    · exact .inl hy
    · rcases List.mem_cons.1 hy with rfl | hy
      · exact .inl seen
      · exact .inr hy
  before := fun front x back heq v hv hx y hy => by
    rcases h.before ((q, i) :: front) x back (by rw [heq]; rfl) v hv hx y hy with hy | hy
    · exact .inl hy
    · rcases List.mem_cons.1 hy with rfl | hy
      · exact .inl seen
      · exact .inr hy

/-- A pair that is visited in front of what is pending has only ways that were searched without
success. -/
theorem eq_nil (h : Tracks a text base visits ((q, i) :: pending)) {es : List Nat}
    (seen : visits.Seen base (q, i)) (leads : Leads a.nodes text [(q, i)] es) : es = [] := by
  refine leads.eq_nil h.inner (fun x hx => ?_) fun x hx v hv hseen y hy => ?_
  · cases List.mem_singleton.1 hx
    exact seen
  · cases List.mem_singleton.1 hx
    exact (h.before [] (q, i) pending rfl v hseen hv y hy).resolve_right (List.not_mem_nil)

/-- What is visited behind a pair is the pair itself or was visited before. -/
theorem seen_insert_iff (h : Tracks a text base visits ((q, i) :: pending)) (hq : q < a.nodes.size)
    {v : Nat × Nat} : (visits.insert a.nodes.size q (i - base)).Seen base v ↔
      v = (q, i) ∨ visits.Seen base v := by
  obtain ⟨hbase, hrows, -⟩ := h.near (q, i) List.mem_cons_self
  simp only at hbase hrows
  have hoffset : i - base ≤ visits.rows.size := by omega
  unfold Visits.Seen
  rw [Visits.contains_insert h.sound hq hoffset]
  constructor
  · rintro ⟨hv, ⟨hnode, hposition⟩ | hseen⟩
    · refine .inl (Prod.ext hnode ?_)
      simp only
      omega
    · exact .inr ⟨hv, hseen⟩
  · rintro (rfl | ⟨hv, hseen⟩)
    · exact ⟨hbase, .inl ⟨rfl, rfl⟩⟩
    · exact ⟨hv, .inr hseen⟩

/-- What follows a pair that reaches a visited one is visited, or it is pending in front of the pair,
behind what the pair that is visited now leads to. -/
theorem before_step (h : Tracks a text base visits ((q, i) :: pending)) {n : Node}
    (node : a.nodes[q]? = some n)
    (acyclic : ∀ y, Follows a.nodes text (q, i) y → ¬ Reaches a.nodes text y (q, i))
    {front back : List (Nat × Nat)} {x : Nat × Nat}
    (heq : Automaton.steps text i n ++ pending = front ++ x :: back) {v : Nat × Nat}
    (hv : v = (q, i) ∨ visits.Seen base v) (hx : Reaches a.nodes text x v) {y : Nat × Nat}
    (hy : Follows a.nodes text v y) : (y = (q, i) ∨ visits.Seen base y) ∨ y ∈ front := by
  -- The pending pair was pending before, or the pair that is visited now leads to it.
  have old : ∀ rest, front = Automaton.steps text i n ++ rest → pending = rest ++ x :: back →
      (y = (q, i) ∨ visits.Seen base y) ∨ y ∈ front := by
    rintro rest rfl hrest
    rcases hv with rfl | hv
    · obtain ⟨m, hm, hy⟩ := hy
      cases hm.symm.trans node
      exact .inr (List.mem_append_left _ hy)
    · rcases h.before ((q, i) :: rest) x back (by rw [hrest]; rfl) v hv hx y hy with hy | hy
      · exact .inl (.inr hy)
      · rcases List.mem_cons.1 hy with rfl | hy
        · exact .inl (.inl rfl)
        · exact .inr (List.mem_append_right _ hy)
  rcases List.append_eq_append_iff.1 heq with ⟨rest, hfront, hrest⟩ | ⟨rest, hsteps, hback⟩
  · exact old rest hfront hrest
  · cases rest with
    | nil => exact old [] (by simpa using hsteps.symm) (by simpa using hback.symm)
    | cons z rest =>
      cases (List.cons.inj hback).1
      have hfollows : Follows a.nodes text (q, i) x :=
        ⟨n, node, hsteps ▸ List.mem_append_right _ List.mem_cons_self⟩
      rcases hv with rfl | hv
      · exact absurd hx (acyclic x hfollows)
      · rcases h.before [] (q, i) pending rfl v hv (hx.head hfollows) y hy with hy | hy
        · exact .inl (.inr hy)
        · cases hy

/-- A pair that was not visited is visited, and what it leads to is searched before what is pending.
-/
theorem step (h : Tracks a text base visits ((q, i) :: pending)) {n : Node}
    (node : a.nodes[q]? = some n) (inner : n ≠ .accept)
    (acyclic : ∀ y, Follows a.nodes text (q, i) y → ¬ Reaches a.nodes text y (q, i)) :
    Tracks a text base (visits.insert a.nodes.size q (i - base))
      (Automaton.steps text i n ++ pending) := by
  have hq : q < a.nodes.size := (Array.getElem?_eq_some_iff.1 node).1
  have hnear := h.near (q, i) List.mem_cons_self
  have hoffset : i - base ≤ visits.rows.size := by
    simp only at hnear
    omega
  have hsize := Visits.size_insert a.nodes.size q hoffset
  constructor
  · exact Visits.isSound_insert h.sound
  · intro x hx
    rcases List.mem_append.1 hx with hx | hx
    · have := Automaton.mem_steps hx
      simp only at hnear
      have := this.2.2 hnear.2.2
      omega
    · have := h.near x (List.mem_cons_of_mem _ hx)
      omega
  · intro v hv
    rcases (h.seen_insert_iff hq).1 hv with rfl | hv
    · rw [node]
      exact fun heq => inner (Option.some.inj heq)
    · exact h.inner v hv
  · intro v hv y hy
    rcases (h.seen_insert_iff hq).1 hv with rfl | hv
    · obtain ⟨m, hm, hy⟩ := hy
      cases hm.symm.trans node
      exact .inr (List.mem_append_left _ hy)
    · rcases h.closed v hv y hy with hy | hy
      · exact .inl ((h.seen_insert_iff hq).2 (.inr hy))
      · rcases List.mem_cons.1 hy with rfl | hy
        · exact .inl ((h.seen_insert_iff hq).2 (.inl rfl))
        · exact .inr (List.mem_append_right _ hy)
  · intro front x back heq v hv hx y hy
    refine (h.before_step node acyclic heq ((h.seen_insert_iff hq).1 hv) hx hy).imp_left ?_
    exact (h.seen_insert_iff hq).2

end Tracks

/-- The bound on the steps of a search is kept when a pair is visited: it is pending no longer, but
at most two others are. -/
theorem Visits.unseen_step {a : Automaton} {text : Array Char} {visits : Visits} {q i base fuel : Nat}
    {n : Node} {pending : List (Nat × Nat)} (sound : visits.IsSound a.nodes.size)
    (hq : q < a.nodes.size) (hbase : base ≤ i) (hoffset : i ≤ base + visits.rows.size)
    (hi : i ≤ text.size) (hnew : visits.contains q (i - base) = false)
    (hfuel : ((q, i) :: pending).length + 2 * visits.unseen a.nodes.size (text.size + 1) ≤
      fuel + 1) :
    (Automaton.steps text i n ++ pending).length +
      2 * (visits.insert a.nodes.size q (i - base)).unseen a.nodes.size (text.size + 1) ≤ fuel := by
  have hposition : i - base < text.size + 1 := by omega
  have hless := Visits.unseen_insert_lt sound hq (by omega) hnew hposition
  have htwo := Automaton.length_steps_le text i n
  rw [List.length_append]
  rw [List.length_cons] at hfuel
  omega

/-- A step of a search from a pair that was not visited. -/
theorem Automaton.explore_cons {a : Automaton} {text : Array Char} {base fuel q i : Nat}
    {visits : Visits} {n : Node} {pending : List (Nat × Nat)}
    (hnew : visits.contains q (i - base) = false) (node : a.nodes[q]? = some n)
    (inner : n ≠ .accept) :
    explore a text base (fuel + 1) visits ((q, i) :: pending) =
      explore a text base fuel (visits.insert a.nodes.size q (i - base))
        (steps text i n ++ pending) := by
  rw [explore, if_neg (Bool.eq_false_iff.1 hnew), node]
  cases n with
  | accept => exact absurd rfl inner
  | read | check | fork => rfl

/-- A search finds the end of the first way. If there is none, its visits say where no way leads to
an end. -/
theorem explore_spec {a : Automaton} {text : Array Char} {base : Nat} (fuel : Nat) :
    ∀ {visits : Visits} {pending : List (Nat × Nat)} {es : List Nat},
      Leads a.nodes text pending es → Tracks a text base visits pending →
      pending.length + 2 * visits.unseen a.nodes.size (text.size + 1) ≤ fuel →
      ∃ visits', a.explore text base fuel visits pending = (es.head?, visits') ∧
        (es = [] → Tracks a text base visits' [] ∧
          ∀ x, x ∈ pending ∨ visits.Seen base x → visits'.Seen base x) := by
  -- On the fuel: a step uses up a visit that has not been made, and each visit puts two positions
  -- on the stack at most.
  induction fuel with
  | zero =>
    intro visits pending es leads tracks hfuel
    cases leads with
    | nil =>
      refine ⟨visits, rfl, fun _ => ⟨tracks, fun x hx => ?_⟩⟩
      exact hx.resolve_left List.not_mem_nil
    | accept | step =>
      rw [List.length_cons] at hfuel
      omega
  | succ fuel ih =>
    intro visits pending es leads tracks hfuel
    match pending with
    | [] =>
      cases leads
      refine ⟨visits, rfl, fun _ => ⟨tracks, fun x hx => ?_⟩⟩
      exact hx.resolve_left List.not_mem_nil
    | (q, i) :: pending =>
      have hnear := tracks.near (q, i) List.mem_cons_self
      cases leads with
      -- The first end has been reached.
      | @accept _ _ _ es node rest =>
        have hnew : visits.contains q (i - base) = false := by
          rw [Bool.eq_false_iff]
          exact fun hseen => tracks.inner (q, i) ⟨hnear.1, hseen⟩ node
        refine ⟨visits, ?_, nofun⟩
        rw [Automaton.explore, if_neg (Bool.eq_false_iff.1 hnew), node]
        rfl
      | @step _ _ n _ es fs node inner further rest =>
        have single := Leads.single node inner further
        -- A visit that was made before has been followed already, and led to no end.
        by_cases hseen : visits.contains q (i - base) = true
        · have hes := tracks.eq_nil ⟨hnear.1, hseen⟩ single
          rw [hes, List.nil_append, Automaton.explore, if_pos hseen]
          rw [List.length_cons] at hfuel
          obtain ⟨visits', heq, hnone⟩ := ih rest (tracks.skip ⟨hnear.1, hseen⟩) (by omega)
          refine ⟨visits', heq, fun hfs => ⟨(hnone hfs).1, fun x hx => (hnone hfs).2 x ?_⟩⟩
          rcases hx with hx | hx
          · rcases List.mem_cons.1 hx with rfl | hx
            · exact .inr ⟨hnear.1, hseen⟩
            · exact .inl hx
          · exact .inr hx
        -- A new one is noted and followed; it cannot be reached again from where it leads.
        · have hnew := Bool.eq_false_iff.2 hseen
          have hq : q < a.nodes.size := (Array.getElem?_eq_some_iff.1 node).1
          have hacyclic := not_reaches_of_acc (single.acc (q, i) (List.mem_singleton_self _))
          have hinsert := Visits.unseen_step (n := n) tracks.sound hq hnear.1 hnear.2.1 hnear.2.2
            hnew hfuel
          rw [Automaton.explore_cons hnew node inner]
          obtain ⟨visits', heq, hnone⟩ :=
            ih (further.append rest) (tracks.step node inner hacyclic) hinsert
          refine ⟨visits', heq, fun hfs => ⟨(hnone hfs).1, fun x hx => (hnone hfs).2 x ?_⟩⟩
          rcases hx with hx | hx
          · rcases List.mem_cons.1 hx with rfl | hx
            · exact .inr ((tracks.seen_insert_iff hq).2 (.inl rfl))
            · exact .inl (List.mem_append_right _ hx)
          · exact .inr ((tracks.seen_insert_iff hq).2 (.inr hx))

/-! ### All matches -/

/-- The leftmost match at one of `count` positions, where `ends` lists the ends of the matches that
begin at a position. -/
def firstSpan (ends : Nat → List Nat) (i count : Nat) : Option (Nat × Nat) :=
  (List.range' i count).findSome? fun s => (ends s).head?.map (s, ·)

/-- A search may begin where earlier ones have found nothing. -/
theorem Tracks.start {a : Automaton} {text : Array Char} {base i : Nat} {visits : Visits}
    (h : Tracks a text base visits []) (hbase : base ≤ i) (hnear : i ≤ base + visits.rows.size)
    (hi : i ≤ text.size) : Tracks a text base visits [(a.entry, i)] where
  sound := h.sound
  near := fun x hx => by
    cases List.mem_singleton.1 hx
    exact ⟨hbase, hnear, hi⟩
  inner := h.inner
  closed := fun v hv y hy => .inl ((h.closed v hv y hy).resolve_right List.not_mem_nil)
  before := fun _ _ _ _ v hv _ y hy => .inl ((h.closed v hv y hy).resolve_right List.not_mem_nil)

/-- Before the first search nothing was visited. -/
theorem Tracks.empty (a : Automaton) (text : Array Char) (base : Nat) : Tracks a text base {} [] := by
  have hnone : ∀ v, ¬ Visits.Seen {} base v := fun v hv =>
    Nat.not_lt_zero _ (Visits.lt_size_of_contains hv.2)
  refine ⟨Visits.isSound_empty _, ?_, ?_, ?_, ?_⟩
  · intro x hx
    cases hx
  · exact fun v hv => absurd hv (hnone v)
  · exact fun v hv => absurd hv (hnone v)
  · exact fun _ _ _ _ v hv => absurd hv (hnone v)

section

variable {a : Automaton} {text : Array Char} {ends : Nat → List Nat}

/-- Searches from one position after the other find the leftmost match. -/
theorem findFrom_spec (leads : ∀ i ≤ text.size, Leads a.nodes text [(a.entry, i)] (ends i))
    {base : Nat} (count : Nat) :
    ∀ {i : Nat} {visits : Visits}, Tracks a text base visits [] → base ≤ i →
      i ≤ base + visits.rows.size → i + count ≤ text.size + 1 →
      a.findFrom text base i visits count = firstSpan ends i count := by
  -- On the positions to try; the visits of a search without an end serve the next one.
  induction count with
  | zero =>
    intro i visits _ _ _ _
    rfl
  | succ count ih =>
    intro i visits tracks hbase hnear hcount
    have hi : i ≤ text.size := by omega
    have hfuel : [(a.entry, i)].length + 2 * visits.unseen a.nodes.size (text.size + 1) ≤
        a.bound text := by
      have := visits.unseen_le a.nodes.size (text.size + 1)
      rw [List.length_singleton, Automaton.bound, Nat.mul_assoc]
      omega
    obtain ⟨visits', heq, hnone⟩ :=
      explore_spec _ (leads i hi) (tracks.start hbase hnear hi) hfuel
    rw [Automaton.findFrom, heq, firstSpan, List.range'_succ, List.findSome?_cons]
    cases hends : ends i with
    | nil =>
      obtain ⟨tracks', hseen⟩ := hnone hends
      have hrow := hseen (a.entry, i) (.inl (List.mem_singleton_self _))
      have := Visits.lt_size_of_contains hrow.2
      simp only at this
      exact ih tracks' (by omega) (by omega) (by omega)
    | cons e es => rfl

/-- A search finds the first place where the expression matches. -/
theorem find?_spec (leads : ∀ i ≤ text.size, Leads a.nodes text [(a.entry, i)] (ends i)) {i : Nat}
    (hi : i ≤ text.size + 1) : a.find? text i = firstSpan ends i (text.size + 1 - i) :=
  findFrom_spec leads _ (Tracks.empty a text i) (Nat.le_refl i) (Nat.le_add_right _ _) (by omega)

end

/-- A position is passed over if the preferred match there is empty or there is none. -/
theorem spansFrom_succ {ends : Nat → List Nat} {size i : Nat}
    (h : ∀ e, (ends i).head? = some e → ¬ i < e) :
    spansFrom ends (size - i) i = spansFrom ends (size - (i + 1)) (i + 1) := by
  cases hsize : size - i with
  | zero =>
    rw [show size - (i + 1) = 0 by omega]
    rfl
  | succ fuel =>
    rw [show size - (i + 1) = fuel by omega, spansFrom]
    cases hends : (ends i).head? with
    | none => rfl
    | some e => exact if_neg (h e hends)

/-- Positions where no match begins are passed over. -/
theorem spansFrom_of_none {ends : Nat → List Nat} {size i s : Nat} (his : i ≤ s)
    (h : ∀ t, i ≤ t → t < s → ends t = []) :
    spansFrom ends (size - i) i = spansFrom ends (size - s) s := by
  induction s, his using Nat.le_induction with
  | base => rfl
  | succ s his ih =>
    rw [ih fun t ht hts => h t ht (Nat.lt_succ_of_lt hts)]
    refine spansFrom_succ fun e he => ?_
    rw [h s his (Nat.lt_succ_self s)] at he
    cases he

/-- Where no match is found there is none. -/
theorem firstSpan_eq_none {ends : Nat → List Nat} {i count : Nat}
    (h : firstSpan ends i count = none) : ∀ t, i ≤ t → t < i + count → ends t = [] := by
  intro t ht htc
  have hmem : t ∈ List.range' i count := List.mem_range'_1.2 ⟨ht, htc⟩
  have := List.findSome?_eq_none_iff.1 h t hmem
  rwa [Option.map_eq_none_iff, List.head?_eq_none_iff] at this

/-- The leftmost match is the preferred one where it begins, and no match begins before it. -/
theorem of_firstSpan {ends : Nat → List Nat} {i count s e : Nat}
    (h : firstSpan ends i count = some (s, e)) :
    i ≤ s ∧ s < i + count ∧ (ends s).head? = some e ∧ ∀ t, i ≤ t → t < s → ends t = [] := by
  induction count generalizing i with
  | zero => cases h
  | succ count ih =>
    rw [firstSpan, List.range'_succ, List.findSome?_cons] at h
    cases hends : (ends i).head? with
    | none =>
      rw [hends] at h
      obtain ⟨his, hs, he, hnone⟩ := ih h
      refine ⟨by omega, by omega, he, fun t ht hts => ?_⟩
      rcases Nat.eq_or_lt_of_le ht with rfl | ht
      · exact List.head?_eq_none_iff.1 hends
      · exact hnone t ht hts
    | some j =>
      rw [hends] at h
      cases h
      exact ⟨Nat.le_refl _, by omega, hends, fun t ht hts => by omega⟩

/-- The matches that are not empty, of all that a search from a position on finds. An empty match is
followed by a search from the same position, which finds it again. -/
theorem filter_findAllFrom {a : Automaton} {text : Array Char} {ends : Nat → List Nat}
    (leads : ∀ i ≤ text.size, Leads a.nodes text [(a.entry, i)] (ends i))
    (within : ∀ i, ∀ j ∈ ends i, i ≤ j ∧ j ≤ max i text.size) (fuel : Nat) :
    ∀ {i : Nat} {last : Option Nat}, i ≤ text.size + 1 →
      2 * (text.size + 1 - i) + (if last = some i then 0 else 1) ≤ fuel →
      (a.findAllFrom text i last fuel).filter (fun (s, e) => s != e) =
        spansFrom ends (text.size - i) i := by
  have behind := fun i j hj => (within i j hj).2
  induction fuel with
  | zero =>
    intro i last hi hfuel
    rw [spansFrom_of_le behind _ (by omega)]
    rfl
  | succ fuel ih =>
    intro i last hi hfuel
    rw [Automaton.findAllFrom, find?_spec leads hi]
    cases hfirst : firstSpan ends i (text.size + 1 - i) with
    | none =>
      have hnone := firstSpan_eq_none hfirst
      rw [spansFrom_of_none (Nat.le_max_left i text.size) fun t ht hts => hnone t ht (by omega),
        spansFrom_of_le behind _ (Nat.le_max_right i text.size)]
      rfl
    | some span =>
      obtain ⟨s, e⟩ := span
      obtain ⟨his, hs, he, hnone⟩ := of_firstSpan hfirst
      have hse := within s e (List.mem_of_head? he)
      have hspans : spansFrom ends (text.size - i) i = spansFrom ends (text.size - s) s :=
        spansFrom_of_none his hnone
      show (List.filter _ (if s = e ∧ last = some e then _ else _)) = _
      by_cases hagain : s = e ∧ last = some e
      · -- The empty match right behind the last one is not given again.
        have hstep : spansFrom ends (text.size - i) i =
            spansFrom ends (text.size - (i + 1)) (i + 1) := by
          refine spansFrom_succ fun j hj => ?_
          rcases Nat.eq_or_lt_of_le his with rfl | his
          · cases hj.symm.trans he
            omega
          · rw [hnone i (Nat.le_refl i) his] at hj
            cases hj
        rw [if_pos hagain, hstep]
        refine ih (by omega) ?_
        split at hfuel <;> split <;> omega
      · rw [if_neg hagain, List.filter_cons, hspans]
        have hfuel : 2 * (text.size + 1 - e) + (if some e = some e then 0 else 1) ≤ fuel := by
          rw [if_pos rfl]
          by_cases hie : i = e
          · have hlast : last ≠ some i := by
              rintro rfl
              exact hagain ⟨by omega, by rw [hie]⟩
            rw [if_neg hlast] at hfuel
            omega
          · omega
        rw [ih (by omega) hfuel]
        rcases Nat.eq_or_lt_of_le hse.1 with rfl | hlt
        · rw [if_neg (by simp)]
        · obtain ⟨rest, hrest⟩ : ∃ rest, text.size - s = rest + 1 :=
            ⟨text.size - s - 1, by omega⟩
          rw [if_pos (by simpa using Nat.ne_of_lt hlt), hrest, spansFrom, he]
          show _ = if s < e then _ else _
          rw [if_pos hlt, spansFrom_congr behind rest (by omega) (Nat.le_refl (text.size - e))]

/-- The matches that are not empty, of all that the automaton of an expression finds in a text: the
leftmost-first ones. -/
theorem Regex.filter_findAll {text : Array Char} (r : Regex) (steady : r.IsSteady text) :
    (r.automaton.findAll text).filter (fun (s, e) => s != e) =
      spansFrom (r.ends text) text.size 0 := by
  have hfuel : 2 * (text.size + 1 - 0) + (if none = some 0 then 0 else 1) ≤ 2 * text.size + 3 := by
    rw [if_neg nofun]
    omega
  exact filter_findAllFrom (fun i hi => r.leads_automaton steady hi) (r.ends_bounds text) _
    (Nat.zero_le _) hfuel

end Unscramble.Pattern
