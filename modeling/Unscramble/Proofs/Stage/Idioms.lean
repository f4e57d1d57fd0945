import Unscramble.Proofs.Pattern.Places
import Unscramble.Proofs.Stage.Rounds

/-! # Shifts and opaque predicates settle

Masking a shift distance puts another constant in its place, so the shifts by constants are the same
ones before and after, and all of them are masked at once. Each pass that decides a branch on a flow
obstructor, or takes out a copy of one, takes out an instruction that loads a flow obstructor.

Main definitions: `IsMasked`, `obstructorLoads`. Main statements: `endsAfter_bitShift`,
`endsAfter_opaquePredicate`. -/

namespace Unscramble

open Pattern

/-! ### Real instructions -/

namespace Listing

variable {l l' : Listing} {a b c : Handle}

/-- The real instructions are the same if the handles are and the same of them are real. -/
theorem reals_congr (hhandles : l'.handles = l.handles)
    (hreal : ∀ h ∈ l.handles, l'.isReal h = l.isReal h) : l'.reals = l.reals := by
  unfold reals
  rw [hhandles]
  exact List.filter_congr hreal

/-- No real instruction is listed twice. -/
theorem WellFormed.nodup_reals (wf : l.WellFormed) : l.reals.Nodup :=
  wf.nodup.filter _

/-- A run of real instructions is linked. -/
theorem mem_handles_of_isInfix {run : List Handle} (h : run <:+: l.reals) {a : Handle} (ha : a ∈ run) :
    a ∈ l.handles :=
  List.mem_of_mem_filter (h.subset ha)

end Listing

/-- The neighbour of an entry of a list without repetitions is the only one. -/
theorem eq_of_pair_isInfix {α : Type} {xs : List α} (nodup : xs.Nodup) {a b c : α}
    (hb : [a, b] <:+: xs) (hc : [a, c] <:+: xs) : b = c := by
  obtain ⟨front, back, hs⟩ := hb
  obtain ⟨front', back', hs'⟩ := hc
  have hs : xs = front ++ a :: (b :: back) := by rw [← hs]; simp
  have hs' : xs = front' ++ a :: (c :: back') := by rw [← hs']; simp
  have hsame := suffix_unique nodup ⟨front, hs.symm⟩ ⟨front', hs'.symm⟩
  exact (List.cons.inj hsame).1

/-- So is its neighbour on the other side. -/
theorem eq_of_pair_isInfix_right {α : Type} {xs : List α} (nodup : xs.Nodup) {a b c : α}
    (ha : [a, c] <:+: xs) (hb : [b, c] <:+: xs) : a = b :=
  eq_of_pair_isInfix (List.nodup_reverse.2 nodup) (by simpa using ha.reverse)
    (by simpa using hb.reverse)

/-! ### Pushes of integers -/

namespace Instruction

/-- What pushes an integer pushes that integer. -/
theorem pushedInt?_pushInt (n : Int32) : (pushInt n : Instruction Label).pushedInt? = some n := by
  unfold pushInt
  dsimp only
  split
  · next hsmall =>
    rw [Bool.and_eq_true, decide_eq_true_eq, decide_eq_true_eq] at hsmall
    obtain ⟨hlow, hhigh⟩ := hsmall
    have hn : n = Int32.ofInt n.toInt := (Int32.ofInt_toInt n).symm
    generalize n.toInt = k at hlow hhigh hn
    subst hn
    interval_cases k <;> rfl
  · split
    · rfl
    · split <;> rfl

/-- What pushes an integer leads nowhere else. -/
theorem targets_of_pushedInt? {i : Instruction Label} {n : Int32} (h : i.pushedInt? = some n) :
    i.targets = [] := by
  cases i with
  | plain => rfl
  | immediate => rfl
  | push => rfl
  | _ => cases h

end Instruction

namespace Idiom

/-! ### Shift distances -/

/-- The words for constants. -/
def constantPlace : Pattern.Place where
  first := constantWord
  others := [.one "BIPUSH" .bipush (Opcode.ofMnemonic?_eq_some (by decide +kernel)),
    .one "SIPUSH" .sipush (Opcode.ofMnemonic?_eq_some (by decide +kernel)),
    .one "LDC" .ldc (Opcode.ofMnemonic?_eq_some (by decide +kernel))]

/-- The words for shifts. -/
def shiftPlace : Pattern.Place where
  first := .one "ISHL" ⟨120⟩ (Opcode.ofMnemonic?_eq_some (by decide +kernel))
  others := [.one "ISHR" ⟨122⟩ (Opcode.ofMnemonic?_eq_some (by decide +kernel)),
    .one "IUSHR" ⟨124⟩ (Opcode.ofMnemonic?_eq_some (by decide +kernel)),
    .one "LSHL" ⟨121⟩ (Opcode.ofMnemonic?_eq_some (by decide +kernel)),
    .one "LSHR" ⟨123⟩ (Opcode.ofMnemonic?_eq_some (by decide +kernel)),
    .one "LUSHR" ⟨125⟩ (Opcode.ofMnemonic?_eq_some (by decide +kernel))]

/-- What pushes a constant does not shift. -/
theorem constant_ne_shift (op : Opcode) (h : constantPlace.accepts op = true) :
    shiftPlace.accepts op = false := by
  obtain ⟨b⟩ := op
  revert b
  decide +kernel

/-- The words of the pattern for constant shifts are those of its two places. -/
theorem isSpelled_constantShift : isSpelled (Place.expression [constantPlace, shiftPlace]).lexemes
    "(ICONST | BIPUSH | SIPUSH | LDC) (ISHL | ISHR | IUSHR | LSHL | LSHR | LUSHR)".toList = true :=
  isSpelled_ofList (by decide +kernel)

/-- The runs of the pattern for constant shifts are the pairs of real instructions at its two
places. -/
theorem runs_constantShift (l : Listing) : constantShift.runs l =
    ((Place.expression [constantPlace, shiftPlace]).spans Atom.accepts l.opcodes.toArray).map
      (stretch l.reals) :=
  runs_ofText (spells_of_isSpelled isSpelled_constantShift) (by decide +kernel)

/-- The shifts by constants are all pairs of a constant and a shift. -/
theorem mem_runs_constantShift_iff {l : Listing} {run : List Handle} :
    run ∈ constantShift.runs l ↔ ∃ a b, run = [a, b] ∧ [a, b] <:+: l.reals ∧
      constantPlace.holds l a = true ∧ shiftPlace.holds l b = true :=
  mem_runs_pair_iff isSpelled_constantShift (by decide +kernel) constant_ne_shift

/-- What pushes an integer is a constant. -/
theorem accepts_pushInt (n : Int32) :
    ((Instruction.pushInt n : Instruction Label).opcode?.any constantPlace.accepts) = true := by
  unfold Instruction.pushInt
  dsimp only
  split
  · next hsmall =>
    rw [Bool.and_eq_true, decide_eq_true_eq, decide_eq_true_eq] at hsmall
    obtain ⟨hlow, hhigh⟩ := hsmall
    generalize n.toInt = k at hlow hhigh
    interval_cases k <;> decide +kernel
  · split
    · show constantPlace.accepts .bipush = true
      decide +kernel
    · split
      · show constantPlace.accepts .sipush = true
        decide +kernel
      · show constantPlace.accepts .ldc = true
        decide +kernel

/-- Whether a shift uses all of the distance that is pushed for it. -/
def IsMasked (l : Listing) (distance shift : Handle) : Prop :=
  ∀ n, (l.get distance).pushedInt? = some n → n &&& distanceMask (l.get shift) = n

/-- A shift distance within bounds is left alone. -/
theorem maskShift_of_isMasked {state : Nat × Listing} {a b : Handle} {rest : List Handle}
    (h : IsMasked state.2 a b) : maskShift state (a :: b :: rest) = state := by
  dsimp only [maskShift]
  split
  · rfl
  · next n hn => rw [if_pos (h n hn)]

/-- A distance is masked already, or becomes so. -/
theorem maskShift_cases (state : Nat × Listing) (a b : Handle) (rest : List Handle) :
    IsMasked state.2 a b ∨ ∃ n count, (state.2.get a).pushedInt? = some n ∧
      maskShift state (a :: b :: rest) =
        (count, state.2.replace a (.pushInt (n &&& distanceMask (state.2.get b)))) := by
  dsimp only [maskShift]
  split
  · next hnone =>
    refine .inl fun n hn => ?_
    rw [hnone] at hn
    cases hn
  · next n hn =>
    by_cases hmasked : n &&& distanceMask (state.2.get b) = n
    · refine .inl fun n' hn' => ?_
      cases hn.symm.trans hn'
      exact hmasked
    · rw [if_neg hmasked]
      exact .inr ⟨n, _, hn, rfl⟩

/-- Constants take the places of constants. -/
structure MasksConstants (l l' : Listing) : Prop where
  /-- The sequence stays. -/
  handles : l'.handles = l.handles
  /-- So do the nodes. -/
  capacity : l'.capacity = l.capacity
  /-- What is no constant stays as it is. -/
  same : ∀ h, constantPlace.holds l h = false → l'.get h = l.get h
  /-- A constant stays one. -/
  constant : ∀ h, constantPlace.holds l h = true → constantPlace.holds l' h = true

namespace MasksConstants

variable {l l' : Listing}

/-- The same instructions push constants. -/
theorem holds_eq (h : MasksConstants l l') (a : Handle) :
    constantPlace.holds l' a = constantPlace.holds l a := by
  cases hold : constantPlace.holds l a with
  | true => exact h.constant a hold
  | false =>
    unfold Pattern.Place.holds
    rw [h.same a hold]
    exact hold

/-- A shift stays as it is. -/
theorem get_shift (h : MasksConstants l l') {b : Handle} (hb : shiftPlace.holds l b = true) :
    l'.get b = l.get b := by
  refine h.same b ?_
  by_contra hconstant
  obtain ⟨op, hop, hshift⟩ := (Option.any_eq_true _ _).1 hb
  obtain ⟨op', hop', hconstant⟩ :=
    (Option.any_eq_true _ _).1 (Bool.eq_true_of_not_eq_false hconstant)
  cases hop.symm.trans hop'
  rw [constant_ne_shift op hconstant] at hshift
  cases hshift

/-- The same instructions shift. -/
theorem holds_shift_eq (h : MasksConstants l l') (b : Handle) :
    shiftPlace.holds l' b = shiftPlace.holds l b := by
  cases hconstant : constantPlace.holds l b with
  | false =>
    unfold Pattern.Place.holds
    rw [h.same b hconstant]
  | true =>
    have hnone : ∀ l : Listing, constantPlace.holds l b = true → shiftPlace.holds l b = false := by
      intro l hl
      obtain ⟨op, hop, haccepts⟩ := (Option.any_eq_true _ _).1 hl
      rw [Pattern.Place.holds, hop]
      exact constant_ne_shift op haccepts
    rw [hnone l hconstant, hnone l' (h.constant b hconstant)]

/-- The same instructions are real. -/
theorem reals_eq (h : MasksConstants l l') : l'.reals = l.reals := by
  refine Listing.reals_congr h.handles fun a _ => ?_
  cases hconstant : constantPlace.holds l a with
  | false =>
    unfold Listing.isReal
    rw [h.same a hconstant]
  | true =>
    have hreal : ∀ l : Listing, constantPlace.holds l a = true → l.isReal a = true := by
      intro l hl
      obtain ⟨op, hop, -⟩ := (Option.any_eq_true _ _).1 hl
      exact Option.isSome_of_eq_some hop
    rw [hreal l hconstant, hreal l' (h.constant a hconstant)]

/-- So the shifts by constants are the same ones. -/
theorem mem_runs_iff (h : MasksConstants l l') {run : List Handle} :
    run ∈ constantShift.runs l' ↔ run ∈ constantShift.runs l := by
  rw [mem_runs_constantShift_iff, mem_runs_constantShift_iff, h.reals_eq]
  simp only [h.holds_eq, h.holds_shift_eq]

/-- A distance that is masked takes the place of one. -/
theorem replace (h : MasksConstants l l') {a : Handle} (ha : constantPlace.holds l a = true)
    (n : Int32) : MasksConstants l (l'.replace a (.pushInt n)) where
  handles := h.handles
  capacity := (Array.size_modify ..).trans h.capacity
  same := by
    intro b hb
    rw [Listing.get_replace, if_neg ?_, h.same b hb]
    rintro ⟨rfl, -⟩
    rw [ha] at hb
    cases hb
  constant := by
    intro b hb
    unfold Pattern.Place.holds
    rw [Listing.get_replace]
    split
    · exact accepts_pushInt n
    · exact h.constant b hb

end MasksConstants

/-- Masking the distances of some shifts by constants leaves masked what was, and masks them all. -/
theorem foldl_maskShift {l : Listing} (wf : l.WellFormed) {runs : List (List Handle)}
    (hruns : ∀ run ∈ runs, run ∈ constantShift.runs l) (state : Nat × Listing)
    (h : MasksConstants l state.2) :
    MasksConstants l (runs.foldl maskShift state).2 ∧ ∀ a b, [a, b] ∈ constantShift.runs l →
      ([a, b] ∈ runs ∨ IsMasked state.2 a b) → IsMasked (runs.foldl maskShift state).2 a b := by
  induction runs generalizing state with
  | nil => exact ⟨h, fun a b _ hor => hor.resolve_left List.not_mem_nil⟩
  | cons run runs ih =>
    have hrest := fun run hrun => hruns run (List.mem_cons_of_mem _ hrun)
    obtain ⟨a, b, rfl, hstands, ha, hb⟩ :=
      mem_runs_constantShift_iff.1 (hruns run List.mem_cons_self)
    rw [List.foldl_cons]
    rcases maskShift_cases state a b [] with hmasked | ⟨n, count, hn, hstep⟩
    · rw [maskShift_of_isMasked hmasked]
      refine ⟨(ih hrest _ h).1, fun a' b' hrun hor => (ih hrest _ h).2 a' b' hrun ?_⟩
      rcases hor with hmem | hbefore
      · rcases List.mem_cons.1 hmem with heq | hmem
        · cases heq
          exact .inr hmasked
        · exact .inl hmem
      · exact .inr hbefore
    · have hlt : a < l.capacity :=
        wf.lt_capacity a (Listing.mem_handles_of_isInfix hstands List.mem_cons_self)
      have h' := h.replace ha (n &&& distanceMask (state.2.get b))
      rw [hstep]
      -- What was masked for this distance stays so, and what was for another one is not concerned.
      have hkeep : ∀ a' b', [a', b'] ∈ constantShift.runs l →
          (a' = a ∨ IsMasked state.2 a' b') →
          IsMasked (state.2.replace a (.pushInt (n &&& distanceMask (state.2.get b)))) a' b' := by
        intro a' b' hrun hor m hm
        obtain ⟨a'', b'', heq, hstands', -, hb'⟩ := mem_runs_constantShift_iff.1 hrun
        cases heq
        have hshift : ∀ l', MasksConstants l l' → l'.get b' = l.get b' :=
          fun l' h => h.get_shift hb'
        rw [hshift _ h']
        rw [Listing.get_replace] at hm
        by_cases hsame : a = a'
        · cases hsame
          cases eq_of_pair_isInfix wf.nodup_reals hstands hstands'
          rw [if_pos ⟨rfl, hlt.trans_eq h.capacity.symm⟩, Instruction.pushedInt?_pushInt] at hm
          cases hm
          rw [hshift _ h, Int32.and_assoc, Int32.and_self]
        · rw [if_neg fun hand => hsame hand.1] at hm
          rw [← hshift _ h]
          exact hor.resolve_left (Ne.symm hsame) m hm
      refine ⟨(ih hrest _ h').1, fun a' b' hrun hor => (ih hrest _ h').2 a' b' hrun ?_⟩
      rcases hor with hmem | hbefore
      · rcases List.mem_cons.1 hmem with heq | hmem
        · cases heq
          exact .inr (hkeep a b hrun (.inl rfl))
        · exact .inl hmem
      · exact .inr (hkeep a' b' hrun (.inr hbefore))

/-- The instructions after masking. -/
theorem listing_maskShifts (p : Pattern) (b : Body) :
    (maskShifts p b).2.listing = ((p.runs b.listing).foldl maskShift (0, b.listing)).2 :=
  rfl

/-- Where no run has a distance to mask, nothing changes. -/
theorem maskShifts_of_masked {p : Pattern} {b : Body}
    (h : ∀ run ∈ p.runs b.listing,
      ∃ distance shift, run = [distance, shift] ∧ IsMasked b.listing distance shift) :
    maskShifts p b = (0, b) := by
  have hfold : ∀ runs : List (List Handle),
      (∀ run ∈ runs, ∃ distance shift, run = [distance, shift] ∧
        IsMasked b.listing distance shift) →
          runs.foldl maskShift (0, b.listing) = (0, b.listing) := by
    intro runs hruns
    induction runs with
    | nil => rfl
    | cons run runs ih =>
      obtain ⟨distance, shift, rfl, hmasked⟩ := hruns run List.mem_cons_self
      rw [List.foldl_cons, maskShift_of_isMasked hmasked]
      exact ih fun run hrun => hruns run (List.mem_cons_of_mem _ hrun)
  rw [maskShifts, hfold _ h]

/-- All distances are masked at once. -/
theorem maskShifts_again {b : Body} (wf : b.listing.WellFormed) :
    (maskShifts constantShift (maskShifts constantShift b).2).1 = 0 := by
  have hrefl : MasksConstants b.listing b.listing := ⟨rfl, rfl, fun _ _ => rfl, fun _ h => h⟩
  obtain ⟨h, hmasked⟩ := foldl_maskShift wf (fun _ hrun => hrun) (0, b.listing) hrefl
  rw [← listing_maskShifts] at h hmasked
  rw [maskShifts_of_masked fun run hrun => ?_]
  have hrun := h.mem_runs_iff.1 hrun
  obtain ⟨distance, shift, rfl, -⟩ := mem_runs_constantShift_iff.1 hrun
  exact ⟨distance, shift, rfl, hmasked distance shift hrun (.inl hrun)⟩

/-! ### Flow obstructors -/

/-- Opcode 21 is that of `ILOAD`. -/
theorem ofMnemonic?_iload : Opcode.ofMnemonic? "ILOAD" = some ⟨21⟩ :=
  Opcode.ofMnemonic?_eq_some (by decide +kernel)

/-- Opcode 54 is that of `ISTORE`. -/
theorem ofMnemonic?_istore : Opcode.ofMnemonic? "ISTORE" = some ⟨54⟩ :=
  Opcode.ofMnemonic?_eq_some (by decide +kernel)

/-- The words for loads. -/
def loadPlace : Pattern.Place where
  first := .one "GETSTATIC" .getstatic (Opcode.ofMnemonic?_eq_some (by decide +kernel))
  others := [.one "ILOAD" ⟨21⟩ ofMnemonic?_iload]

/-- The words for branches. -/
def branchPlace : Pattern.Place where
  first := .one "IFEQ" .ifeq (Opcode.ofMnemonic?_eq_some (by decide +kernel))
  others := [.one "IFNE" .ifne (Opcode.ofMnemonic?_eq_some (by decide +kernel))]

/-- The word for a load of a static field. -/
def fieldPlace : Pattern.Place where
  first := .one "GETSTATIC" .getstatic (Opcode.ofMnemonic?_eq_some (by decide +kernel))

/-- The word for a store of a number. -/
def storePlace : Pattern.Place where
  first := .one "ISTORE" ⟨54⟩ ofMnemonic?_istore

/-- A store is neither a load nor a branch. -/
theorem store_ne (op : Opcode) (h : storePlace.accepts op = true) :
    ¬ loadPlace.accepts op = true ∧ ¬ branchPlace.accepts op = true := by
  obtain ⟨b⟩ := op
  revert b
  decide +kernel

/-- The words of the pattern for predicates are those of its two places. -/
theorem isSpelled_obstructorPredicate : isSpelled (Place.expression [loadPlace, branchPlace]).lexemes
    "(GETSTATIC | ILOAD) (IFEQ | IFNE)".toList = true :=
  isSpelled_ofList (by decide +kernel)

/-- The runs of the pattern for predicates are the pairs of real instructions at its two places. -/
theorem runs_obstructorPredicate (l : Listing) : obstructorPredicate.runs l =
    ((Place.expression [loadPlace, branchPlace]).spans Atom.accepts l.opcodes.toArray).map
      (stretch l.reals) :=
  runs_ofText (spells_of_isSpelled isSpelled_obstructorPredicate) (by decide +kernel)

/-- The branches on fields or slots are all pairs of a load and a branch. -/
theorem mem_runs_obstructorPredicate_iff {l : Listing} {run : List Handle} :
    run ∈ obstructorPredicate.runs l ↔ ∃ a b, run = [a, b] ∧ [a, b] <:+: l.reals ∧
      loadPlace.holds l a = true ∧ branchPlace.holds l b = true :=
  mem_runs_pair_iff isSpelled_obstructorPredicate (by decide +kernel) (by
    rintro ⟨b⟩
    revert b
    decide +kernel)

/-- The words of the pattern for copies are those of its two places. -/
theorem isSpelled_obstructorCopy : isSpelled (Place.expression [fieldPlace, storePlace]).lexemes
    "GETSTATIC ISTORE".toList = true :=
  isSpelled_ofList (by decide +kernel)

/-- The runs of the pattern for copies are the pairs of real instructions at its two places. -/
theorem runs_obstructorCopy (l : Listing) : obstructorCopy.runs l =
    ((Place.expression [fieldPlace, storePlace]).spans Atom.accepts l.opcodes.toArray).map
      (stretch l.reals) :=
  runs_ofText (spells_of_isSpelled isSpelled_obstructorCopy) (by decide +kernel)

/-- The copies of fields to slots are all pairs of a load of a field and a store. -/
theorem mem_runs_obstructorCopy_iff {l : Listing} {run : List Handle} :
    run ∈ obstructorCopy.runs l ↔ ∃ a b, run = [a, b] ∧ [a, b] <:+: l.reals ∧
      fieldPlace.holds l a = true ∧ storePlace.holds l b = true :=
  mem_runs_pair_iff isSpelled_obstructorCopy (by decide +kernel) (by
    rintro ⟨b⟩
    revert b
    decide +kernel)

/-- The number of instructions that access flow obstructors. -/
def obstructorAccesses (obstructors : List Member) (l : Listing) : Nat :=
  l.handles.countP fun h => (accessedField? (l.get h)).any obstructors.contains

section

variable {l l' : Listing} {obstructors : List Member}

/-- When handles go, there are no more accesses. -/
theorem obstructorAccesses_le (hsub : l'.handles.Sublist l.handles)
    (hsame : ∀ h, accessedField? (l'.get h) = accessedField? (l.get h)) :
    obstructorAccesses obstructors l' ≤ obstructorAccesses obstructors l := by
  unfold obstructorAccesses
  simp only [hsame]
  exact hsub.countP_le

/-- There are fewer accesses when one of them goes. -/
theorem obstructorAccesses_lt (hsub : l'.handles.Sublist l.handles)
    (hsame : ∀ h, accessedField? (l'.get h) = accessedField? (l.get h)) {h : Handle}
    (hm : h ∈ l.handles) (hgone : h ∉ l'.handles)
    (haccess : (accessedField? (l.get h)).any obstructors.contains = true) :
    obstructorAccesses obstructors l' < obstructorAccesses obstructors l := by
  unfold obstructorAccesses
  simp only [hsame]
  have hrest : l'.handles.Sublist (l.handles.erase h) := by
    have := hsub.erase h
    rwa [List.erase_of_not_mem hgone] at this
  have hpos := List.countP_pos_iff
    (p := fun h => (accessedField? (l.get h)).any obstructors.contains).2 ⟨h, hm, haccess⟩
  have hle := hrest.countP_le (p := fun h => (accessedField? (l.get h)).any obstructors.contains)
  rw [List.countP_erase, if_pos ⟨hm, haccess⟩] at hle
  omega

end

/-- The branches on zero are instructions with a target. -/
def BranchesJump (l : Listing) : Prop :=
  ∀ h ∈ l.handles, branchPlace.holds l h = true → ∃ op t, l.get h = .jump op t

/-- Some loads and branches go, and some branches become jumps. -/
structure Decides (l l' : Listing) : Prop where
  /-- Handles only go. -/
  sublist : l'.handles.Sublist l.handles
  /-- Branches may become jumps. -/
  nodes : ∀ h, l'.get h = l.get h ∨ ∃ t, l.get h = .jump .ifeq t ∧ l'.get h = .jump .goto t
  /-- What goes is a load or a branch. -/
  gone : ∀ h ∈ l.handles, h ∈ l'.handles ∨ loadPlace.holds l h = true ∨
    branchPlace.holds l h = true

namespace Decides

variable {l l' : Listing} {obstructors : List Member}

/-- Without branches to decide a listing stays what it is. -/
theorem refl (l : Listing) : Decides l l :=
  ⟨List.Sublist.refl _, fun _ => .inl rfl, fun _ hm => .inl hm⟩

/-- Deciding branches leaves every access to a field. -/
theorem accessedField?_eq (d : Decides l l') (h : Handle) :
    accessedField? (l'.get h) = accessedField? (l.get h) := by
  rcases d.nodes h with hsame | ⟨t, hold, hnew⟩
  · rw [hsame]
  · rw [hold, hnew]
    rfl

/-- Deciding branches leaves the same instructions real. -/
theorem isReal_eq (d : Decides l l') (h : Handle) : l'.isReal h = l.isReal h := by
  unfold Listing.isReal
  rcases d.nodes h with hsame | ⟨t, hold, hnew⟩
  · rw [hsame]
  · rw [hold, hnew]
    rfl

/-- What is no branch is not changed. -/
theorem holds_eq (d : Decides l l') {p : Pattern.Place} (hifeq : p.accepts .ifeq = false)
    (hgoto : p.accepts .goto = false) (h : Handle) : p.holds l' h = p.holds l h := by
  unfold Pattern.Place.holds
  rcases d.nodes h with hsame | ⟨t, hold, hnew⟩
  · rw [hsame]
  · rw [hold, hnew]
    exact hgoto.trans hifeq.symm

/-- Branches still jump where they did. -/
theorem branchesJump (d : Decides l l') (h : BranchesJump l) : BranchesJump l' := by
  intro a ha hbranch
  rcases d.nodes a with hsame | ⟨t, -, hnew⟩
  · rw [Pattern.Place.holds, hsame] at hbranch
    rw [hsame]
    exact h a (d.sublist.subset ha) hbranch
  · exact ⟨.goto, t, hnew⟩

/-- Taking out a load or a branch. -/
theorem remove (d : Decides l l') {a : Handle}
    (ha : loadPlace.holds l a = true ∨ branchPlace.holds l a = true) :
    Decides l (l'.remove a) := by
  have hhandles : (l'.remove a).handles = l'.handles.erase a := Array.toList_erase ..
  refine ⟨?_, d.nodes, fun h hm => ?_⟩
  · rw [hhandles]
    exact List.erase_sublist.trans d.sublist
  · by_cases hsame : h = a
    · exact .inr (hsame ▸ ha)
    · rw [hhandles, List.mem_erase_of_ne hsame]
      exact d.gone h hm

/-- Making a jump of a branch. -/
theorem replace (d : Decides l l') {a : Handle} {t : Label} (ha : l'.get a = .jump .ifeq t) :
    Decides l (l'.replace a (.jump .goto t)) := by
  refine ⟨d.sublist, fun h => ?_, d.gone⟩
  rw [Listing.get_replace]
  by_cases hsame : a = h ∧ a < l'.capacity
  · obtain ⟨rfl, hlt⟩ := hsame
    rw [if_pos ⟨rfl, hlt⟩]
    rcases d.nodes a with hsame | ⟨t, -, hnew⟩
    · exact .inr ⟨t, hsame ▸ ha, rfl⟩
    · rw [hnew] at ha
      cases ha
  · rw [if_neg hsame]
    exact d.nodes h

/-- Deciding one branch more. -/
theorem decideBranch (d : Decides l l') {a b : Handle} (ha : loadPlace.holds l a = true)
    (hb : branchPlace.holds l b = true) : Decides l (Idiom.decideBranch l' [a, b]) := by
  rw [decideBranch.eq_def]
  dsimp only
  split
  · next op target hget =>
    split
    · next hop =>
      cases eq_of_beq hop
      exact (d.remove (.inl ha)).replace hget
    · split
      · exact (d.remove (.inl ha)).remove (.inr hb)
      · exact d
  · exact d

end Decides

/-- Deciding some of the branches. -/
theorem decides_foldl {l l' : Listing} (d : Decides l l') {runs : List (List Handle)}
    (hruns : ∀ run ∈ runs, run ∈ obstructorPredicate.runs l) :
    Decides l (runs.foldl decideBranch l') := by
  induction runs generalizing l' with
  | nil => exact d
  | cons run runs ih =>
    obtain ⟨a, b, rfl, -, ha, hb⟩ :=
      mem_runs_obstructorPredicate_iff.1 (hruns run List.mem_cons_self)
    exact ih (d.decideBranch ha hb) fun run hrun => hruns run (List.mem_cons_of_mem _ hrun)

/-- A load in front of a branch goes when the branch is decided. -/
theorem not_mem_decideBranch {l : Listing} (wf : l.WellFormed) (jumps : BranchesJump l)
    {a b : Handle} (hm : b ∈ l.handles) (hb : branchPlace.holds l b = true) :
    a ∉ (decideBranch l [a, b]).handles := by
  have hgone : a ∉ (l.remove a).handles := by
    rw [Listing.remove_eq_restrict wf, Listing.handles_restrict]
    exact fun h => absurd (List.mem_filter.1 h).2 (by simp)
  obtain ⟨op, t, hget⟩ := jumps b hm hb
  have hop : op = .ifeq ∨ op = .ifne := by
    rw [Pattern.Place.holds, hget] at hb
    have hb : branchPlace.accepts op = true := hb
    simpa [branchPlace, Pattern.Place.accepts, Atom.accepts] using hb
  rw [decideBranch.eq_def]
  dsimp only
  rw [hget]
  rcases hop with rfl | rfl
  · exact hgone
  · have herase : ((l.remove a).remove b).handles = (l.remove a).handles.erase b :=
      Array.toList_erase ..
    show a ∉ ((l.remove a).remove b).handles
    rw [herase]
    exact fun h => hgone (List.mem_of_mem_erase h)

/-- Deciding branches takes handles out. -/
theorem handles_foldl_decideBranch (l : Listing) (runs : List (List Handle)) :
    (runs.foldl decideBranch l).handles.Sublist l.handles := by
  have hremove : ∀ (l : Listing) (h : Handle), (l.remove h).handles.Sublist l.handles := by
    intro l h
    rw [show (l.remove h).handles = l.handles.erase h from Array.toList_erase ..]
    exact List.erase_sublist
  induction runs generalizing l with
  | nil => exact List.Sublist.refl _
  | cons run runs ih =>
    refine (ih (decideBranch l run)).trans ?_
    rw [decideBranch.eq_def]
    split
    · next load branch _ =>
      split
      · split
        · exact hremove l load
        · split
          · exact (hremove _ branch).trans (hremove l load)
          · exact List.Sublist.refl _
      · exact List.Sublist.refl _
    · exact List.Sublist.refl _

/-- Handles that are taken out of a sequence without repetitions are no longer in it. -/
theorem handles_foldl_remove {l : Listing} (hs : List Handle) :
    (hs.foldl Listing.remove l).handles.Sublist l.handles ∧
      (∀ h, (hs.foldl Listing.remove l).get h = l.get h) ∧
      (l.handles.Nodup → ∀ h ∈ hs, h ∉ (hs.foldl Listing.remove l).handles) := by
  induction hs generalizing l with
  | nil => exact ⟨List.Sublist.refl _, fun _ => rfl, fun _ h hh => absurd hh List.not_mem_nil⟩
  | cons a hs ih =>
    have herase : (l.remove a).handles = l.handles.erase a := Array.toList_erase ..
    obtain ⟨hsub, hget, hgone⟩ := ih (l := l.remove a)
    refine ⟨hsub.trans (herase ▸ List.erase_sublist), hget, fun nodup h hh => ?_⟩
    have nodup' : (l.remove a).handles.Nodup := herase ▸ nodup.erase a
    rcases List.mem_cons.1 hh with rfl | hh
    · intro hm
      have := hsub.subset hm
      rw [herase] at this
      exact nodup.not_mem_erase this
    · exact hgone nodup' h hh

/-- Neighbours that both stay are still neighbours. -/
theorem pair_isInfix_of_sublist {α : Type} {xs ys : List α} (nodup : xs.Nodup) (hsub : ys.Sublist xs)
    {a b : α} (ha : a ∈ ys) (hb : b ∈ ys) (h : [a, b] <:+: xs) : [a, b] <:+: ys := by
  obtain ⟨front, back, rfl⟩ := h
  rw [List.append_assoc] at nodup hsub
  obtain ⟨front', rest, rfl, hfront, hrest⟩ := List.sublist_append_iff.1 hsub
  obtain ⟨-, hnodup, hapart⟩ := List.nodup_append.1 nodup
  have hstay : ∀ c ∈ [a, b] ++ back, c ∈ front' ++ rest → c ∈ rest := by
    intro c hc hm
    refine (List.mem_append.1 hm).resolve_left fun hfronted => ?_
    exact hapart c (hfront.subset hfronted) c hc rfl
  have ha' := hstay a List.mem_cons_self ha
  have hb' := hstay b (List.mem_cons_of_mem _ List.mem_cons_self) hb
  obtain ⟨hnota, hnodup'⟩ := List.nodup_cons.1 hnodup
  obtain ⟨hnotb, -⟩ := List.nodup_cons.1 hnodup'
  cases hrest with
  | cons _ hrest => exact absurd (hrest.subset ha') hnota
  | cons_cons _ hrest =>
    have hb'' := (List.mem_cons.1 hb').resolve_left fun heq => hnota (by simp [heq])
    cases hrest with
    | cons _ hrest => exact absurd (hrest.subset hb'') hnotb
    | cons_cons _ hrest =>
      rename_i rest'
      exact ⟨front', rest', by simp⟩

/-! ### What is decided and what is taken out -/

/-- The slots that flow obstructors are copied to. -/
def copySlots (obstructors : List Member) (l : Listing) : List UInt16 :=
  ((copies l).filter fun c => obstructors.contains c.1).map (·.2)

/-- The branches that are decided, each behind the load in front of it. -/
def decidedBranches (obstructors : List Member) (l : Listing) : List (List Handle) :=
  (obstructorPredicate.runs l).filter fun run =>
    run.head?.any fun load => readsObstructor obstructors (copySlots obstructors l) (l.get load)

/-- The copies of flow obstructors to slots. -/
def obstructorCopies (obstructors : List Member) (l : Listing) : List (List Handle) :=
  (obstructorCopy.runs l).filter fun run =>
    run.head?.any fun load => (accessedField? (l.get load)).any obstructors.contains

/-- The sequence when its branches are decided. -/
def decideAll (obstructors : List Member) (l : Listing) : Listing :=
  (decidedBranches obstructors l).foldl decideBranch l

/-- The sequence when the copies are taken out as well. -/
def removeCopies (obstructors : List Member) (l : Listing) : Listing :=
  (obstructorCopies obstructors (decideAll obstructors l)).flatten.foldl Listing.remove
    (decideAll obstructors l)

/-- Removing predicates decides the branches on obstructors and then removes the copies of these. -/
theorem removePredicates_eq (obstructors : List Member) (b : Body) :
    removePredicates obstructors b =
      (((decidedBranches obstructors b.listing).length,
        (obstructorCopies obstructors (decideAll obstructors b.listing)).length),
        { b with listing := removeCopies obstructors b.listing }) :=
  rfl

section

variable {obstructors : List Member} {l : Listing} {x y : Handle}

/-- Deciding all branches on obstructors decides branches. -/
theorem decides_decideAll (obstructors : List Member) (l : Listing) :
    Decides l (decideAll obstructors l) :=
  decides_foldl (Decides.refl l) fun _ hrun => List.mem_of_mem_filter hrun

/-- A branch is decided if it is a predicate and what it reads is an obstructor or a copy of one. -/
theorem mem_decidedBranches_iff : [x, y] ∈ decidedBranches obstructors l ↔
    [x, y] ∈ obstructorPredicate.runs l ∧
      readsObstructor obstructors (copySlots obstructors l) (l.get x) = true := by
  rw [decidedBranches, List.mem_filter, List.head?_cons, Option.any_some]

/-- A copy is removed if it copies an obstructor. -/
theorem mem_obstructorCopies_pair_iff : [x, y] ∈ obstructorCopies obstructors l ↔
    [x, y] ∈ obstructorCopy.runs l ∧
      (accessedField? (l.get x)).any obstructors.contains = true := by
  rw [obstructorCopies, List.mem_filter, List.head?_cons, Option.any_some]

/-- Removing copies changes no instruction. -/
theorem get_removeCopies (h : Handle) :
    (removeCopies obstructors l).get h = (decideAll obstructors l).get h :=
  (handles_foldl_remove _).2.1 h

/-- Removing copies only takes instructions out. -/
theorem handles_removeCopies :
    (removeCopies obstructors l).handles.Sublist (decideAll obstructors l).handles :=
  (handles_foldl_remove _).1

/-- Removing copies leaves every access to a field. -/
theorem accessedField?_removeCopies (h : Handle) :
    accessedField? ((removeCopies obstructors l).get h) = accessedField? (l.get h) := by
  rw [get_removeCopies, (decides_decideAll obstructors l).accessedField?_eq]

/-- Branches still jump where they did when copies are removed. -/
theorem branchesJump_removeCopies (jumps : BranchesJump l) :
    BranchesJump (removeCopies obstructors l) := by
  have hbranches := (decides_decideAll obstructors l).branchesJump jumps
  intro h hm hbranch
  rw [Pattern.Place.holds, get_removeCopies] at hbranch
  rw [get_removeCopies]
  exact hbranches h (handles_removeCopies.subset hm) hbranch

/-- A copy that is found is taken out, and with it the access that it begins with. -/
theorem obstructorAccesses_lt_of_copy (wf : l.WellFormed) {run : List Handle}
    (hrun : run ∈ obstructorCopies obstructors (decideAll obstructors l)) :
    obstructorAccesses obstructors (removeCopies obstructors l) <
      obstructorAccesses obstructors l := by
  have hd := decides_decideAll obstructors l
  obtain ⟨a, c, rfl, hstands, -⟩ := mem_runs_obstructorCopy_iff.1 (List.mem_of_mem_filter hrun)
  have hobstructor := (mem_obstructorCopies_pair_iff.1 hrun).2
  have ha := Listing.mem_handles_of_isInfix hstands List.mem_cons_self
  refine lt_of_lt_of_le (obstructorAccesses_lt handles_removeCopies
    (fun h => by rw [get_removeCopies]) ha ?_ hobstructor)
    (obstructorAccesses_le hd.sublist hd.accessedField?_eq)
  exact (handles_foldl_remove _).2.2 (wf.nodup.sublist hd.sublist) a
    (List.mem_flatten.2 ⟨_, hrun, List.mem_cons_self⟩)

/-- A copy whose load stays is still one: what goes with a branch is no store. -/
theorem mem_obstructorCopies_decideAll (wf : l.WellFormed)
    (hcopy : [x, y] ∈ obstructorCopies obstructors l)
    (hstays : x ∈ (decideAll obstructors l).handles) :
    [x, y] ∈ obstructorCopies obstructors (decideAll obstructors l) := by
  have hd := decides_decideAll obstructors l
  obtain ⟨hrun, haccess⟩ := mem_obstructorCopies_pair_iff.1 hcopy
  obtain ⟨x', y', heq, hpair, hx, hy⟩ := mem_runs_obstructorCopy_iff.1 hrun
  cases heq
  -- The store is no branch and no field access, so deciding branches leaves it.
  have hystays : y ∈ (decideAll obstructors l).handles := by
    have hmy := Listing.mem_handles_of_isInfix hpair (List.mem_cons_of_mem _ List.mem_cons_self)
    refine (hd.gone y hmy).resolve_right fun hor => ?_
    obtain ⟨op, hop, hstore⟩ := (Option.any_eq_true _ _).1 hy
    rw [Pattern.Place.holds, Pattern.Place.holds, hop] at hor
    exact not_or.2 (store_ne op hstore) hor
  -- Nothing that was between them has come in, so the two still stand next to each other.
  have hpair' : [x, y] <:+: (decideAll obstructors l).reals := by
    have hreals : (decideAll obstructors l).reals =
        (decideAll obstructors l).handles.filter l.isReal :=
      List.filter_congr fun h _ => hd.isReal_eq h
    rw [hreals]
    refine pair_isInfix_of_sublist wf.nodup_reals (hd.sublist.filter _) ?_ ?_ hpair
    · exact List.mem_filter.2 ⟨hstays, List.of_mem_filter (hpair.subset List.mem_cons_self)⟩
    · exact List.mem_filter.2 ⟨hystays, List.of_mem_filter
        (hpair.subset (List.mem_cons_of_mem _ List.mem_cons_self))⟩
  rw [mem_obstructorCopies_pair_iff, mem_runs_obstructorCopy_iff, hd.accessedField?_eq]
  refine ⟨⟨x, y, rfl, hpair', ?_, ?_⟩, haccess⟩
  · rwa [hd.holds_eq (by decide +kernel) (by decide +kernel)]
  · rwa [hd.holds_eq (by decide +kernel) (by decide +kernel)]

/-- A slot that a flow obstructor is copied to comes from a copy. -/
theorem exists_of_mem_copySlots {slot : UInt16} (hslot : slot ∈ copySlots obstructors l) :
    ∃ x y, [x, y] ∈ obstructorCopies obstructors l ∧ x ∈ l.handles ∧
      (accessedField? (l.get x)).any obstructors.contains = true := by
  obtain ⟨copy, hcopy, -⟩ := List.mem_map.1 hslot
  obtain ⟨hcopy, hobstructor⟩ := List.mem_filter.1 hcopy
  obtain ⟨run, hrun, hcopied⟩ := List.mem_filterMap.1 hcopy
  obtain ⟨x, y, rfl, hpair, -⟩ := mem_runs_obstructorCopy_iff.1 hrun
  obtain ⟨m, haccess, hcopied⟩ := Option.bind_eq_some_iff.1 hcopied
  obtain ⟨n, -, heq⟩ := Option.bind_eq_some_iff.1 hcopied
  cases heq
  have haccess : (accessedField? (l.get x)).any obstructors.contains = true := by
    rw [haccess]
    exact hobstructor
  exact ⟨x, y, mem_obstructorCopies_pair_iff.2 ⟨hrun, haccess⟩,
    Listing.mem_handles_of_isInfix hpair List.mem_cons_self, haccess⟩

/-- When a branch is decided, an access goes: the load of the flow obstructor that it reads, or that of
a copy to the slot that it reads. -/
theorem obstructorAccesses_lt_of_decided (wf : l.WellFormed) (jumps : BranchesJump l)
    {run : List Handle} {rest : List (List Handle)}
    (hdecided : decidedBranches obstructors l = run :: rest) :
    obstructorAccesses obstructors (removeCopies obstructors l) <
      obstructorAccesses obstructors l := by
  have hsub := handles_removeCopies.trans (decides_decideAll obstructors l).sublist
  have hrun : run ∈ decidedBranches obstructors l := hdecided ▸ List.mem_cons_self
  obtain ⟨a, c, rfl, hstands, ha, hc⟩ :=
    mem_runs_obstructorPredicate_iff.1 (List.mem_of_mem_filter hrun)
  have hreads := (mem_decidedBranches_iff.1 hrun).2
  rw [readsObstructor] at hreads
  -- The branch reads the field itself, or a slot; in the second case a copy goes, by its load or as
  -- a whole.
  split at hreads
  · next m haccess =>
    refine obstructorAccesses_lt hsub accessedField?_removeCopies
      (Listing.mem_handles_of_isInfix hstands List.mem_cons_self) (fun hm => ?_) (by
        rw [haccess]
        exact hreads)
    have hm := handles_removeCopies.subset hm
    rw [decideAll, hdecided] at hm
    exact not_mem_decideBranch wf jumps
      (Listing.mem_handles_of_isInfix hstands (List.mem_cons_of_mem _ List.mem_cons_self)) hc
      ((handles_foldl_decideBranch _ rest).subset hm)
  · obtain ⟨slot, -, hslot⟩ := (Option.any_eq_true _ _).1 hreads
    obtain ⟨x, y, hcopy, hmx, haccess⟩ := exists_of_mem_copySlots (List.contains_iff_mem.1 hslot)
    by_cases hstays : x ∈ (decideAll obstructors l).handles
    · exact obstructorAccesses_lt_of_copy wf (mem_obstructorCopies_decideAll wf hcopy hstays)
    · exact obstructorAccesses_lt hsub accessedField?_removeCopies hmx
        (fun hm => hstays (handles_removeCopies.subset hm)) haccess

end

/-- Whatever is decided or taken out, an access to a flow obstructor goes. -/
theorem removePredicates_spec (obstructors : List Member) {b : Body} (wf : b.listing.WellFormed)
    (jumps : BranchesJump b.listing) :
    (removePredicates obstructors b = ((0, 0), b) ∨
      0 < (removePredicates obstructors b).1.1 + (removePredicates obstructors b).1.2 ∧
        obstructorAccesses obstructors (removePredicates obstructors b).2.listing <
          obstructorAccesses obstructors b.listing) ∧
      BranchesJump (removePredicates obstructors b).2.listing := by
  rw [removePredicates_eq]
  refine ⟨?_, branchesJump_removeCopies jumps⟩
  cases hdecided : decidedBranches obstructors b.listing with
  | cons run rest =>
    exact .inr ⟨Nat.add_pos_left (Nat.succ_pos _) _,
      obstructorAccesses_lt_of_decided wf jumps hdecided⟩
  | nil =>
    cases hcopies : obstructorCopies obstructors (decideAll obstructors b.listing) with
    | cons run rest =>
      exact .inr ⟨Nat.succ_pos _, obstructorAccesses_lt_of_copy wf (hcopies ▸ List.mem_cons_self)⟩
    | nil =>
      rw [removeCopies, hcopies, decideAll, hdecided]
      exact .inl rfl

/-- The accesses to obstructors become fewer with every change of a body that has some of them. -/
theorem wanes_removePredicates (obstructors : List Member) :
    Wanes (fun b => (decide (0 < (removePredicates obstructors b).1.1 +
        (removePredicates obstructors b).1.2), (removePredicates obstructors b).2))
      (fun b => b.Intact ∧ BranchesJump b.listing)
      (fun b => obstructorAccesses obstructors b.listing) where
  keeps := by
    rintro b ⟨hb, jumps⟩
    exact ⟨(becomes_removePredicates obstructors b hb).1,
      (removePredicates_spec obstructors hb.wf jumps).2⟩
  rests := by
    rintro b ⟨hb, jumps⟩ hnone
    rcases (removePredicates_spec obstructors hb.wf jumps).1 with hsame | ⟨hsome, -⟩
    · simp only [hsame]
      rfl
    · exact absurd (decide_eq_true hsome) (ne_true_of_eq_false hnone)
  sinks := by
    rintro b ⟨hb, jumps⟩ hsome -
    rcases (removePredicates_spec obstructors hb.wf jumps).1 with hsame | ⟨-, hfewer⟩
    · simp only [hsame] at hsome
      cases hsome
    · exact hfewer

/-- What is left when the assignments of flow obstructors are gone. -/
theorem branchesJump_removeInitializers {b : Body} (jumps : BranchesJump b.listing) :
    BranchesJump (removeInitializers b).2.listing := by
  obtain ⟨hsub, hget, -⟩ := handles_foldl_remove (l := b.listing)
    (((obstructorInitializer.runs b.listing).filterMap fun run =>
      (obstructor? b.listing run).map fun m => (m, run.drop 2)).flatMap (·.2))
  intro h hm hbranch
  have hsame : (removeInitializers b).2.listing.get h = b.listing.get h := hget h
  rw [Pattern.Place.holds, hsame] at hbranch
  rw [hsame]
  exact jumps h (hsub.subset hm) hbranch

end Idiom

/-! ### Stages -/

namespace Stage

open Idiom Transform

variable {p : Codebase} (settings : Settings) (journal : Journal)

/-- Shift distances are masked in the first pass. -/
theorem endsAfter_bitShift (hp : ∀ b ∈ p.bodies, b.Intact) :
    bitShift.EndsAfter 1 settings journal p :=
  endsAfter_counting (fun b hb => (becomes_maskShifts constantShift b hb).1)
    (fun _ hb => maskShifts_again hb.wf) hp settings journal

/-- The bodies without the assignments of flow obstructors. -/
theorem exists_of_mem_bodies_removeAllInitializers {b : Body}
    (h : b ∈ (removeAllInitializers p).2.bodies) : ∃ b₀ ∈ p.bodies, b = (removeInitializers b₀).2 := by
  obtain ⟨m, hm, hb⟩ := List.mem_filterMap.1 h
  obtain ⟨c, hc, hm⟩ := List.mem_flatMap.1 hm
  obtain ⟨found, c₀, hc₀, rfl⟩ := mem_mapThrough hc
  obtain ⟨found, m₀, hm₀, rfl⟩ := mem_mapThrough hm
  rw [removeMethodInitializers.eq_def] at hb
  have hmem : m₀ ∈ p.methods := List.mem_flatMap.2 ⟨c₀, hc₀, hm₀⟩
  split at hb
  · next hnone =>
    rw [hnone] at hb
    cases hb
  · next b₀ hb₀ =>
    cases hb
    exact ⟨b₀, List.mem_filterMap.2 ⟨m₀, hmem, hb₀⟩, rfl⟩

/-- Opaque predicates are gone after as many passes as a body has accesses to obstructors. -/
theorem endsAfter_opaquePredicate {n : Nat}
    (hp : ∀ b ∈ p.bodies, b.Intact ∧ BranchesJump b.listing)
    (hlow : ∀ b ∈ (removeAllInitializers p).2.bodies,
      obstructorAccesses (removeAllInitializers p).1 b.listing < n) :
    opaquePredicate.EndsAfter n settings journal p := by
  let found := (removeAllInitializers p).1
  let change := fun b : Body => if found.isEmpty then (false, b) else
    (decide (0 < (removePredicates found b).1.1 + (removePredicates found b).1.2),
      (removePredicates found b).2)
  -- What is done to a body depends on the fields that were found before, which stay the same in
  -- every pass.
  have hwanes : Wanes change (fun b => b.Intact ∧ BranchesJump b.listing)
      (fun b => obstructorAccesses found b.listing) := by
    by_cases hnone : found.isEmpty = true
    · simp only [change, if_pos hnone]
      exact ⟨fun _ h => h, fun _ _ h => h, fun _ _ h => nomatch h⟩
    · simp only [change, if_neg hnone]
      exact wanes_removePredicates found
  have hdoes : ∀ m, (opaquePredicate.onBody m).Does (fun c => c.state = found) change := by
    intro m
    have hstep : ∀ b c, opaquePredicate.onBody m b c =
        if c.state.isEmpty then ⟨.ok false, b, c⟩ else
          ⟨.ok (0 < (removePredicates c.state b).1.1 + (removePredicates c.state b).1.2),
            (removePredicates c.state b).2,
            (c.count "removed_predicates" (removePredicates c.state b).1.1).count "removed_copies"
              (removePredicates c.state b).1.2⟩ := fun _ _ => rfl
    constructor
    · intro b c hc
      rw [hstep]
      split
      · exact hc
      · exact hc
    · intro b c changed hc hchanged
      rw [hstep, hc] at hchanged ⊢
      show _ = if found.isEmpty then _ else _
      by_cases hnone : found.isEmpty = true
      · rw [if_pos hnone] at hchanged ⊢
        rw [if_pos hnone]
        cases hchanged
        rfl
      · rw [if_neg hnone] at hchanged ⊢
        rw [if_neg hnone]
        cases hchanged
        rfl
  have hsober : ∀ m, (opaquePredicate.onBody m).Sober := by
    intro m b c e he
    dsimp only [opaquePredicate] at he
    split at he <;> cases he
  have hbefore : opaquePredicate.beforeAll.Sober := by
    intro p c e he
    have he : (Except.ok (!(removeAllInitializers p).1.isEmpty) : Except Error Bool) = .error e := he
    cases he
  -- The bound is on the accesses that are left after the initializers have gone.
  refine endsAfter hbefore ?_ Hook.sober_idle
    (lowers_bodies fun m => hwanes.lowers (hdoes m)) ⟨rfl, fun b hb => ?_⟩
  · exact sober_pass Hook.sober_idle Hook.sober_idle Hook.sober_idle hsober Hook.sober_idle
      Hook.sober_idle
  · obtain ⟨b₀, hb₀, rfl⟩ := exists_of_mem_bodies_removeAllInitializers hb
    obtain ⟨hintact, hjumps⟩ := hp b₀ hb₀
    exact ⟨⟨(becomes_removeInitializers b₀ hintact).1, branchesJump_removeInitializers hjumps⟩,
      fun _ => hlow _ hb⟩

end Stage

end Unscramble
