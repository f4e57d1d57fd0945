import Unscramble.Proofs.Slot.Resplit

/-! # New slots lie side by side

What every load of a group has in common with the stores that supply it, all members of the group
have in common. So a group never names two slots, and splitting fails only when there are more
variables than slots, before it changes anything. Else the groups that get new slots lie one behind
the other from the first local slot on, in order of their first instructions, and the others keep a
slot of an argument.

Main definitions: `Tiles`, `freshWidth`, `Allocated`. Main statements: `common_of_mem_group`,
`mem_group_iff`, `assign_cases`, `on_splitInPlace`, `split_fails_iff`, `split_allocates`. -/

namespace Unscramble.Slot

variable {b b' : Body} {l : Listing} {firstLocal : Nat}

/-! ### What a group has in common -/

/-- Classes in which a value agrees keep to that when a load is linked with the stores that supply
it, if these agree with the load. -/
theorem of_same_linkLoad (firstLocal : Nat) {β : Type} {g : FlowGraph}
    {all : List (Access × Nat)} {f : Nat → β} {state : Linking Partition} {load : Access × Nat}
    (hload : load ∈ all)
    (hnumbers : ∀ a ∈ all, a.2 < state.partition.parent.size)
    (hf : ∀ store ∈ all, Supplies g store.1 load.1 → f load.2 = f store.2)
    (hstate : ∀ i j, state.partition.Same i j → f i = f j) :
    (linkLoad Partition.unionFind g firstLocal all state load).partition.parent.size =
        state.partition.parent.size ∧
      ∀ i j, Partition.Same (linkLoad Partition.unionFind g firstLocal all state load).partition i j →
        f i = f j := by
  rw [linkLoad]
  cases hslot : load.1.insn.loaded? with
  | none => exact ⟨rfl, hstate⟩
  | some slot =>
    dsimp only
    refine List.foldlRecOn _ _ (motive := fun q : Partition =>
      q.parent.size = state.partition.parent.size ∧ ∀ i j, q.Same i j → f i = f j)
      ⟨rfl, hstate⟩ ?_
    rintro q ⟨hsize, hq⟩ store hstore
    obtain ⟨hmem, hcond⟩ := List.mem_filter.1 hstore
    simp only [Bool.and_eq_true, beq_iff_eq] at hcond
    have hagree := hf store hmem ⟨slot, hslot, hcond.1, hcond.2⟩
    refine ⟨(q.size_join _ _).trans hsize, fun i j hij => ?_⟩
    exact hij.of_join (R := fun i j => f i = f j)
      ⟨fun _ => rfl, fun h => h.symm, fun h h' => h.trans h'⟩ hagree
      (by rw [hsize]; exact hnumbers load hload) (by rw [hsize]; exact hnumbers store hmem) hq

/-- What every load has in common with the stores that supply it, all members of a group have in
common. -/
theorem common_of_mem_group {β : Type} (f : Access → β)
    (hf : ∀ load ∈ accesses b.listing, ∀ store ∈ accesses b.listing,
      Supplies (FlowGraph.ofBody b) store load → f load = f store)
    {g : Group} (hg : g ∈ groups firstLocal b) {a c : Access} (ha : a ∈ g.members)
    (hc : c ∈ g.members) : f a = f c := by
  have hmem : ∀ x ∈ (accesses b.listing).zipIdx,
      (accesses b.listing)[x.2]? = some x.1 ∧ x.2 < (accesses b.listing).length := by
    intro x hx
    have hget := List.mem_zipIdx_iff_getElem?.1 hx
    exact ⟨hget, (List.getElem?_eq_some_iff.1 hget).1⟩
  -- the numbers of one class stand for accesses that agree
  have hclass : (linking firstLocal b).partition.parent.size = (accesses b.listing).length ∧
      ∀ i j, (linking firstLocal b).partition.Same i j →
        (accesses b.listing)[i]?.map f = (accesses b.listing)[j]?.map f := by
    refine List.foldlRecOn (accesses b.listing).zipIdx _ (motive := fun state : Linking Partition =>
      state.partition.parent.size = (accesses b.listing).length ∧
        ∀ i j, state.partition.Same i j →
          (accesses b.listing)[i]?.map f = (accesses b.listing)[j]?.map f) ⟨?_, ?_⟩ ?_
    · simp [Partition.discrete]
    · intro i j hij
      rw [Partition.Same, Partition.root_discrete, Partition.root_discrete] at hij
      rw [hij]
    · rintro state ⟨hsize, hstate⟩ load hload
      obtain ⟨hsize', hstate'⟩ := of_same_linkLoad firstLocal
        (g := FlowGraph.ofBody b) (f := fun i => (accesses b.listing)[i]?.map f) hload
        (fun x hx => by rw [hsize]; exact (hmem x hx).2) (by
          intro store hstore hsupplies
          rw [(hmem load hload).1, (hmem store hstore).1]
          exact congrArg some (hf _ (List.mem_of_getElem? (hmem load hload).1) _
            (List.mem_of_getElem? (hmem store hstore).1) hsupplies)) hstate
      exact ⟨hsize'.trans hsize, hstate'⟩
  rw [groups_eq] at hg
  obtain ⟨numbers, hnumbers, rfl⟩ := List.mem_map.1 hg
  obtain ⟨i, hi, hai⟩ := List.mem_filterMap.1 ha
  obtain ⟨j, hj, hcj⟩ := List.mem_filterMap.1 hc
  have hagree := hclass.2 i j (eq_of_mem_classesBy hnumbers hi hj)
  rw [hai, hcj] at hagree
  exact Option.some.inj hagree

/-- A group never names two slots. -/
theorem clash?_slots_of_mem_groups {g : Group} (hg : g ∈ groups firstLocal b) :
    Group.clash? g.slots = none := by
  have hcommon : ∀ a ∈ g.members, ∀ c ∈ g.members, a.insn.slot? = c.insn.slot? := by
    intro a ha c hc
    refine common_of_mem_group (fun a => a.insn.slot?) ?_ hg ha hc
    rintro load - store - ⟨slot, hloaded, hstored, -⟩
    exact (Instruction.slot?_of_loaded? hloaded).trans (Instruction.slot?_of_stored? hstored).symm
  cases hslots : g.slots with
  | nil => rfl
  | cons n rest =>
    have hn : n ∈ g.slots := by
      rw [hslots]
      exact List.mem_cons_self
    obtain ⟨a, ha, han⟩ := List.mem_filterMap.1 hn
    refine clash?_eq_none (n := n) ?_
    intro m hm
    rw [← hslots] at hm
    obtain ⟨c, hc, hcm⟩ := List.mem_filterMap.1 hm
    have heq := hcommon c hc a ha
    rw [hcm, han] at heq
    exact Option.some.inj heq

/-- A load and a store of a body that supplies it. -/
def Shares (b : Body) (load store : Access) : Prop :=
  load ∈ accesses b.listing ∧ store ∈ accesses b.listing ∧
    Supplies (FlowGraph.ofBody b) store load

/-- The group of an access has the accesses that are tied to it by loads and the stores that supply
them, and no others. -/
theorem mem_group_iff (wf : b.listing.WellFormed) {g : Group} (hg : g ∈ groups firstLocal b)
    {a c : Access} (ha : a ∈ g.members) : c ∈ g.members ↔ Relation.EqvGen (Shares b) a c := by
  constructor
  · intro hc
    -- Groups are classes of a quotient by the relation, so what is in one group is tied by it.
    refine Quot.eqvGen_exact (common_of_mem_group (Quot.mk (Shares b)) ?_ hg ha hc)
    intro load hload store hstore hsupplies
    exact Quot.sound ⟨hload, hstore, hsupplies⟩
  · intro h
    -- The other way round on the ties: every group has both ends of one or neither.
    have hiff : ∀ g ∈ groups firstLocal b, a ∈ g.members ↔ c ∈ g.members := by
      clear ha hg
      induction h with
      | rel load store hshares =>
        obtain ⟨hload, hstore, hsupplies⟩ := hshares
        obtain ⟨g', hg', hload', hstores, -⟩ := exists_group firstLocal hload
        have hstore' := hstores store hstore hsupplies
        intro g hg
        constructor
        · intro hmem
          rwa [group_unique wf hg hg' hmem hload' rfl]
        · intro hmem
          rwa [group_unique wf hg hg' hmem hstore' rfl]
      | refl x => exact fun _ _ => Iff.rfl
      | symm x y _ ih => exact fun g hg => (ih g hg).symm
      | trans x y z _ _ ih ih' => exact fun g hg => (ih g hg).trans (ih' g hg)
    exact (hiff g hg).1 ha

/-- A group is marked as incoming if and only if an argument's first value reaches a load of it. -/
theorem incoming_iff (wf : b.listing.WellFormed) {g : Group} (hg : g ∈ groups firstLocal b) :
    g.incoming = true ↔ ∃ a ∈ g.members, ReadsArgument (FlowGraph.ofBody b) firstLocal a := by
  constructor
  · exact exists_readsArgument hg
  · rintro ⟨a, ha, hreads⟩
    exact (supplies_group wf hg ha).2 hreads

/-! ### The order of groups -/

/-- Accesses are in order of their places. -/
theorem pairwise_accesses (l : Listing) :
    (accesses l).Pairwise fun a c => a.position < c.position := by
  have hplaces : l.handles.zipIdx.Pairwise fun p q => p.2 < q.2 := by
    rw [← List.pairwise_map (f := Prod.snd), List.zipIdx_map_snd]
    exact List.pairwise_lt_range'
  refine hplaces.filterMap _ ?_
  intro p q hpq a ha c hc
  simp only [Option.ite_none_right_eq_some, Option.some.injEq] at ha hc
  obtain ⟨-, rfl⟩ := ha
  obtain ⟨-, rfl⟩ := hc
  exact hpq

/-- Groups are in order of their first instructions. -/
theorem pairwise_groups (firstLocal : Nat) (b : Body) :
    (groups firstLocal b).Pairwise fun g g' =>
      ∃ a ∈ g.members, ∀ c ∈ g'.members, a.position < c.position := by
  rw [groups_eq, List.pairwise_map]
  refine (pairwise_classesBy _ _).imp_of_mem ?_
  rintro numbers numbers' hnumbers - ⟨i, hi, hless⟩
  have hlt : i < (accesses b.listing).length := lt_of_mem_classesBy hnumbers hi
  refine ⟨(accesses b.listing)[i], ?_, ?_⟩
  · exact List.mem_filterMap.2 ⟨i, hi, List.getElem?_eq_getElem hlt⟩
  · intro c hc
    obtain ⟨j, hj, hcj⟩ := List.mem_filterMap.1 hc
    obtain ⟨hjlt, rfl⟩ := List.getElem?_eq_some_iff.1 hcj
    exact List.pairwise_iff_getElem.1 (pairwise_accesses b.listing) i j hlt hjlt (hless j hj)

/-! ### New slots -/

/-- Groups with their slots lie one behind the other, each as wide as it is, and take the slots from
one up to another. -/
def Tiles : Nat → List (Group × Nat) → Nat → Prop
  | low, [], high => low = high
  | low, p :: rest, high => p.2 = low ∧ Tiles (low + p.1.width) rest high

/-- How many slots the groups take that get new ones. -/
def freshWidth (gs : List Group) : Nat :=
  ((gs.filter fun g => !g.incoming).map Group.width).sum

namespace Tiles

variable {low high : Nat} {fresh : List (Group × Nat)}

/-- What lies one behind the other ends where it starts, or behind. -/
theorem le (h : Tiles low fresh high) : low ≤ high := by
  induction fresh generalizing low with
  | nil => exact Nat.le_of_eq h
  | cons p rest ih => exact (Nat.le_add_right _ _).trans (ih h.2)

/-- No group starts in front of the first slot. -/
theorem le_slot (h : Tiles low fresh high) : ∀ p ∈ fresh, low ≤ p.2 := by
  induction fresh generalizing low with
  | nil => simp
  | cons p rest ih =>
    intro q hq
    rcases List.mem_cons.1 hq with rfl | hq
    · exact Nat.le_of_eq h.1.symm
    · exact (Nat.le_add_right _ _).trans (ih h.2 q hq)

/-- Each group ends where the next one starts, or in front. -/
theorem pairwise (h : Tiles low fresh high) :
    fresh.Pairwise fun p q => p.2 + p.1.width ≤ q.2 := by
  induction fresh generalizing low with
  | nil => exact List.Pairwise.nil
  | cons p rest ih =>
    obtain ⟨hp, hrest⟩ := h
    refine List.pairwise_cons.2 ⟨?_, ih hrest⟩
    rw [hp]
    exact hrest.le_slot

/-- The groups take the slots from the first up to the last, and no others. -/
theorem exists_iff (h : Tiles low fresh high) (k : Nat) :
    (∃ p ∈ fresh, p.2 ≤ k ∧ k < p.2 + p.1.width) ↔ low ≤ k ∧ k < high := by
  induction fresh generalizing low with
  | nil =>
    rw [Tiles] at h
    simp only [List.not_mem_nil, false_and, exists_false, false_iff]
    omega
  | cons p rest ih =>
    obtain ⟨rfl, hrest⟩ := h
    have hle := hrest.le
    have hiff := ih hrest
    simp only [List.mem_cons, exists_eq_or_imp, hiff]
    omega

end Tiles

variable {method : Method} {next free : Nat} {gs : List Group} {assigned : List (Group × Nat)}

/-- The groups that get slots lie one behind the other, and if there are any, they end in front of
the last slot that there can be. -/
theorem tiles_of_assign (h : assign method next gs = .ok (assigned, free)) :
    Tiles next assigned free ∧ (assigned ≠ [] → free ≤ 65535) := by
  induction gs generalizing next assigned free with
  | nil =>
    cases h
    exact ⟨rfl, fun hne => absurd rfl hne⟩
  | cons g gs ih =>
    rw [assign] at h
    split at h
    · cases h
    · split at h
      · exact ih h
      · split at h
        · cases h
        · next hfits =>
          cases hrest : assign method (next + g.width) gs with
          | error e =>
            rw [hrest] at h
            cases h
          | ok result =>
            obtain ⟨rest, free'⟩ := result
            rw [hrest] at h
            cases h
            obtain ⟨htiles, hbound⟩ := ih hrest
            refine ⟨⟨rfl, htiles⟩, fun _ => ?_⟩
            -- without groups behind it, this one is the last
            cases rest with
            | nil => exact htiles ▸ Nat.not_lt.1 hfits
            | cons p rest => exact hbound (List.cons_ne_nil p rest)

/-- Groups that name one slot each get slots unless they take more than there are. -/
theorem assign_cases (method : Method) (hclash : ∀ g ∈ gs, Group.clash? g.slots = none)
    (hnext : next ≤ 65535) :
    (65535 < next + freshWidth gs ∧ assign method next gs = .error (.slotsExhausted method.text)) ∨
      (next + freshWidth gs ≤ 65535 ∧
        ∃ assigned, assign method next gs = .ok (assigned, next + freshWidth gs)) := by
  -- On the groups: one that is incoming keeps its slot, another one takes as many new ones as it is
  -- wide.
  induction gs generalizing next with
  | nil => exact .inr ⟨hnext, [], rfl⟩
  | cons g gs ih =>
    obtain ⟨hg, hgs⟩ := List.forall_mem_cons.1 hclash
    rw [assign, hg]
    dsimp only
    cases hin : g.incoming with
    | true =>
      have hwidth : freshWidth (g :: gs) = freshWidth gs := by
        rw [freshWidth, List.filter_cons_of_neg (by simp [hin]), freshWidth]
      rw [if_pos rfl, hwidth]
      exact ih hgs hnext
    | false =>
      have hwidth : freshWidth (g :: gs) = g.width + freshWidth gs := by
        rw [freshWidth, List.filter_cons_of_pos (by simp [hin]), List.map_cons, List.sum_cons,
          freshWidth]
      rw [if_neg Bool.false_ne_true, hwidth, ← Nat.add_assoc]
      by_cases hfits : 65535 < next + g.width
      · rw [if_pos hfits]
        exact .inl ⟨hfits.trans_le (Nat.le_add_right _ _), rfl⟩
      · rw [if_neg hfits]
        rcases ih hgs (Nat.not_lt.1 hfits) with ⟨hmany, hassign⟩ | ⟨hfew, assigned, hassign⟩
        · rw [hassign]
          exact .inl ⟨hmany, rfl⟩
        · rw [hassign]
          exact .inr ⟨hfew, _, rfl⟩

/-! ### Splitting in place -/

/-- Edits after others start with what these leave, unless they fail. -/
theorem Edit.on_bind {α β : Type} (e : Edit α) (f : α → Edit β) (b : Body) :
    (e >>= f).on b =
      match e.on b with
      | (.ok a, b') => (f a).on b'
      | (.error failure, b') => (.error failure, b') := by
  unfold Edit.on
  rw [ExceptT.run_bind, StateT.run_bind]
  rcases (ExceptT.run e).run b with ⟨failure | a, b'⟩ <;> rfl

/-- Giving a slot to an access is giving it to its instruction. -/
theorem on_rename {a : Access} (ha : a.insn = b.listing.get a.handle) (count : Nat)
    (slot : UInt16) :
    (rename count a.handle slot).on b =
      (.ok (renumber slot (count, b.listing) a).1,
        { b with listing := (renumber slot (count, b.listing) a).2 }) := by
  rw [renumber, ha]
  show (ExceptT.run (if (b.listing.get a.handle).slot? = some slot then pure count
    else do
      set { b with listing := b.listing.modify a.handle (Instruction.withSlot slot) }
      pure (count + 1) : Edit Nat)).run b = _
  split <;> rfl

/-- Giving slots one after the other does not fail, and changes the instructions as giving them to
the accesses does. -/
theorem on_renameAll {pairs : List (Access × UInt16)} {b : Body} {count : Nat}
    (hnodup : (pairs.map fun p => p.1.handle).Nodup)
    (hinsn : ∀ p ∈ pairs, p.1.insn = b.listing.get p.1.handle) :
    (renameAll count (pairs.map fun p => (p.1.handle, p.2))).on b =
      (.ok (pairs.foldl (fun s p => renumber p.2 s p.1) (count, b.listing)).1,
        { b with
          listing := (pairs.foldl (fun s p => renumber p.2 s p.1) (count, b.listing)).2 }) := by
  induction pairs generalizing b count with
  | nil => rfl
  | cons p pairs ih =>
    rw [List.map_cons, List.nodup_cons] at hnodup
    obtain ⟨hp, hpairs⟩ := List.forall_mem_cons.1 hinsn
    rw [List.foldl_cons, List.map_cons, renameAll, Edit.on_bind, on_rename hp]
    refine ih hnodup.2 ?_
    intro q hq
    have hne : p.1.handle ≠ q.1.handle := fun heq => hnodup.1 (heq ▸ List.mem_map_of_mem hq)
    rw [hpairs q hq, renumber]
    split
    · rfl
    · exact (Listing.get_modify_of_ne hne _).symm

/-- Splitting in place does what splitting tells, and leaves the body alone when it fails. -/
theorem on_splitInPlace (method : Method) (wf : b.listing.WellFormed) :
    (splitInPlace method).on b =
      match split method b with
      | .ok (report, b') => (.ok report, b')
      | .error e => (.error e, b) := by
  have hget : (get : Edit Body).on b = (.ok b, b) := rfl
  rw [splitInPlace, splitInPlaceBy, Edit.on_bind, hget, split, splitBy]
  dsimp only
  -- Whether slots are found is decided before the first instruction is rewritten.
  cases hassign : assign method method.firstLocal (groups method.firstLocal b) with
  | error e => rfl
  | ok result =>
    obtain ⟨assigned, free⟩ := result
    obtain ⟨-, hmap, -, -⟩ := assign_spec hassign
    have hpairs : (assigned.flatMap fun p => p.1.members.map fun a => (a.handle, p.2.toUInt16)) =
        (pairsOf assigned).map fun p => (p.1.handle, p.2) := by
      rw [pairsOf, List.map_flatMap]
      simp only [List.map_map, Function.comp_def]
    have hok : (liftM (Except.ok (assigned, free) : Except Error _) : Edit _).on b =
        (.ok (assigned, free), b) := rfl
    rw [Edit.on_bind, hok]
    dsimp only
    rw [hpairs, Edit.on_bind, on_renameAll (nodup_map_handle_pairsOf wf hmap)
      fun _ hp => (insn_of_mem_pairsOf wf hmap hp).1]
    simp only [bind, Except.bind, foldl_assigned]
    rfl

/-- Giving slots does not fail, whatever the instructions. -/
theorem exists_on_renameAll (renames : List (Handle × UInt16)) (count : Nat) (b : Body) :
    ∃ renumbered b', (renameAll count renames).on b = (.ok renumbered, b') := by
  induction renames generalizing count b with
  | nil => exact ⟨count, b, rfl⟩
  | cons r renames ih =>
    rw [renameAll, Edit.on_bind,
      on_rename (a := ⟨r.1, 0, b.listing.get r.1⟩) rfl count r.2]
    exact ih _ _

/-- Splitting fails as the choice of slots does. -/
theorem split_eq_error_iff {method : Method} {e : Error} :
    split method b = .error e ↔
      assign method method.firstLocal (groups method.firstLocal b) = .error e := by
  rw [split, splitBy]
  constructor
  · intro h
    cases hassign : assign method method.firstLocal (groups method.firstLocal b) with
    | error failure =>
      rw [hassign] at h
      cases h
      rfl
    | ok result =>
      rw [hassign] at h
      cases h
  · intro h
    rw [h]
    rfl

/-- Splitting in place leaves the body alone when the choice of slots fails. -/
theorem on_splitInPlace_of_error {method : Method} {e : Error} (h : split method b = .error e) :
    (splitInPlace method).on b = (.error e, b) := by
  have hget : (get : Edit Body).on b = (.ok b, b) := rfl
  rw [splitInPlace, splitInPlaceBy, Edit.on_bind, hget]
  dsimp only
  rw [split_eq_error_iff.1 h]
  rfl

/-- Splitting in place fails at the choice of slots only. -/
theorem exists_on_splitInPlace {method : Method}
    (h : assign method method.firstLocal (groups method.firstLocal b) = .ok (assigned, free)) :
    ∃ report b', (splitInPlace method).on b = (.ok report, b') := by
  have hget : (get : Edit Body).on b = (.ok b, b) := rfl
  have hok : (liftM (Except.ok (assigned, free) : Except Error _) : Edit _).on b =
      (.ok (assigned, free), b) := rfl
  obtain ⟨renumbered, b', hrename⟩ := exists_on_renameAll (assigned.flatMap fun p =>
    p.1.members.map fun a => (a.handle, p.2.toUInt16)) 0 b
  rw [splitInPlace, splitInPlaceBy, Edit.on_bind, hget]
  dsimp only
  rw [h, Edit.on_bind, hok]
  dsimp only
  rw [Edit.on_bind, hrename]
  exact ⟨_, _, rfl⟩

/-! ### Failures -/

/-- Splitting fails for want of slots only, when the slots of the arguments and those of the groups
that need new ones are more than there are, whatever the body; and it fails before it changes
anything. It does not matter what keeps the sets of accesses. -/
theorem split_fails_iff {U : UnionFind} (hU : U.Lawful) (method : Method) (b : Body)
    (hlocal : method.firstLocal ≤ 65535) :
    (∀ e, splitBy U method b = .error e → e = .slotsExhausted method.text) ∧
    ((∃ e, splitBy U method b = .error e) ↔
      65535 < method.firstLocal + freshWidth (groupsBy U method.firstLocal b)) ∧
    ∀ e, (splitBy U method b = .error e ↔ ((splitInPlaceBy U method).on b).1 = .error e) ∧
      (((splitInPlaceBy U method).on b).1 = .error e →
        ((splitInPlaceBy U method).on b).2 = b) := by
  rw [splitBy_eq hU, splitInPlaceBy_eq hU, groupsBy_eq hU]
  have hclash : ∀ g ∈ groups method.firstLocal b, Group.clash? g.slots = none :=
    fun g hg => clash?_slots_of_mem_groups hg
  rcases assign_cases method hclash hlocal with
    ⟨hmany, hassign⟩ | ⟨hfew, assigned, hassign⟩
  · have hsplit := split_eq_error_iff.2 hassign
    have hon := on_splitInPlace_of_error hsplit
    rw [hsplit, hon]
    refine ⟨?_, ?_, fun e => ⟨?_, fun _ => rfl⟩⟩
    · intro e he
      exact (Except.error.inj he).symm
    · exact iff_of_true ⟨_, rfl⟩ hmany
    · rw [Except.error.injEq, Except.error.injEq]
  · have hsplit : ∀ e, split method b ≠ .error e := by
      intro e he
      rw [split_eq_error_iff, hassign] at he
      cases he
    obtain ⟨report, b', hon⟩ := exists_on_splitInPlace hassign
    have hok : ∀ e, ((splitInPlace method).on b).1 ≠ .error e := by
      intro e he
      rw [hon] at he
      cases he
    refine ⟨fun e he => absurd he (hsplit e), ?_, fun e => ⟨?_, fun he => absurd he (hok e)⟩⟩
    · refine iff_of_false ?_ (Nat.not_lt.2 hfew)
      rintro ⟨e, he⟩
      exact hsplit e he
    · exact iff_of_false (hsplit e) (hok e)

/-- A method with many arguments. -/
def crowdedMethod (arguments : Nat) : Method where
  owner := "A"
  name := "f"
  descriptor := String.ofList ('(' :: List.replicate arguments 'I' ++ [')', 'V'])
  access := .staticFlag

/-- Its arguments take that many slots. -/
theorem firstLocal_crowdedMethod (n : Nat) : (crowdedMethod n).firstLocal = n := by
  -- Each argument is one letter, and takes one slot.
  have harguments : ∀ n, Descriptor.argumentsFrom (List.replicate n 'I' ++ [')', 'V']) =
      List.replicate n ['I'] := by
    intro n
    induction n with
    | zero =>
      rw [List.replicate_zero, List.nil_append, Descriptor.argumentsFrom, if_pos (by rfl)]
      rfl
    | succ n ih =>
      rw [List.replicate_succ, List.cons_append, Descriptor.argumentsFrom, if_neg (by simp)]
      split
      · next h => cases h
      · next c rest h =>
        cases h
        simp [ih, List.replicate_succ]
  have hslots : ∀ n,
      (List.replicate n "I").foldr (fun type n => Descriptor.width type + n) 0 = n := by
    intro n
    induction n with
    | zero => rfl
    | succ n ih =>
      rw [List.replicate_succ, List.foldr_cons, ih]
      exact Nat.add_comm 1 n
  have hcut : Text.cut '(' (crowdedMethod n).descriptor.toList =
      some ([], List.replicate n 'I' ++ [')', 'V']) := by
    rw [crowdedMethod, String.toList_ofList]
    rfl
  rw [Method.firstLocal, Descriptor.argumentSlots, Descriptor.arguments, hcut]
  dsimp only
  have hstatic : (crowdedMethod n).isStatic = true := by cbv
  rw [harguments, List.map_replicate, hstatic, if_pos rfl, Nat.zero_add]
  exact hslots n

/-- With 65535 arguments there is no slot for one more variable, and with one argument less there
is. -/
theorem split_fails_iff_crowded :
    (splitInPlace (crowdedMethod 65535)).on (reusingBody 0 1) =
        (.error (.slotsExhausted (crowdedMethod 65535).text), reusingBody 0 1) ∧
      ∃ report b', split (crowdedMethod 65534) (reusingBody 0 1) = .ok (report, b') := by
  have hfull : freshWidth (groups 65535 (reusingBody 0 1)) = 1 := by cbv
  have hfree : freshWidth (groups 65534 (reusingBody 0 1)) = 1 := by cbv
  obtain ⟨hmessage, hfails, hplace⟩ := split_fails_iff Partition.lawful_unionFind
    (crowdedMethod 65535) (reusingBody 0 1) (by rw [firstLocal_crowdedMethod])
  obtain ⟨-, hfits, -⟩ := split_fails_iff Partition.lawful_unionFind (crowdedMethod 65534)
    (reusingBody 0 1) (by rw [firstLocal_crowdedMethod]; decide)
  rw [firstLocal_crowdedMethod, hfull] at hfails
  rw [firstLocal_crowdedMethod, hfree] at hfits
  constructor
  · obtain ⟨e, he⟩ := hfails.2 (by decide)
    have hon := (hplace e).1.1 he
    rw [← hmessage e he]
    exact Prod.ext hon ((hplace e).2 hon)
  · cases hsplit : split (crowdedMethod 65534) (reusingBody 0 1) with
    | error e => exact absurd (hfits.1 ⟨e, hsplit⟩) (by decide)
    | ok result => exact ⟨result.1, result.2, rfl⟩

/-! ### Successes -/

/-- How the slots of a body lie after a split, for the groups of its accesses, with those that got new
slots and these. -/
structure Allocated (gs : List Group) (firstLocal : Nat) (b b' : Body)
    (fresh : List (Group × Nat)) : Prop where
  /-- The groups that no argument reaches got new slots. -/
  groups : fresh.map (·.1) = gs.filter fun g => !g.incoming
  /-- They are in order of their first instructions. -/
  ordered : fresh.Pairwise fun p q =>
    ∃ a ∈ p.1.members, ∀ c ∈ q.1.members, a.position < c.position
  /-- Each ends where the next one starts, or in front. -/
  disjoint : fresh.Pairwise fun p q => p.2 + p.1.width ≤ q.2
  /-- They take the slots from the first local one on that the body uses, and no others. -/
  tiles : ∀ k, (∃ p ∈ fresh, p.2 ≤ k ∧ k < p.2 + p.1.width) ↔
    firstLocal ≤ k ∧ k < b'.maxLocals.toNat
  /-- The members of a group with a new slot name it. -/
  named : ∀ p ∈ fresh, ∀ a ∈ p.1.members,
    (b'.listing.get a.handle).slot?.map UInt16.toNat = some p.2
  /-- The other groups keep a slot of an argument. -/
  kept : ∀ g ∈ gs, g.incoming = true → ∃ slot : UInt16,
    slot.toNat < firstLocal ∧ ∀ a ∈ g.members,
      (b.listing.get a.handle).slot? = some slot ∧ b'.listing.get a.handle = b.listing.get a.handle

/-- After a split, the groups that no argument reaches have new slots side by side. -/
theorem allocated_split {report : Split} (wf : b.listing.WellFormed)
    (h : split method b = .ok (report, b')) :
    ∃ fresh, Allocated (groups method.firstLocal b) method.firstLocal b b' fresh := by
  rw [split, splitBy] at h
  cases hassign : assign method method.firstLocal (groups method.firstLocal b) with
  | error e =>
    rw [hassign] at h
    cases h
  | ok result =>
    obtain ⟨assigned, free⟩ := result
    obtain ⟨htiles, hbound⟩ := tiles_of_assign hassign
    obtain ⟨-, hmap, -, hslots⟩ := assign_spec hassign
    obtain ⟨-, hothers, hmembers⟩ := foldl_renumber (nodup_map_handle_pairsOf wf hmap)
      (fun _ => insn_of_mem_pairsOf wf hmap) (0, b.listing) rfl fun _ _ => rfl
    rw [hassign] at h
    simp only [foldl_assigned, bind, Except.bind, pure, Except.pure] at h
    generalize ((pairsOf assigned).foldl (fun s p => renumber p.2 s p.1) (0, b.listing)).2 = l'
      at h hothers hmembers
    cases h
    refine ⟨assigned, hmap, ?_, htiles.pairwise, ?_, ?_, ?_⟩
    · rw [← List.pairwise_map (f := Prod.fst) (R := fun g g' : Group =>
        ∃ a ∈ g.members, ∀ c ∈ g'.members, a.position < c.position), hmap]
      exact (pairwise_groups method.firstLocal b).filter _
    · intro k
      rw [htiles.exists_iff]
      dsimp only
      by_cases hne : assigned = []
      · -- nothing lies there, and the slots end at the first local one
        subst hne
        have hfree : method.firstLocal = free := htiles
        have hle : free.toUInt16.toNat ≤ free := Nat.mod_le _ _
        omega
      · rw [toNat_toUInt16 (Nat.lt_succ_of_le (hbound hne))]
    · intro p hp a ha
      have hget := hmembers (a, p.2.toUInt16)
        (List.mem_flatMap.2 ⟨p, hp, List.mem_map.2 ⟨a, ha, rfl⟩⟩)
      have hgroup := (mem_groups_of_mem_assigned hmap hp).1
      obtain ⟨n, hn⟩ := exists_slot?_of_mem_accesses (mem_accesses_of_mem_group hgroup ha)
      dsimp only at hget ⊢
      rw [hget, Instruction.slot?_withSlot, hn, Option.map_some, Option.map_some,
        toNat_toUInt16 (hslots p hp).2]
    · intro g hg hin
      obtain ⟨c, hc, slot, hslot, hlt, -⟩ := exists_readsArgument hg hin
      refine ⟨slot, hlt, fun a ha => ⟨?_, ?_⟩⟩
      · have heq := slot?_eq_of_mem_group hg (clash?_slots_of_mem_groups hg) ha hc
        rw [Instruction.slot?_of_loaded? hslot,
          (of_mem_accesses (mem_accesses_of_mem_group hg ha)).2.1] at heq
        exact heq
      · refine hothers a.handle fun hmem => ?_
        obtain ⟨p, hp, heq⟩ := List.mem_map.1 hmem
        obtain ⟨q, hq, hp⟩ := List.mem_flatMap.1 hp
        obtain ⟨x, hx, rfl⟩ := List.mem_map.1 hp
        obtain ⟨hgroup, hout⟩ := mem_groups_of_mem_assigned hmap hq
        rw [group_unique wf hgroup hg hx ha heq, hin] at hout
        cases hout

/-- The groups of a body are the classes of accesses that loads tie to the stores that supply them,
and an argument reaches those with a load that reads it. After a split, the groups that no argument
reaches have new slots side by side, in order of their first instructions. The edits that are made one
after the other come to the same. It does not matter what keeps the sets of accesses. -/
theorem split_allocates {U : UnionFind} (hU : U.Lawful) (method : Method) (b b' : Body)
    (report : Split) (wf : b.listing.WellFormed) (h : splitBy U method b = .ok (report, b')) :
    (∀ a ∈ accesses b.listing, ∃ g ∈ groupsBy U method.firstLocal b, a ∈ g.members) ∧
    (∀ g ∈ groupsBy U method.firstLocal b,
      (∀ a ∈ g.members, ∀ c, c ∈ g.members ↔ Relation.EqvGen (Shares b) a c) ∧
      (g.incoming = true ↔
        ∃ a ∈ g.members, ReadsArgument (FlowGraph.ofBody b) method.firstLocal a)) ∧
    (∃ fresh, Allocated (groupsBy U method.firstLocal b) method.firstLocal b b' fresh) ∧
    (splitInPlaceBy U method).on b = (.ok report, b') := by
  rw [groupsBy_eq hU, splitInPlaceBy_eq hU]
  rw [splitBy_eq hU] at h
  refine ⟨fun a ha => ?_, fun g hg => ?_, allocated_split wf h, ?_⟩
  · obtain ⟨g, hg, hmem, -⟩ := exists_group method.firstLocal ha
    exact ⟨g, hg, hmem⟩
  · exact ⟨fun a ha c => mem_group_iff wf hg ha, incoming_iff wf hg⟩
  · rw [on_splitInPlace method wf, h]

/-- A body that reads its argument, and then uses the argument's slot for a 64-bit value and for a
number. -/
def mixedBody (long number maxLocals : UInt16) : Body where
  listing :=
    { nodes := #[⟨.slot .iload 0, none⟩, ⟨.slot .lstore long, none⟩, ⟨.slot .lload long, none⟩,
        ⟨.slot .istore number, none⟩, ⟨.slot .iload number, none⟩, ⟨.plain .returnVoid, none⟩]
      order := #[0, 1, 2, 3, 4, 5] }
  maxLocals

/-- The 64-bit value takes two slots behind the argument, and the number the one behind them. -/
theorem split_allocates_mixed :
    (mixedBody 0 0 2).listing.WellFormed ∧
      split reusingMethod (mixedBody 0 0 2) = .ok (⟨2, 4, 4, true⟩, mixedBody 1 3 4) ∧
      ∃ fresh, Allocated (groups reusingMethod.firstLocal (mixedBody 0 0 2))
        reusingMethod.firstLocal (mixedBody 0 0 2) (mixedBody 1 3 4) fresh := by
  have wf : (mixedBody 0 0 2).listing.WellFormed := ⟨by decide, by decide⟩
  have hsplit : split reusingMethod (mixedBody 0 0 2) =
      .ok (⟨2, 4, 4, true⟩, mixedBody 1 3 4) := by cbv
  obtain ⟨-, -, hfresh, -⟩ := split_allocates Partition.lawful_unionFind reusingMethod (mixedBody 0 0 2)
    (mixedBody 1 3 4) ⟨2, 4, 4, true⟩ wf hsplit
  exact ⟨wf, hsplit, hfresh⟩

end Unscramble.Slot
