import Unscramble.Proofs.Slot.Split

/-! # Splitting slots twice

A split body is analysed as the body was. Control goes the same ways, and the search for the sources
of a load stops at the same points: a store that the search reached is in the group of the load, so it
names the group's new slot, and no other store that the search reached does. So the same accesses
share a variable and the same loads read arguments, every group names one slot, and the slots that the
groups would get are those that they have.

Main definitions: `Access.renamed`, `Group.renamed`. Main statements: `Renumbered.linking_eq`,
`Renumbered.groups_eq`, `split_again`. -/

namespace Unscramble

/-- A search that goes on in the same way from all that it reaches reaches the same. -/
theorem Flow.Reached.congr {next next' : Nat → List Nat} {size : Nat} {start : List Nat}
    (hsame : ∀ p, Reached next size start p → next' p = next p) {p : Nat} :
    Reached next' size start p ↔ Reached next size start p := by
  constructor
  · intro h
    induction h with
    | start mem lt => exact .start mem lt
    | step _ mem lt ih => exact .step ih (hsame _ ih ▸ mem) lt
  · intro h
    induction h with
    | start mem lt => exact .start mem lt
    | step reached mem lt ih => exact .step ih ((hsame _ reached).symm ▸ mem) lt

/-- An instruction on another slot names that slot. -/
theorem Instruction.slot?_withSlot {L : Type} (insn : Instruction L) (n : UInt16) :
    (insn.withSlot n).slot? = insn.slot?.map fun _ => n := by
  cases insn <;> rfl

namespace Slot

variable {b : Body} {l : Listing}

/-- An access as it stands in another listing. -/
def Access.renamed (l : Listing) (a : Access) : Access :=
  { a with insn := l.get a.handle }

/-- A group as it stands in another listing. -/
def Group.renamed (l : Listing) (g : Group) : Group :=
  { g with members := g.members.map (Access.renamed l) }

/-- An access names a slot. -/
theorem exists_slot?_of_mem_accesses {a : Access} (ha : a ∈ accesses l) :
    ∃ n, (l.get a.handle).slot? = some n := by
  obtain ⟨-, -, haccess⟩ := of_mem_accesses ha
  rw [accessesSlot, Bool.or_eq_true, Option.isSome_iff_exists, Option.isSome_iff_exists] at haccess
  rcases haccess with ⟨n, hn⟩ | ⟨n, hn⟩
  · exact ⟨n, Instruction.slot?_of_loaded? hn⟩
  · exact ⟨n, Instruction.slot?_of_stored? hn⟩

/-- The group of a load has the stores that supply it, and is marked as incoming if the load reads an
argument. -/
theorem supplies_group {firstLocal : Nat} (wf : b.listing.WellFormed) {g : Group}
    (hg : g ∈ groups firstLocal b) {a : Access} (ha : a ∈ g.members) :
    (∀ s ∈ accesses b.listing, Supplies (FlowGraph.ofBody b) s a → s ∈ g.members) ∧
      (ReadsArgument (FlowGraph.ofBody b) firstLocal a → g.incoming = true) := by
  obtain ⟨g', hg', ha', hgroup⟩ := exists_group firstLocal (mem_accesses_of_mem_group hg ha)
  rwa [group_unique wf hg hg' ha ha' rfl]

namespace Renumbered

variable {firstLocal : Nat} {l' : Listing} {new : Group → UInt16} {g : Group} {a : Access}
  {maxLocals : UInt16}

/-! ### The flow graph -/

/-- The same instructions access slots. -/
theorem accessesSlot_eq (r : Renumbered firstLocal b l' new) (x : Handle) :
    accessesSlot (l'.get x) = accessesSlot (b.listing.get x) := by
  rcases r.get_cases x with h | ⟨n, h⟩
  · rw [h]
  · rw [h, accessesSlot, accessesSlot, Instruction.loaded?_withSlot, Instruction.stored?_withSlot,
      Option.isSome_map, Option.isSome_map]

/-- The accesses stand where they stood. -/
theorem accesses_eq (r : Renumbered firstLocal b l' new) :
    accesses l' = (accesses b.listing).map (Access.renamed l') := by
  rw [accesses, accesses, r.handles, List.map_filterMap]
  refine List.filterMap_congr fun p _ => ?_
  obtain ⟨h, i⟩ := p
  have haccess := r.accessesSlot_eq h
  unfold accessesSlot at haccess
  dsimp only
  rw [haccess]
  split <;> rfl

/-- The sequence has the same length. -/
theorem length_eq (r : Renumbered firstLocal b l' new) : l'.length = b.listing.length :=
  congrArg List.length r.handles

/-- Control goes the same ways. -/
theorem flowEdges_eq (r : Renumbered firstLocal b l' new) (hcap : l'.capacity = b.listing.capacity) :
    flowEdges { b with listing := l', maxLocals } = flowEdges b := by
  have hpositions : l'.positions = b.listing.positions := by
    rw [Listing.positions, Listing.positions, r.handles, hcap]
  have hsteps : ∀ x i, stepEdges b.listing.positions b.listing.length (l'.get x) i =
      stepEdges b.listing.positions b.listing.length (b.listing.get x) i := by
    intro x i
    have hterminal : (l'.get x).isTerminal = (b.listing.get x).isTerminal :=
      congrArg (Option.any Opcode.isTerminal) (r.opcode?_eq x)
    rw [stepEdges, stepEdges, hterminal, r.targets_eq x]
  rw [flowEdges, flowEdges]
  dsimp only
  rw [hpositions, r.length_eq, Listing.instructions, Listing.instructions, r.handles,
    List.zipIdx_map, List.zipIdx_map, List.flatMap_map, List.flatMap_map]
  congr 3
  funext p
  exact hsteps p.1 p.2

/-- The same points lead to a point. -/
theorem predecessors_eq (r : Renumbered firstLocal b l' new)
    (hcap : l'.capacity = b.listing.capacity) :
    (FlowGraph.ofBody { b with listing := l', maxLocals }).predecessors =
      (FlowGraph.ofBody b).predecessors := by
  rw [FlowGraph.ofBody, FlowGraph.ofBody]
  dsimp only
  rw [r.flowEdges_eq hcap, List.size_toArray, List.size_toArray, Listing.instructions,
    Listing.instructions, List.length_map, List.length_map, r.handles]

/-- What stands in front of a position is the same. -/
theorem before_eq (r : Renumbered firstLocal b l' new) (hcap : l'.capacity = b.listing.capacity)
    (p : Nat) : (FlowGraph.ofBody { b with listing := l', maxLocals }).before p =
      (FlowGraph.ofBody b).before p := by
  rw [FlowGraph.before, FlowGraph.before, r.predecessors_eq hcap]

/-! ### The sources of a load -/

/-- Of the instructions from which control comes to a load without passing a store to its slot, those
write its slot that wrote it. -/
theorem stored?_iff (r : Renumbered firstLocal b l' new) (wf : b.listing.WellFormed)
    (hg : g ∈ groups firstLocal b) (ha : a ∈ g.members) {slot : UInt16}
    (hload : a.insn.loaded? = some slot) {i : Nat} {x : Handle}
    (hi : b.listing.handles[i]? = some x)
    (hmarked : Flow.isMarked ((FlowGraph.ofBody b).sources slot (a.position + 1)) (i + 1) = true) :
    (l'.get x).stored? = some (new g) ↔ (b.listing.get x).stored? = some slot := by
  constructor
  · exact r.stored?_of_stored? hg ha (Instruction.slot?_of_loaded? hload) (List.mem_of_getElem? hi)
  · intro hstored
    -- the store supplies the load, so it has the load's new slot
    have haccess : accessesSlot (b.listing.get x) = true := by
      rw [accessesSlot, hstored]
      exact Bool.or_true _
    have hmem := (supplies_group wf hg ha).1 _ (mem_accesses hi haccess) ⟨slot, hload, hstored, hmarked⟩
    rw [r.members g hg _ hmem, Instruction.stored?_withSlot, hstored]
    rfl

/-- The search for the sources of a load finds the same points. -/
theorem isMarked_sources_eq (r : Renumbered firstLocal b l' new) (wf : b.listing.WellFormed)
    (hcap : l'.capacity = b.listing.capacity) (hg : g ∈ groups firstLocal b) (ha : a ∈ g.members)
    {slot : UInt16} (hload : a.insn.loaded? = some slot) (p : Nat) :
    Flow.isMarked ((FlowGraph.ofBody { b with listing := l', maxLocals }).sources (new g)
      (a.position + 1)) p =
        Flow.isMarked ((FlowGraph.ofBody b).sources slot (a.position + 1)) p := by
  rw [Bool.eq_iff_iff, isMarked_sources_iff, isMarked_sources_iff, r.before_eq hcap]
  show Flow.Reached _ (l'.handles.length + 1) _ p ↔ _
  rw [r.handles]
  refine Flow.Reached.congr fun q hq => ?_
  rw [onwards, onwards, r.before_eq hcap]
  -- the search stops at the entry, or at a store that supplies the load
  cases q with
  | zero => rfl
  | succ i =>
    have hlt : i < b.listing.handles.length := Nat.lt_of_succ_lt_succ hq.lt
    have hi : b.listing.handles[i]? = some b.listing.handles[i] := List.getElem?_eq_getElem hlt
    have hi' : l'.handles[i]? = some b.listing.handles[i] := by rw [r.handles, hi]
    rw [storedAt_succ hi, storedAt_succ hi']
    exact if_congr (r.stored?_iff wf hg ha hload hi (isMarked_sources_iff.2 hq)) rfl rfl

/-! ### Groups -/

/-- The slot of a load that the entry reaches is an argument's if it was. -/
theorem lt_firstLocal_iff (r : Renumbered firstLocal b l' new) (wf : b.listing.WellFormed)
    (hg : g ∈ groups firstLocal b) (ha : a ∈ g.members) {slot : UInt16}
    (hload : a.insn.loaded? = some slot)
    (hentry : Flow.isMarked ((FlowGraph.ofBody b).sources slot (a.position + 1)) 0 = true) :
    (new g).toNat < firstLocal ↔ slot.toNat < firstLocal := by
  have hkept : g.incoming = true → new g = slot := by
    intro hin
    have hslot := r.kept g hg hin a ha
    rw [Instruction.slot?_of_loaded? hload] at hslot
    exact (Option.some.inj hslot).symm
  constructor
  · intro hlt
    cases hin : g.incoming with
    | true => rwa [hkept hin] at hlt
    | false => exact absurd hlt (Nat.not_lt.2 (r.fresh g hg hin))
  · intro hlt
    rwa [hkept ((supplies_group wf hg ha).2 ⟨slot, hload, hlt, hentry⟩)]

/-- A load is linked with the same stores. -/
theorem linkLoad_eq (r : Renumbered firstLocal b l' new) (wf : b.listing.WellFormed)
    (hcap : l'.capacity = b.listing.capacity) {load : Access × Nat}
    (hload : load ∈ (accesses b.listing).zipIdx) (state : Linking Partition) :
    linkLoad Partition.unionFind (FlowGraph.ofBody { b with listing := l', maxLocals }) firstLocal
        ((accesses b.listing).zipIdx.map (Prod.map (Access.renamed l') id)) state
        (load.1.renamed l', load.2) =
      linkLoad Partition.unionFind (FlowGraph.ofBody b) firstLocal (accesses b.listing).zipIdx state load := by
  have hmem : ∀ x ∈ (accesses b.listing).zipIdx, x.1 ∈ accesses b.listing :=
    fun x hx => List.mem_of_getElem? (List.mem_zipIdx_iff_getElem?.1 hx)
  obtain ⟨g, hg, ha, -⟩ := exists_group firstLocal (hmem load hload)
  obtain ⟨-, hinsn, -⟩ := of_mem_accesses (hmem load hload)
  -- What links a load is read off its slot, its stores and whether it reads an argument; none of
  -- these has changed.
  have hloaded : (load.1.renamed l').insn.loaded? = load.1.insn.loaded?.map fun _ => new g := by
    show (l'.get load.1.handle).loaded? = _
    rw [r.members g hg _ ha, Instruction.loaded?_withSlot, hinsn]
  rw [linkLoad, linkLoad]
  dsimp only
  rw [hloaded]
  cases hslot : load.1.insn.loaded? with
  | none => rfl
  | some slot =>
    have hsources : ∀ p, Flow.isMarked ((FlowGraph.ofBody
        { b with listing := l', maxLocals }).sources (new g) ((load.1.renamed l').position + 1)) p =
          Flow.isMarked ((FlowGraph.ofBody b).sources slot (load.1.position + 1)) p :=
      r.isMarked_sources_eq wf hcap hg ha hslot
    have hstores : ∀ x ∈ (accesses b.listing).zipIdx,
        ((l'.get x.1.handle).stored? == some (new g) && Flow.isMarked
          ((FlowGraph.ofBody b).sources slot (load.1.position + 1)) (x.1.position + 1)) =
        (x.1.insn.stored? == some slot && Flow.isMarked
          ((FlowGraph.ofBody b).sources slot (load.1.position + 1)) (x.1.position + 1)) := by
      intro x hx
      obtain ⟨hi, hx', -⟩ := of_mem_accesses (hmem x hx)
      rw [Bool.eq_iff_iff, Bool.and_eq_true, Bool.and_eq_true, beq_iff_eq, beq_iff_eq, hx']
      exact and_congr_left fun hmarked => r.stored?_iff wf hg ha hslot hi hmarked
    have hincoming : (Flow.isMarked ((FlowGraph.ofBody b).sources slot (load.1.position + 1)) 0 &&
          decide ((new g).toNat < firstLocal)) =
        (Flow.isMarked ((FlowGraph.ofBody b).sources slot (load.1.position + 1)) 0 &&
          decide (slot.toNat < firstLocal)) := by
      rw [Bool.eq_iff_iff, Bool.and_eq_true, Bool.and_eq_true, decide_eq_true_eq, decide_eq_true_eq]
      exact and_congr_right fun hentry => r.lt_firstLocal_iff wf hg ha hslot hentry
    dsimp only [Option.map_some]
    simp only [hsources]
    rw [hincoming, List.filter_map, List.foldl_map]
    congr 2
    exact List.filter_congr hstores

/-- The same accesses are linked. -/
theorem linking_eq (r : Renumbered firstLocal b l' new) (wf : b.listing.WellFormed)
    (hcap : l'.capacity = b.listing.capacity) :
    linking firstLocal { b with listing := l', maxLocals } = linking firstLocal b := by
  rw [linking, linking]
  dsimp only
  rw [r.accesses_eq, List.zipIdx_map, List.foldl_map, List.length_map]
  exact List.foldl_ext _ _ _ fun state load hload => r.linkLoad_eq wf hcap hload state

/-- The groups are the same, on their new slots. -/
theorem groups_eq (r : Renumbered firstLocal b l' new) (wf : b.listing.WellFormed)
    (hcap : l'.capacity = b.listing.capacity) :
    groups firstLocal { b with listing := l', maxLocals } =
      (groups firstLocal b).map (Group.renamed l') := by
  rw [Slot.groups_eq, Slot.groups_eq, r.linking_eq wf hcap, List.map_map]
  dsimp only
  rw [r.accesses_eq, List.length_map]
  refine List.map_congr_left fun c _ => ?_
  rw [groupOf, r.linking_eq wf hcap]
  dsimp only [Function.comp_apply, Group.renamed, groupOf]
  rw [r.accesses_eq, List.length_map, List.map_filterMap]
  congr 1
  exact List.filterMap_congr fun i _ => List.getElem?_map

/-- The members of a group name the slot of the group. -/
theorem eq_of_mem_slots (r : Renumbered firstLocal b l' new) (hg : g ∈ groups firstLocal b)
    {n : UInt16} (hn : n ∈ (g.renamed l').slots) : n = new g := by
  obtain ⟨x, hx, hslot⟩ := List.mem_filterMap.1 hn
  obtain ⟨a, ha, rfl⟩ := List.mem_map.1 hx
  obtain ⟨m, hm⟩ := exists_slot?_of_mem_accesses (mem_accesses_of_mem_group hg ha)
  have hnew : (l'.get a.handle).slot? = some n := hslot
  rw [r.members g hg a ha, Instruction.slot?_withSlot, hm] at hnew
  exact (Option.some.inj hnew).symm

/-- The group needs as many slots as it did. -/
theorem width_eq (r : Renumbered firstLocal b l' new) (hg : g ∈ groups firstLocal b) :
    (g.renamed l').width = g.width := by
  have hany : ((g.renamed l').members.any fun a => a.insn.opcode?.any Opcode.isWideAccess) =
      g.members.any fun a => a.insn.opcode?.any Opcode.isWideAccess := by
    rw [Group.renamed, List.any_map, Bool.eq_iff_iff, List.any_eq_true, List.any_eq_true]
    refine exists_congr fun a => and_congr_right fun ha => ?_
    show (l'.get a.handle).opcode?.any Opcode.isWideAccess = true ↔ _
    rw [r.opcode?_eq, (of_mem_accesses (mem_accesses_of_mem_group hg ha)).2.1]
  rw [Group.width, hany]
  rfl

end Renumbered

/-! ### Slots -/

/-- Slots that are all the same do not differ. -/
theorem clash?_eq_none {slots : List UInt16} {n : UInt16} (h : ∀ m ∈ slots, m = n) :
    Group.clash? slots = none := by
  induction slots with
  | nil => rfl
  | cons a rest ih =>
    obtain ⟨ha, hrest⟩ := List.forall_mem_cons.1 h
    cases rest with
    | nil => rfl
    | cons c rest =>
      rw [Group.clash?, if_pos (ha.trans (hrest c List.mem_cons_self).symm)]
      exact ih hrest

/-- Groups that name one slot each and need as many slots as others get the slots of these. -/
theorem assign_map {method : Method} (method' : Method) {f : Group → Group} {gs : List Group} {next free : Nat}
    {assigned : List (Group × Nat)} (h : assign method next gs = .ok (assigned, free))
    (hclash : ∀ g ∈ gs, Group.clash? (f g).slots = none) (hwidth : ∀ g ∈ gs, (f g).width = g.width)
    (hincoming : ∀ g ∈ gs, (f g).incoming = g.incoming) :
    assign method' next (gs.map f) = .ok (assigned.map fun p => (f p.1, p.2), free) := by
  -- On the groups, for every slot to go on from; the width and the argument decide how many slots
  -- are taken.
  induction gs generalizing next assigned free with
  | nil =>
    cases h
    rfl
  | cons g gs ih =>
    obtain ⟨hc, hclash⟩ := List.forall_mem_cons.1 hclash
    obtain ⟨hw, hwidth⟩ := List.forall_mem_cons.1 hwidth
    obtain ⟨hi, hincoming⟩ := List.forall_mem_cons.1 hincoming
    rw [assign] at h
    rw [List.map_cons, assign, hc, hw, hi]
    split at h
    · cases h
    · split at h
      · next hin =>
        rw [if_pos hin]
        exact ih h hclash hwidth hincoming
      · next hout =>
        split at h
        · cases h
        · next hfits =>
          rw [if_neg hout, if_neg hfits]
          cases hrest : assign method (next + g.width) gs with
          | error e =>
            rw [hrest] at h
            cases h
          | ok result =>
            obtain ⟨rest, free'⟩ := result
            rw [hrest] at h
            cases h
            rw [ih hrest hclash hwidth hincoming]
            rfl

/-- Accesses that have their slots are left alone. -/
theorem foldl_renumber_of_slot? {pairs : List (Access × UInt16)}
    (h : ∀ p ∈ pairs, p.1.insn.slot? = some p.2) (state : Nat × Listing) :
    pairs.foldl (fun s p => renumber p.2 s p.1) state = state := by
  induction pairs with
  | nil => rfl
  | cons p pairs ih =>
    obtain ⟨hp, hpairs⟩ := List.forall_mem_cons.1 h
    rw [List.foldl_cons, renumber, if_pos hp]
    exact ih hpairs

/-- Giving slots makes no instructions. -/
theorem capacity_foldl_renumber (pairs : List (Access × UInt16)) (state : Nat × Listing) :
    (pairs.foldl (fun s p => renumber p.2 s p.1) state).2.capacity = state.2.capacity := by
  induction pairs generalizing state with
  | nil => rfl
  | cons p pairs ih =>
    rw [List.foldl_cons, ih, renumber]
    split
    · rfl
    · exact Listing.capacity_modify _ _ _

/-- A split body is well formed. -/
theorem wellFormed_split {method : Method} {b' : Body} {report : Split} (wf : b.listing.WellFormed)
    (h : split method b = .ok (report, b')) : b'.listing.WellFormed := by
  rw [split, splitBy] at h
  cases hassign : assign method method.firstLocal (groups method.firstLocal b) with
  | error e =>
    rw [hassign] at h
    cases h
  | ok result =>
    obtain ⟨assigned, free⟩ := result
    obtain ⟨new, r⟩ := renumbered_foldl wf hassign
    have hcap := capacity_foldl_renumber (pairsOf assigned) (0, b.listing)
    rw [hassign] at h
    simp only [foldl_assigned, bind, Except.bind, pure, Except.pure] at h
    cases h
    refine ⟨r.handles ▸ wf.nodup, fun x hx => ?_⟩
    rw [r.handles] at hx
    exact (wf.lt_capacity x hx).trans_eq hcap.symm

/-- A split body is split as it is, also for a method with the same arguments: the same groups have
the slots that they would get. -/
theorem split_again {method method' : Method} (hlocal : method'.firstLocal = method.firstLocal)
    {b' : Body} {report : Split} (wf : b.listing.WellFormed)
    (h : split method b = .ok (report, b')) :
    split method' b' = .ok ({ report with renumbered := 0, changed := false }, b') := by
  rw [split, splitBy] at h
  cases hassign : assign method method.firstLocal (groups method.firstLocal b) with
  | error e =>
    rw [hassign] at h
    cases h
  | ok result =>
    obtain ⟨assigned, free⟩ := result
    obtain ⟨-, hmap, -, -⟩ := assign_spec hassign
    obtain ⟨new, r⟩ := renumbered_foldl wf hassign
    obtain ⟨-, -, hnew⟩ := foldl_renumber (nodup_map_handle_pairsOf wf hmap)
      (fun _ => insn_of_mem_pairsOf wf hmap) (0, b.listing) rfl fun _ _ => rfl
    have hcap := capacity_foldl_renumber (pairsOf assigned) (0, b.listing)
    rw [hassign] at h
    simp only [foldl_assigned, bind, Except.bind, pure, Except.pure] at h
    generalize ((pairsOf assigned).foldl (fun s p => renumber p.2 s p.1) (0, b.listing)).2 = l'
      at h r hnew hcap
    cases h
    -- the accesses have their slots already
    have hslots : ∀ p ∈ pairsOf (assigned.map fun p => (p.1.renamed l', p.2)),
        p.1.insn.slot? = some p.2 := by
      intro p hp
      obtain ⟨q, hq, hp⟩ := List.mem_flatMap.1 hp
      obtain ⟨⟨g, k⟩, hg, rfl⟩ := List.mem_map.1 hq
      obtain ⟨x, hx, rfl⟩ := List.mem_map.1 hp
      obtain ⟨a, ha, rfl⟩ := List.mem_map.1 hx
      have hget := hnew (a, k.toUInt16)
        (List.mem_flatMap.2 ⟨(g, k), hg, List.mem_map.2 ⟨a, ha, rfl⟩⟩)
      have hgroup := (mem_groups_of_mem_assigned hmap hg).1
      obtain ⟨m, hm⟩ := exists_slot?_of_mem_accesses (mem_accesses_of_mem_group hgroup ha)
      show (l'.get a.handle).slot? = some k.toUInt16
      rw [hget, Instruction.slot?_withSlot]
      show (b.listing.get a.handle).slot?.map _ = _
      rw [hm]
      rfl
    have hassign' := assign_map (f := Group.renamed l') method' hassign
      (fun g hg => clash?_eq_none fun _ => r.eq_of_mem_slots hg) (fun g hg => r.width_eq hg)
      fun g hg => rfl
    rw [split, splitBy, hlocal, ← groups, r.groups_eq wf hcap, hassign']
    simp only [foldl_assigned, foldl_renumber_of_slot? hslots, bind, Except.bind, pure, Except.pure,
      List.length_map, Nat.lt_irrefl, decide_false, bne_self_eq_false, Bool.or_false]

end Slot

end Unscramble
