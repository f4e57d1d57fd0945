import Unscramble.Proofs.Slot.Grouping

/-! # Splitting slots keeps what loads read

Groups that get a new slot get different ones, none of them an argument's, and the other groups keep
the slot of an argument. So instructions that name the same slot afterwards did so before, and a load
names the slot of every store that supplies it: along each path the last store is the same.

Main definition: `Renumbered`. Main statements: `assign_spec`, `renumbered_split`,
`Renumbered.lastStore?_eq`, `split_keeps_stores`. -/

namespace Unscramble

namespace Instruction

variable {L : Type} {insn : Instruction L} {n slot : UInt16}

/-- An instruction that reads a slot names it. -/
theorem slot?_of_loaded? (h : insn.loaded? = some slot) : insn.slot? = some slot := by
  cases insn with
  | slot op k =>
    rw [loaded?] at h
    split at h
    · exact h
    · cases h
  | increment k amount => exact h
  | _ => cases h

/-- An instruction that writes a slot names it. -/
theorem slot?_of_stored? (h : insn.stored? = some slot) : insn.slot? = some slot := by
  cases insn with
  | slot op k =>
    rw [stored?] at h
    split at h
    · exact h
    · cases h
  | increment k amount => exact h
  | _ => cases h

/-- An instruction on another slot reads that slot. -/
theorem loaded?_withSlot (insn : Instruction L) (n : UInt16) :
    (insn.withSlot n).loaded? = insn.loaded?.map fun _ => n := by
  cases insn with
  | slot op k =>
    rw [withSlot, loaded?, loaded?]
    split <;> rfl
  | _ => rfl

/-- An instruction on another slot writes that slot. -/
theorem stored?_withSlot (insn : Instruction L) (n : UInt16) :
    (insn.withSlot n).stored? = insn.stored?.map fun _ => n := by
  cases insn with
  | slot op k =>
    rw [withSlot, stored?, stored?]
    split <;> rfl
  | _ => rfl

/-- An instruction on the slot it names is the same. -/
theorem withSlot_of_slot? (h : insn.slot? = some n) : insn.withSlot n = insn := by
  cases insn with
  | slot op k => cases h; rfl
  | increment k amount => cases h; rfl
  | _ => rfl

/-- Another slot leaves the targets. -/
@[simp] theorem targets_withSlot (insn : Instruction L) (n : UInt16) :
    (insn.withSlot n).targets = insn.targets := by
  cases insn <;> rfl

/-- Another slot leaves the opcode. -/
@[simp] theorem opcode?_withSlot (insn : Instruction L) (n : UInt16) :
    (insn.withSlot n).opcode? = insn.opcode? := by
  cases insn <;> rfl

end Instruction

namespace Slot

variable {b : Body} {l : Listing}

/-! ### New slots -/

/-- Slots in a row that do not differ are all the same. -/
theorem eq_of_clash?_eq_none {slots : List UInt16} (h : Group.clash? slots = none) {m n : UInt16}
    (hm : m ∈ slots) (hn : n ∈ slots) : m = n := by
  -- The comparison goes from each slot to the next one, so the first is carried through the
  -- induction.
  have hhead : ∀ (s : UInt16) (rest : List UInt16), Group.clash? (s :: rest) = none →
      ∀ k ∈ rest, k = s := by
    intro s rest
    induction rest generalizing s with
    | nil => simp
    | cons t rest ih =>
      intro h k hk
      rw [Group.clash?] at h
      split at h
      · next heq =>
        subst heq
        rcases List.mem_cons.1 hk with rfl | hk
        · rfl
        · exact ih s h k hk
      · cases h
  cases slots with
  | nil => cases hm
  | cons s rest =>
    have hall : ∀ k ∈ s :: rest, k = s := by
      intro k hk
      rcases List.mem_cons.1 hk with rfl | hk
      · rfl
      · exact hhead s rest h k hk
    rw [hall m hm, hall n hn]

/-- The members of a group without a clash name one slot. -/
theorem slot?_eq_of_mem_group {firstLocal : Nat} {g : Group} (hg : g ∈ groups firstLocal b)
    (hclash : Group.clash? g.slots = none) {a c : Access} (ha : a ∈ g.members)
    (hc : c ∈ g.members) : a.insn.slot? = c.insn.slot? := by
  -- every access names a slot, so both slots are in the list of the group
  have hslot : ∀ x ∈ g.members, ∃ n, x.insn.slot? = some n := by
    intro x hx
    obtain ⟨-, hinsn, haccess⟩ := of_mem_accesses (mem_accesses_of_mem_group hg hx)
    rw [accessesSlot, Bool.or_eq_true, Option.isSome_iff_exists,
      Option.isSome_iff_exists] at haccess
    rw [hinsn]
    rcases haccess with ⟨n, hn⟩ | ⟨n, hn⟩
    · exact ⟨n, Instruction.slot?_of_loaded? hn⟩
    · exact ⟨n, Instruction.slot?_of_stored? hn⟩
  obtain ⟨m, hm⟩ := hslot a ha
  obtain ⟨n, hn⟩ := hslot c hc
  have hmg : m ∈ g.slots := List.mem_filterMap.2 ⟨a, ha, hm⟩
  have hng : n ∈ g.slots := List.mem_filterMap.2 ⟨c, hc, hn⟩
  rw [hm, hn, eq_of_clash?_eq_none hclash hmg hng]

/-- A slot number that fits is kept. -/
theorem toNat_toUInt16 {k : Nat} (hk : k < 65536) : k.toUInt16.toNat = k :=
  Nat.mod_eq_of_lt hk

/-- Which groups get a new slot, and which slots these are. -/
theorem assign_spec {method : Method} {next free : Nat} {groups : List Group}
    {assigned : List (Group × Nat)} (h : assign method next groups = .ok (assigned, free)) :
    (∀ g ∈ groups, Group.clash? g.slots = none) ∧
      (assigned.map (·.1)) = (groups.filter fun g => !g.incoming) ∧
      (assigned.map (·.2)).Pairwise (· < ·) ∧ ∀ p ∈ assigned, next ≤ p.2 ∧ p.2 < 65536 := by
  induction groups generalizing next assigned free with
  | nil =>
    cases h
    simp
  | cons g groups ih =>
    rw [assign] at h
    split at h
    · cases h
    · next hclash =>
      split at h
      · -- the group keeps its slot
        next hin =>
        obtain ⟨hclashes, hmap, hpairs, hbounds⟩ := ih h
        refine ⟨?_, ?_, hpairs, hbounds⟩
        · intro g' hg'
          rcases List.mem_cons.1 hg' with rfl | hg'
          · exact hclash
          · exact hclashes g' hg'
        · rw [hmap, List.filter_cons_of_neg (by simp [hin])]
      · next hout =>
        split at h
        · cases h
        · next hfits =>
          -- the group gets the first free slot, and the others get greater ones
          have hwidth : 1 ≤ g.width := by
            rw [Group.width]
            split <;> decide
          cases hrest : assign method (next + g.width) groups with
          | error e => rw [hrest] at h; cases h
          | ok result =>
            obtain ⟨rest, free'⟩ := result
            rw [hrest] at h
            cases h
            obtain ⟨hclashes, hmap, hpairs, hbounds⟩ := ih hrest
            refine ⟨?_, ?_, ?_, ?_⟩
            · intro g' hg'
              rcases List.mem_cons.1 hg' with rfl | hg'
              · exact hclash
              · exact hclashes g' hg'
            · rw [List.map_cons, hmap, List.filter_cons_of_pos (by simp [hout])]
            · rw [List.map_cons, List.pairwise_cons]
              refine ⟨?_, hpairs⟩
              intro slot hslot
              obtain ⟨p, hp, rfl⟩ := List.mem_map.1 hslot
              have hle := (hbounds p hp).1
              omega
            · intro p hp
              rcases List.mem_cons.1 hp with rfl | hp
              · exact ⟨le_refl _, by omega⟩
              · have hle := hbounds p hp
                omega

/-! ### Giving accesses their slots -/

/-- Accesses that get a new slot one after the other, each on a handle of its own. -/
theorem foldl_renumber {pairs : List (Access × UInt16)} {l₀ : Listing}
    (hnodup : (pairs.map fun p => p.1.handle).Nodup)
    (hinsn : ∀ p ∈ pairs, p.1.insn = l₀.get p.1.handle ∧ p.1.handle < l₀.capacity)
    (state : Nat × Listing) (hcap : state.2.capacity = l₀.capacity)
    (hsame : ∀ p ∈ pairs, state.2.get p.1.handle = l₀.get p.1.handle) :
    (pairs.foldl (fun s p => renumber p.2 s p.1) state).2.handles = state.2.handles ∧
      (∀ h, h ∉ (pairs.map fun p => p.1.handle) →
        (pairs.foldl (fun s p => renumber p.2 s p.1) state).2.get h = state.2.get h) ∧
      ∀ p ∈ pairs, (pairs.foldl (fun s p => renumber p.2 s p.1) state).2.get p.1.handle =
        (l₀.get p.1.handle).withSlot p.2 := by
  induction pairs generalizing state with
  | nil => exact ⟨rfl, fun _ _ => rfl, by simp⟩
  | cons p pairs ih =>
    rw [List.map_cons, List.nodup_cons] at hnodup
    obtain ⟨hp, hlt⟩ := hinsn p (by simp)
    -- one access
    have hself : (renumber p.2 state p.1).2.get p.1.handle = (l₀.get p.1.handle).withSlot p.2 := by
      rw [renumber]
      split
      · next hslot =>
        rw [hp] at hslot
        rw [hsame p (by simp), Instruction.withSlot_of_slot? hslot]
      · rw [Listing.get_modify_self (by rw [hcap]; exact hlt), hsame p (by simp)]
    have hother : ∀ h, h ≠ p.1.handle → (renumber p.2 state p.1).2.get h = state.2.get h := by
      intro h hne
      rw [renumber]
      split
      · rfl
      · exact Listing.get_modify_of_ne (Ne.symm hne) _
    have hstate : (renumber p.2 state p.1).2.handles = state.2.handles ∧
        (renumber p.2 state p.1).2.capacity = state.2.capacity := by
      rw [renumber]
      split
      · exact ⟨rfl, rfl⟩
      · exact ⟨rfl, Listing.capacity_modify _ _ _⟩
    obtain ⟨hhandles, hrest, hpairs⟩ := ih hnodup.2 (fun q hq => hinsn q (by simp [hq]))
      (renumber p.2 state p.1) (hstate.2.trans hcap) (by
        intro q hq
        rw [hother q.1.handle, hsame q (by simp [hq])]
        intro heq
        exact hnodup.1 (List.mem_map.2 ⟨q, hq, heq⟩))
    rw [List.foldl_cons]
    refine ⟨hhandles.trans hstate.1, ?_, ?_⟩
    · intro h hm
      simp only [List.map_cons, List.mem_cons, not_or] at hm
      rw [hrest h hm.2, hother h hm.1]
    · intro q hq
      rcases List.mem_cons.1 hq with rfl | hq
      · rw [hrest _ hnodup.1, hself]
      · exact hpairs q hq

/-- How a body's accesses are given slots: a group that is marked as incoming keeps its slot, and the
others have slots of their own, none of them an argument's. -/
structure Renumbered (firstLocal : Nat) (b : Body) (l' : Listing) (new : Group → UInt16) :
    Prop where
  /-- The sequence is the same. -/
  handles : l'.handles = b.listing.handles
  /-- What is in no group is unchanged. -/
  others : ∀ h, (∀ g ∈ groups firstLocal b, ∀ a ∈ g.members, a.handle ≠ h) →
    l'.get h = b.listing.get h
  /-- The members of a group name its slot. -/
  members : ∀ g ∈ groups firstLocal b, ∀ a ∈ g.members,
    l'.get a.handle = (b.listing.get a.handle).withSlot (new g)
  /-- The members of a group named one slot. -/
  one : ∀ g ∈ groups firstLocal b, ∀ a ∈ g.members, ∀ c ∈ g.members, a.insn.slot? = c.insn.slot?
  /-- An incoming group keeps its slot. -/
  kept : ∀ g ∈ groups firstLocal b, g.incoming = true →
    ∀ a ∈ g.members, a.insn.slot? = some (new g)
  /-- A new slot is no argument's. -/
  fresh : ∀ g ∈ groups firstLocal b, g.incoming = false → firstLocal ≤ (new g).toNat
  /-- New slots are different. -/
  different : ∀ g ∈ groups firstLocal b, ∀ g' ∈ groups firstLocal b, g.incoming = false →
    g'.incoming = false → new g = new g' → g = g'

/-- The accesses that get a new slot, each with it. -/
def pairsOf (assigned : List (Group × Nat)) : List (Access × UInt16) :=
  assigned.flatMap fun p => p.1.members.map (·, p.2.toUInt16)

/-- Giving slots group by group is giving them access by access. -/
theorem foldl_assigned (assigned : List (Group × Nat)) (state : Nat × Listing) :
    assigned.foldl (fun state (g, slot) => g.members.foldl (renumber slot.toUInt16) state) state =
      (pairsOf assigned).foldl (fun s p => renumber p.2 s p.1) state := by
  rw [pairsOf, List.foldl_flatMap]
  congr 1
  funext state p
  rw [List.foldl_map]

/-- No handle gets two new slots. -/
theorem nodup_map_handle_pairsOf {firstLocal : Nat} (wf : b.listing.WellFormed)
    {assigned : List (Group × Nat)}
    (hmap : assigned.map (·.1) = (groups firstLocal b).filter fun g => !g.incoming) :
    ((pairsOf assigned).map fun p => p.1.handle).Nodup := by
  have heq : ((pairsOf assigned).map fun p => p.1.handle) =
      (assigned.map (·.1)).flatMap fun g => g.members.map Access.handle := by
    rw [pairsOf, List.map_flatMap, List.flatMap_map]
    congr 1
    funext p
    rw [List.map_map]
    rfl
  obtain ⟨hinner, houter⟩ := List.nodup_flatMap.1 (nodup_flatMap_groups firstLocal wf)
  rw [heq, hmap, List.nodup_flatMap]
  exact ⟨fun g hg => hinner g (List.mem_of_mem_filter hg), houter.filter _⟩

/-- The groups that get a new slot are groups of the body that are not marked as incoming. -/
theorem mem_groups_of_mem_assigned {firstLocal : Nat} {assigned : List (Group × Nat)}
    (hmap : assigned.map (·.1) = (groups firstLocal b).filter fun g => !g.incoming)
    {p : Group × Nat} (hp : p ∈ assigned) :
    p.1 ∈ groups firstLocal b ∧ p.1.incoming = false := by
  have hfilter : p.1 ∈ (groups firstLocal b).filter fun g => !g.incoming := by
    rw [← hmap]
    exact List.mem_map_of_mem hp
  exact ⟨List.mem_of_mem_filter hfilter, by simpa using (List.mem_filter.1 hfilter).2⟩

/-- What gets a new slot is a linked instruction. -/
theorem insn_of_mem_pairsOf {firstLocal : Nat} (wf : b.listing.WellFormed)
    {assigned : List (Group × Nat)}
    (hmap : assigned.map (·.1) = (groups firstLocal b).filter fun g => !g.incoming)
    {p : Access × UInt16} (hp : p ∈ pairsOf assigned) :
    p.1.insn = b.listing.get p.1.handle ∧ p.1.handle < b.listing.capacity := by
  obtain ⟨q, hq, hp⟩ := List.mem_flatMap.1 hp
  obtain ⟨a, ha, rfl⟩ := List.mem_map.1 hp
  have hgroup := (mem_groups_of_mem_assigned hmap hq).1
  obtain ⟨hget, hinsn, -⟩ := of_mem_accesses (mem_accesses_of_mem_group hgroup ha)
  exact ⟨hinsn, wf.lt_capacity _ (List.mem_of_getElem? hget)⟩

/-- The slot of each group: the one that it comes with, or the one that it is assigned. -/
theorem exists_newSlots {firstLocal : Nat} {assigned : List (Group × Nat)}
    (hmap : assigned.map (·.1) = (groups firstLocal b).filter fun g => !g.incoming)
    (hone : ∀ g ∈ groups firstLocal b, ∀ a ∈ g.members, ∀ c ∈ g.members,
      a.insn.slot? = c.insn.slot?) :
    ∃ new : Group → UInt16, ∀ g ∈ groups firstLocal b,
      (g.incoming = true → ∀ a ∈ g.members, a.insn.slot? = some (new g)) ∧
        (g.incoming = false → ∃ k, (g, k) ∈ assigned ∧ new g = k.toUInt16) := by
  have hex : ∀ g : Group, ∃ slot : UInt16, g ∈ groups firstLocal b →
      (g.incoming = true → ∀ a ∈ g.members, a.insn.slot? = some slot) ∧
        (g.incoming = false → ∃ k, (g, k) ∈ assigned ∧ slot = k.toUInt16) := by
    intro g
    by_cases hg : g ∈ groups firstLocal b
    · cases hin : g.incoming with
      | true =>
        obtain ⟨a, ha, slot, hslot, -⟩ := exists_readsArgument hg hin
        refine ⟨slot, fun _ => ⟨fun _ c hc => ?_, by simp⟩⟩
        rw [hone g hg c hc a ha, Instruction.slot?_of_loaded? hslot]
      | false =>
        have hfilter : g ∈ assigned.map (·.1) := by
          rw [hmap]
          exact List.mem_filter.2 ⟨hg, by simp [hin]⟩
        obtain ⟨⟨g', k⟩, hp, rfl⟩ := List.mem_map.1 hfilter
        exact ⟨k.toUInt16, fun _ => ⟨by simp, fun _ => ⟨k, hp, rfl⟩⟩⟩
    · exact ⟨0, fun h => absurd h hg⟩
  choose new hnew using hex
  exact ⟨new, hnew⟩

/-- A handle that gets a new slot is a member of a group that does. -/
theorem exists_group_of_mem_pairsOf {firstLocal : Nat} {assigned : List (Group × Nat)}
    (hmap : assigned.map (·.1) = (groups firstLocal b).filter fun g => !g.incoming) {h : Handle}
    (hh : h ∈ (pairsOf assigned).map fun p => p.1.handle) :
    ∃ g ∈ groups firstLocal b, g.incoming = false ∧ ∃ a ∈ g.members, a.handle = h := by
  obtain ⟨p, hp, rfl⟩ := List.mem_map.1 hh
  obtain ⟨q, hq, hp⟩ := List.mem_flatMap.1 hp
  obtain ⟨a, ha, rfl⟩ := List.mem_map.1 hp
  obtain ⟨hgroup, hout⟩ := mem_groups_of_mem_assigned hmap hq
  exact ⟨q.1, hgroup, hout, a, ha, rfl⟩

/-- The slots that a split gives. -/
theorem renumbered_foldl {method : Method} (wf : b.listing.WellFormed)
    {assigned : List (Group × Nat)} {free : Nat}
    (hassign : assign method method.firstLocal (groups method.firstLocal b) = .ok (assigned, free)) :
    ∃ new, Renumbered method.firstLocal b
      ((pairsOf assigned).foldl (fun s p => renumber p.2 s p.1) (0, b.listing)).2 new := by
  obtain ⟨hclash, hmap, hpairs, hbounds⟩ := assign_spec hassign
  have hone : ∀ g ∈ groups method.firstLocal b, ∀ a ∈ g.members, ∀ c ∈ g.members,
      a.insn.slot? = c.insn.slot? :=
    fun g hg a ha c hc => slot?_eq_of_mem_group hg (hclash g hg) ha hc
  obtain ⟨new, hnew⟩ := exists_newSlots hmap hone
  have hnodup := nodup_map_handle_pairsOf wf hmap
  obtain ⟨hhandles, hothers, hmembers⟩ :=
    foldl_renumber hnodup (fun _ => insn_of_mem_pairsOf wf hmap) (0, b.listing) rfl fun _ _ => rfl
  refine ⟨new, hhandles, ?_, ?_, hone, fun g hg => (hnew g hg).1, ?_, ?_⟩
  · intro h hnone
    refine hothers h ?_
    intro hh
    obtain ⟨g, hg, -, a, ha, rfl⟩ := exists_group_of_mem_pairsOf hmap hh
    exact hnone g hg a ha rfl
  · intro g hg a ha
    cases hin : g.incoming with
    | true =>
      have hslot := (hnew g hg).1 hin a ha
      rw [(of_mem_accesses (mem_accesses_of_mem_group hg ha)).2.1] at hslot
      rw [Instruction.withSlot_of_slot? hslot]
      refine hothers a.handle ?_
      intro hh
      obtain ⟨g', hg', hout, c, hc, heq⟩ := exists_group_of_mem_pairsOf hmap hh
      rw [group_unique wf hg' hg hc ha heq, hin] at hout
      cases hout
    | false =>
      obtain ⟨k, hk, hslot⟩ := (hnew g hg).2 hin
      rw [hslot]
      exact hmembers (a, k.toUInt16)
        (List.mem_flatMap.2 ⟨(g, k), hk, List.mem_map.2 ⟨a, ha, rfl⟩⟩)
  · intro g hg hout
    obtain ⟨k, hk, hslot⟩ := (hnew g hg).2 hout
    obtain ⟨hle, hlt⟩ := hbounds _ hk
    rw [hslot, toNat_toUInt16 hlt]
    exact hle
  · intro g hg g' hg' hout hout' heq
    obtain ⟨k, hk, hslot⟩ := (hnew g hg).2 hout
    obtain ⟨k', hk', hslot'⟩ := (hnew g' hg').2 hout'
    have hkk : k = k' := by
      have hnat := congrArg UInt16.toNat heq
      rw [hslot, hslot', toNat_toUInt16 (hbounds _ hk).2, toNat_toUInt16 (hbounds _ hk').2] at hnat
      exact hnat
    have hslots : (assigned.map (·.2)).Nodup := hpairs.imp Nat.ne_of_lt
    have hpair := List.inj_on_of_nodup_map hslots hk hk' hkk
    cases hpair
    rfl

/-! ### Loads and their stores -/

namespace Renumbered

variable {firstLocal : Nat} {l' : Listing} {new : Group → UInt16} {g g' : Group} {a a' : Access}

/-- Accesses that name the same slot named the same slot. -/
theorem slot?_eq (r : Renumbered firstLocal b l' new) (hg : g ∈ groups firstLocal b)
    (hg' : g' ∈ groups firstLocal b) (ha : a ∈ g.members) (ha' : a' ∈ g'.members)
    (heq : new g = new g') : a.insn.slot? = a'.insn.slot? := by
  -- the slot of an incoming group is an argument's, and no new slot is
  have harg : ∀ g ∈ groups firstLocal b, g.incoming = true → (new g).toNat < firstLocal := by
    intro g hg hin
    obtain ⟨c, hc, slot, hslot, hlt, -⟩ := exists_readsArgument hg hin
    have hkept := r.kept g hg hin c hc
    rw [Instruction.slot?_of_loaded? hslot] at hkept
    cases hkept
    exact hlt
  cases hin : g.incoming with
  | true =>
    cases hin' : g'.incoming with
    | true => rw [r.kept g hg hin a ha, r.kept g' hg' hin' a' ha', heq]
    | false =>
      have hlt := harg g hg hin
      have hle := r.fresh g' hg' hin'
      rw [heq] at hlt
      omega
  | false =>
    cases hin' : g'.incoming with
    | true =>
      have hlt := harg g' hg' hin'
      have hle := r.fresh g hg hin
      rw [heq] at hle
      omega
    | false =>
      cases r.different g hg g' hg' hin hin' heq
      exact r.one g hg a ha a' ha'

/-- An instruction that writes the new slot of a group wrote the slot of the group's members. -/
theorem stored?_of_stored? (r : Renumbered firstLocal b l' new) (hg : g ∈ groups firstLocal b)
    (ha : a ∈ g.members) {slot : UInt16} (hslot : a.insn.slot? = some slot) {x : Handle}
    (hx : x ∈ b.listing.handles) (hstored : (l'.get x).stored? = some (new g)) :
    (b.listing.get x).stored? = some slot := by
  by_cases hgroup : ∃ g' ∈ groups firstLocal b, ∃ c ∈ g'.members, c.handle = x
  · obtain ⟨g', hg', c, hc, rfl⟩ := hgroup
    rw [r.members g' hg' c hc, Instruction.stored?_withSlot] at hstored
    obtain ⟨old, hold, hnew⟩ := Option.map_eq_some_iff.1 hstored
    have hslots := r.slot?_eq hg' hg hc ha hnew
    rw [(of_mem_accesses (mem_accesses_of_mem_group hg' hc)).2.1,
      Instruction.slot?_of_stored? hold, hslot] at hslots
    rw [hold, hslots]
  · -- every instruction that writes a slot is in a group
    exfalso
    have hsame := r.others x fun g' hg' c hc heq => hgroup ⟨g', hg', c, hc, heq⟩
    rw [hsame] at hstored
    obtain ⟨i, hi⟩ := List.mem_iff_getElem?.1 hx
    have haccess : accessesSlot (b.listing.get x) = true := by
      rw [accessesSlot, hstored]
      simp
    obtain ⟨g', hg', hmem, -⟩ := exists_group firstLocal (mem_accesses hi haccess)
    exact hgroup ⟨g', hg', _, hmem, rfl⟩

/-- Along every path to a load the last store to the load's slot is the same, and a load that reads
an argument names the same slot. -/
theorem lastStore?_eq (r : Renumbered firstLocal b l' new) (wf : b.listing.WellFormed)
    {passed : List Handle} {h : Handle} (path : Path b passed h) {slot : UInt16}
    (hload : (b.listing.get h).loaded? = some slot) :
    ∃ slot', (l'.get h).loaded? = some slot' ∧
      lastStore? l' slot' passed = lastStore? b.listing slot passed ∧
      (lastStore? b.listing slot passed = none → slot.toNat < firstLocal → slot' = slot) := by
  obtain ⟨j, hj⟩ := List.mem_iff_getElem?.1 path.linked
  have haccess : accessesSlot (b.listing.get h) = true := by
    rw [accessesSlot, hload]
    rfl
  have ha := mem_accesses hj haccess
  obtain ⟨g, hg, hmem, hsupplies, hreads⟩ := exists_group firstLocal ha
  have hslot := Instruction.slot?_of_loaded? hload
  refine ⟨new g, ?_, ?_, ?_⟩
  · rw [r.members g hg _ hmem, Instruction.loaded?_withSlot, hload]
    rfl
  · have hback : ∀ x ∈ passed, (l'.get x).stored? = some (new g) →
        (b.listing.get x).stored? = some slot :=
      fun x hx => r.stored?_of_stored? hg hmem hslot (path.passed_linked x hx)
    cases hlast : lastStore? b.listing slot passed with
    | none =>
      rw [lastStore?, List.find?_eq_none] at hlast ⊢
      intro x hx hstored
      apply hlast x hx
      simpa using hback x hx (by simpa using hstored)
    | some s =>
      -- the last store supplies the load, so it is in the load's group
      have hfind := hlast
      rw [lastStore?, List.find?_eq_some_iff_append] at hfind
      obtain ⟨hstored, front, back, hs, hfront⟩ := hfind
      have hstored : (b.listing.get s).stored? = some slot := by simpa using hstored
      obtain ⟨i, hi⟩ := List.mem_iff_getElem?.1 (path.passed_linked s (by rw [hs]; simp))
      have hmarked := isMarked_sources_of_path wf path hj hlast hi
      have hstore := mem_accesses hi (by rw [accessesSlot, hstored]; simp)
      have hsmem := hsupplies _ hstore ⟨slot, hload, hstored, hmarked⟩
      rw [lastStore?, List.find?_eq_some_iff_append]
      refine ⟨?_, front, back, hs, ?_⟩
      · rw [r.members g hg _ hsmem, Instruction.stored?_withSlot, hstored]
        simp
      · intro x hx
        have hnot := hfront x hx
        simp only [Bool.not_eq_true', beq_eq_false_iff_ne, ne_eq] at hnot ⊢
        intro hx'
        exact hnot (hback x (by rw [hs]; simp [hx]) hx')
  · intro hnone hlt
    have hmarked := isMarked_sources_entry wf path hj hnone
    have hkept := r.kept g hg (hreads ⟨slot, hload, hlt, hmarked⟩) _ hmem
    rw [hslot] at hkept
    cases hkept
    rfl

/-- An instruction keeps what it is, and the slot it names at most changes. -/
theorem get_cases (r : Renumbered firstLocal b l' new) (x : Handle) :
    l'.get x = b.listing.get x ∨ ∃ n, l'.get x = (b.listing.get x).withSlot n := by
  by_cases hgroup : ∃ g ∈ groups firstLocal b, ∃ c ∈ g.members, c.handle = x
  · obtain ⟨g, hg, c, hc, rfl⟩ := hgroup
    exact .inr ⟨new g, r.members g hg c hc⟩
  · exact .inl (r.others x fun g hg c hc heq => hgroup ⟨g, hg, c, hc, heq⟩)

/-- Instructions keep their opcodes. -/
theorem opcode?_eq (r : Renumbered firstLocal b l' new) (x : Handle) :
    (l'.get x).opcode? = (b.listing.get x).opcode? := by
  rcases r.get_cases x with h | ⟨n, h⟩ <;> rw [h]
  exact Instruction.opcode?_withSlot _ n

/-- Instructions keep their targets. -/
theorem targets_eq (r : Renumbered firstLocal b l' new) (x : Handle) :
    (l'.get x).targets = (b.listing.get x).targets := by
  rcases r.get_cases x with h | ⟨n, h⟩ <;> rw [h]
  exact Instruction.targets_withSlot _ n

/-- The next instruction stays the same. -/
theorem next?_eq (r : Renumbered firstLocal b l' new) (x : Handle) :
    l'.next? x = b.listing.next? x :=
  congrArg List.head? (congrArg (fun hs => (hs.dropWhile (· != x)).drop 1) r.handles)

/-- The first instruction stays the same. -/
theorem first?_eq (r : Renumbered firstLocal b l' new) : l'.first? = b.listing.first? := by
  rw [Listing.first?_eq_head?, Listing.first?_eq_head?, r.handles]

/-- Control goes where it went. -/
theorem step (r : Renumbered firstLocal b l' new) {x n : Handle} {maxLocals : UInt16}
    (step : Step b x n) : Step { b with listing := l', maxLocals } x n := by
  have honward : ∀ x, l'.onward x = b.listing.onward x := by
    intro x
    rw [Listing.onward, Listing.onward, r.handles]
  cases step with
  | pass running next =>
    refine .pass ?_ ((r.next?_eq x).trans next)
    rw [← running]
    exact congrArg (Option.any Opcode.isTerminal) (r.opcode?_eq x)
  | target mem linked =>
    rw [← r.targets_eq x] at mem
    exact .target mem (r.handles.symm ▸ linked)
  | caught guard mem protects handler linked =>
    refine .caught guard mem ?_ handler (r.handles.symm ▸ linked)
    change Protects l' guard x
    rw [Protects, honward, honward]
    exact protects

/-- Paths do not change. -/
theorem path (r : Renumbered firstLocal b l' new) {passed : List Handle} {h : Handle}
    {maxLocals : UInt16} (path : Path b passed h) :
    Path { b with listing := l', maxLocals } passed h := by
  induction path with
  | entry first => exact .entry (r.first?_eq.trans first)
  | step _ step ih => exact .step ih (r.step step)

end Renumbered

/-- What a split returns. -/
theorem renumbered_split {method : Method} {b' : Body} {report : Split}
    (wf : b.listing.WellFormed) (h : split method b = .ok (report, b')) :
    ∃ new, Renumbered method.firstLocal b b'.listing new ∧
      b' = { b with listing := b'.listing, maxLocals := b'.maxLocals } := by
  rw [split, splitBy] at h
  cases hassign : assign method method.firstLocal (groups method.firstLocal b) with
  | error e => rw [hassign] at h; cases h
  | ok result =>
    obtain ⟨assigned, free⟩ := result
    rw [hassign] at h
    obtain ⟨new, r⟩ := renumbered_foldl wf hassign
    rw [← foldl_assigned] at r
    cases h
    exact ⟨new, r, rfl⟩

/-- Splitting slots keeps which store each load reads from along every path, and the slot of a load
that reads an argument, whatever keeps the sets of accesses. -/
theorem split_keeps_stores {U : UnionFind} (hU : U.Lawful) (method : Method) (b b' : Body)
    (report : Split) (wf : b.listing.WellFormed) (hsplit : splitBy U method b = .ok (report, b'))
    (passed : List Handle) (h : Handle) (path : Path b passed h) (slot : UInt16)
    (hload : (b.listing.get h).loaded? = some slot) :
    Path b' passed h ∧ ∃ slot', (b'.listing.get h).loaded? = some slot' ∧
      lastStore? b'.listing slot' passed = lastStore? b.listing slot passed ∧
      (lastStore? b.listing slot passed = none → slot.toNat < method.firstLocal → slot' = slot) := by
  rw [splitBy_eq hU] at hsplit
  obtain ⟨new, r, heq⟩ := renumbered_split wf hsplit
  refine ⟨?_, r.lastStore?_eq wf path hload⟩
  rw [heq]
  exact r.path path

/-- A method with one argument. -/
def reusingMethod : Method where
  owner := "A"
  name := "f"
  descriptor := "(I)V"
  access := .staticFlag

/-- A body that reads its argument and then uses the argument's slot for a counter in a loop, with
the counter in a given slot. -/
def reusingBody (counter maxLocals : UInt16) : Body where
  listing :=
    { nodes := #[⟨.slot .iload 0, none⟩, ⟨.slot .istore counter, none⟩, ⟨.label, none⟩,
        ⟨.increment counter 1, none⟩, ⟨.slot .iload counter, none⟩, ⟨.jump .ifeq 2, none⟩,
        ⟨.plain .returnVoid, none⟩]
      order := #[0, 1, 2, 3, 4, 5, 6] }
  maxLocals

/-- In the second round of the loop, the counter is read from where the first round left it. -/
theorem split_keeps_stores_loop :
    split reusingMethod (reusingBody 0 1) = .ok (⟨1, 3, 2, true⟩, reusingBody 1 2) ∧
      lastStore? (reusingBody 0 1).listing 0 [2, 5, 4, 3, 2, 1, 0] = some 3 ∧
      Path (reusingBody 1 2) [2, 5, 4, 3, 2, 1, 0] 3 ∧
      ∃ slot, ((reusingBody 1 2).listing.get 3).loaded? = some slot ∧
        lastStore? (reusingBody 1 2).listing slot [2, 5, 4, 3, 2, 1, 0] = some 3 := by
  have hsplit : split reusingMethod (reusingBody 0 1) =
      .ok (⟨1, 3, 2, true⟩, reusingBody 1 2) := by cbv
  have wf : (reusingBody 0 1).listing.WellFormed := ⟨by decide, by decide⟩
  have hround : Path (reusingBody 0 1) [4, 3, 2, 1, 0] 5 :=
    .step (.step (.step (.step (.step (.entry rfl) (.pass rfl rfl)) (.pass rfl rfl)) (.pass rfl rfl))
      (.pass rfl rfl)) (.pass rfl rfl)
  have hpath : Path (reusingBody 0 1) [2, 5, 4, 3, 2, 1, 0] 3 :=
    .step (.step hround (.target (by decide) (by decide))) (.pass rfl rfl)
  obtain ⟨hpath', slot, hload, hlast, -⟩ := split_keeps_stores Partition.lawful_unionFind
    reusingMethod (reusingBody 0 1) (reusingBody 1 2) ⟨1, 3, 2, true⟩ wf hsplit
    [2, 5, 4, 3, 2, 1, 0] 3 hpath 0 rfl
  exact ⟨hsplit, rfl, hpath', slot, hload, hlast⟩

end Slot

end Unscramble
