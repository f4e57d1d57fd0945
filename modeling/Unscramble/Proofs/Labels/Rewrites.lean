import Unscramble.Naming.Renaming
import Unscramble.Proofs.Flow.Normal
import Unscramble.Proofs.Labels.Idioms
import Unscramble.Proofs.Binary.Pool
import Unscramble.Slot.Split

/-! # Rewrites of whole bodies

Laying out blocks, taking out dead code and unused labels, splitting slots and renaming keep the
labels and the ranges of a body. A label may go only if neither an instruction that stays nor a range
refers to it.

Main statements: `Intact.restrict`, `targetsLinked_sortBlocks_of_linked`, `becomes_normalize`,
`becomes_split`, `becomes_onBody`. -/

namespace Unscramble

open scoped List

/-! ### Taking handles out -/

/-- A body stays intact, with its ranges, when handles are taken out that neither a range nor an
instruction which stays refers to. -/
theorem Body.Intact.restrict {b : Body} (hb : b.Intact) {keep : Handle → Bool}
    (hguards : ∀ g ∈ b.guards, ∀ t ∈ g.labels, keep t = true)
    (htargets : ∀ h ∈ b.listing.handles, keep h = true → ∀ t ∈ (b.listing.get h).targets,
      keep t = true) :
    Body.Intact { b with listing := b.listing.restrict keep } ∧
      b.Descends { b with listing := b.listing.restrict keep } := by
  have hlinked : ∀ t, t ∈ b.listing.handles ∧ (b.listing.get t).isLabel = true → keep t = true →
      t ∈ (b.listing.restrict keep).handles ∧ ((b.listing.restrict keep).get t).isLabel = true := by
    rintro t ⟨hm, hl⟩ hk
    rw [Listing.handles_restrict]
    exact ⟨List.mem_filter.2 ⟨hm, hk⟩, hl⟩
  refine ⟨⟨hb.wf.restrict keep, ?_, ?_⟩, b.guards, List.Sublist.refl _, List.forall₂_same.2 ?_⟩
  · intro h hm t ht
    rw [Listing.handles_restrict, List.mem_filter] at hm
    exact hlinked t (hb.labels.targets h hm.1 t ht) (htargets h hm.1 hm.2 t ht)
  · intro g hg t ht
    exact hlinked t (hb.labels.guards g hg t ht) (hguards g hg t ht)
  · intro g hg
    refine ⟨rfl, rfl, fun hbefore => ?_⟩
    change g.stop ∈ (b.listing.restrict keep).after g.start
    rw [Listing.after_restrict (hguards g hg _ (by simp [Guard.labels])), List.mem_filter]
    exact ⟨hbefore, hguards g hg _ (by simp [Guard.labels])⟩

namespace Flow

variable {l : Listing} {b : Body}

/-- Removing unreachable code leaves a body that has become of what it was. -/
theorem becomes_removeUnreachable (b : Body) : b.Becomes (removeUnreachable b).2 := by
  intro hb
  have hlive : ∀ h, isLive b h = true ↔ b.Reaches h ∨ h ∈ b.guardLabels ∧
      h < b.listing.capacity := by
    intro h
    rw [isLive, ← isMarked_liveHandles_iff hb.wf hb.labels, ← isMarked_mark]
    cases isMarked (liveHandles b) h <;> simp
  rw [removeUnreachable_snd]
  refine hb.restrict ?_ ?_
  · intro g hg t ht
    obtain ⟨hm, -⟩ := hb.labels.guards g hg t ht
    exact (hlive t).2 (.inr ⟨List.mem_flatMap.2 ⟨g, hg, ht⟩, hb.wf.lt_capacity t hm⟩)
  · intro h _ hk t ht
    rcases (hlive h).1 hk with hreaches | ⟨hguard, -⟩
    · exact (hlive t).2 (.inl (.target hreaches ht))
    · -- the label of a range leads nowhere
      obtain ⟨g, hg, hh⟩ := List.mem_flatMap.1 hguard
      obtain ⟨-, hlabel⟩ := hb.labels.guards g hg h hh
      cases hget : b.listing.get h with
      | label =>
        rw [hget] at ht
        cases ht
      | _ =>
        rw [hget] at hlabel
        cases hlabel

/-! ### Laying out blocks -/

/-- A block that a block of the order leads to is in the order. -/
theorem mem_order_of_successor {n m : Nat} (hn : n ∈ (BlockGraph.ofListing l).order)
    (hm : m ∈ (BlockGraph.ofListing l).successors[n]?.getD [])
    (hlt : m < (BlockGraph.ofListing l).blocks.size) : m ∈ (BlockGraph.ofListing l).order := by
  have hsize : 0 < (BlockGraph.ofListing l).blocks.size := by
    rw [size_blocks_ofListing]
    exact Nat.succ_pos _
  obtain ⟨-, -, hclosed⟩ := (searching_root
    (fun n => (BlockGraph.ofListing l).successors[n]?.getD []) hsize).finish_spec
  rw [size_mark] at hclosed
  exact hclosed n hn m hm hlt

/-- A label whose block is in the order is laid out. -/
theorem mem_handles_sortBlocks_of_order (wf : l.WellFormed) {t : Label} (hm : t ∈ l.handles)
    (hlabel : (l.get t).isLabel = true)
    (horder : numberOf l (some t) ∈ (BlockGraph.ofListing l).order) :
    t ∈ (sortBlocks l).handles := by
  obtain ⟨b, hb, htb⟩ := exists_mem_blocksOf hm
  rw [← label_eq_of_isLabel hb htb hlabel] at horder
  have hplaced : numberOf l b.label ∈ placed l := by
    refine List.mem_filter.2 ⟨horder, ?_⟩
    rw [block_numberOf wf hb]
    cases hb' : b.handles with
    | nil =>
      rw [hb'] at htb
      cases htb
    | cons x xs => rfl
  rw [← map_fst_withNext (placed l), ← layOut_eq] at hplaced
  obtain ⟨place, hplace, hnumber⟩ := List.mem_map.1 hplaced
  obtain ⟨front, back, hs⟩ := List.append_of_mem hplace
  obtain ⟨l₁, done, jumps, -, heq, -⟩ :=
    exists_laid_append (Keeps.refl l) hs (lt_capacity_of_mem_layOut wf)
  rw [sortBlocks_eq]
  change t ∈ (laid (BlockGraph.ofListing l) l (layOut (BlockGraph.ofListing l))).2
  rw [heq, hnumber, block_numberOf wf hb]
  simp [htb]

/-- Laying out blocks leaves all targets linked. -/
theorem targetsLinked_sortBlocks_of_linked (wf : l.WellFormed) (hl : l.TargetsLinked) :
    (sortBlocks l).TargetsLinked := by
  have hkeeps := keeps_sortBlocks l
  -- a label is laid out if a block that is laid out leads to it
  have hnext : ∀ n ∈ placed l, ∀ t ∈ l.handles, (l.get t).isLabel = true →
      numberOf l (some t) ∈ (BlockGraph.ofListing l).successors[n]?.getD [] →
      t ∈ (sortBlocks l).handles ∧ ((sortBlocks l).get t).isLabel = true := by
    intro n hn t hm hlabel hsuccessor
    have hlt := numberOf_lt (mem_mentionedLabels hm hlabel)
    have horder := mem_order_of_successor (List.mem_of_mem_filter hn) hsuccessor hlt
    rw [hkeeps.same t (wf.lt_capacity t hm)]
    exact ⟨mem_handles_sortBlocks_of_order wf hm hlabel horder, hlabel⟩
  have hplaced : ∀ p ∈ layOut (BlockGraph.ofListing l), p.1 ∈ placed l := by
    intro p hp
    rw [← map_fst_withNext (placed l)]
    exact List.mem_map_of_mem hp
  intro h hm t ht
  rw [sortBlocks_eq] at hm
  rcases mem_laid (Keeps.refl l) (lt_capacity_of_mem_layOut wf) hm with
    ⟨p, hp, hm⟩ | ⟨-, -, p, hp, label, hd, hget⟩
  · obtain ⟨b, hb, hnumber, hblock⟩ := exists_of_mem_placed wf (hplaced p hp)
    rw [hblock] at hm
    have hlinked := mem_handles_of_mem_block hb hm
    rw [hkeeps.same h (wf.lt_capacity h hlinked)] at ht
    obtain ⟨hmt, hlabel⟩ := hl h hlinked t ht
    refine hnext p.1 (hplaced p hp) t hmt hlabel ?_
    rw [← hnumber]
    exact numberOf_target_mem_successors hb hm ht
  · have hjump : (sortBlocks l).get h = .jump .goto label := by
      rw [sortBlocks_eq]
      exact hget
    rw [hjump] at ht
    obtain rfl := List.mem_singleton.1 ht
    obtain ⟨hml, hlabel, hsuccessor⟩ := exists_of_detour? wf hd
    obtain ⟨b, hb, hnumber, -⟩ := exists_of_mem_placed wf (hplaced p hp)
    refine hnext p.1 (hplaced p hp) t hml hlabel (hsuccessor ?_)
    rw [← hnumber]
    exact numberOf_block_lt hb

/-! ### The normalizer -/

/-- Jumps to the next instruction are no labels. -/
theorem becomes_removeRedundantGotos (b : Body) :
    b.Becomes { b with listing := (removeRedundantGotos b.listing).2 } := by
  intro hb
  obtain ⟨keep, heq, -, hgoto⟩ := exists_pruned_removeRedundantGotos hb.wf hb.labels.targets
  have hlabel : ∀ t, (b.listing.get t).isLabel = true → keep t = true :=
    fun t => keep_of_isLabel hgoto
  rw [heq]
  exact hb.restrict (fun g hg t ht => hlabel t (hb.labels.guards g hg t ht).2)
    fun h hm _ t ht => hlabel t (hb.labels.targets h hm t ht).2

/-- Removing unused labels leaves a body that has become of what it was. -/
theorem becomes_removeUnusedLabels (b : Body) : b.Becomes (removeUnusedLabels b).2 := by
  intro hb
  rw [removeUnusedLabels_snd]
  refine hb.restrict ?_ ?_
  · intro g hg t ht
    refine isUsed_of_mem hb.wf (hb.labels.guards g hg t ht).1 (List.mem_append_left _ ?_)
    exact List.mem_flatMap.2 ⟨g, hg, ht⟩
  · intro h hm _ t ht
    refine isUsed_of_mem hb.wf (hb.labels.targets h hm t ht).1 (List.mem_append_right _ ?_)
    exact List.mem_flatMap.2 ⟨h, hm, ht⟩

/-- A body without ranges can be laid out anew. -/
theorem becomes_sorted (hguards : b.guards = []) : b.Becomes (sorted b) := by
  intro hb
  obtain ⟨hlive, -⟩ := becomes_removeUnreachable b hb
  rw [removeUnreachable_snd] at hlive
  have hnone : (sorted b).guards = [] := hguards
  refine ⟨⟨wellFormed_sortBlocks hlive.wf,
    targetsLinked_sortBlocks_of_linked hlive.wf hlive.labels.targets, ?_⟩, [], List.nil_sublist _, ?_⟩
  · rw [hnone]
    simp
  · rw [hnone]
    exact .nil

/-- Normalizing leaves a body that has become of what it was. -/
theorem becomes_normalize (b : Body) : b.Becomes (normalize b).2 := by
  have htidied : ∀ b : Body, b.Becomes (tidied b) := fun b =>
    (becomes_removeRedundantGotos b).trans (becomes_removeUnusedLabels _)
  rw [normalize_snd]
  split
  · next hempty => exact (becomes_sorted (List.isEmpty_iff.1 hempty)).trans (htidied _)
  · exact htidied b

end Flow

/-! ### Slots and names -/

/-- Another slot does not change where an instruction leads. -/
theorem Instruction.isLabel_withSlot (n : UInt16) (i : Instruction Label) :
    (i.withSlot n).isLabel = i.isLabel ∧ (i.withSlot n).targets = i.targets := by
  cases i <;> exact ⟨rfl, rfl⟩

/-- Splitting slots leaves a body that has become of what it was. -/
theorem Slot.becomes_split {m : Method} {b b' : Body} {split : Slot.Split}
    (h : Slot.split m b = .ok (split, b')) : b.Becomes b' := by
  obtain ⟨⟨assigned, free⟩, -, h⟩ := Binary.exceptBind_eq_ok_iff.1 h
  cases h
  refine Body.becomes_of_edits (fun wf => ?_) (List.Sublist.refl _)
  refine Listing.edits_foldl (fun state : Nat × Listing => state.2) (s := (0, b.listing)) wf ?_
  intro state e group _
  refine Listing.edits_foldl (fun state : Nat × Listing => state.2) (s := state) e.wf ?_
  intro state' e' a _
  rw [renumber]
  split
  · exact Listing.Edits.refl e'.wf
  · exact Listing.edits_modify e'.wf rfl (Instruction.isLabel_withSlot _) a.handle

/-- Other names do not change where an instruction leads. -/
theorem Naming.Renaming.isLabel_onInstruction (r : Naming.Renaming) (i : Instruction Label) :
    (r.onInstruction i).isLabel = i.isLabel ∧ (r.onInstruction i).targets = i.targets := by
  cases i <;> exact ⟨rfl, rfl⟩

/-- Renaming leaves a body that has become of what it was. -/
theorem Naming.Renaming.becomes_onBody (r : Naming.Renaming) (b : Body) : b.Becomes (r.onBody b) := by
  refine Body.becomes_of_edits (fun wf => ?_) ?_
  · refine Listing.edits_foldl (fun l => l) (s := b.listing) wf ?_
    intro l e h _
    exact Listing.edits_modify e.wf rfl r.isLabel_onInstruction h
  · rw [onBody, List.map_map]
    exact List.Sublist.refl _

end Unscramble
