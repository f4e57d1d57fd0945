import Unscramble.Proofs.Flow.DeadCode
import Unscramble.Proofs.Flow.Placement

/-! # Normalizing keeps the flow of control

A jump to the next real instruction and a label that nothing refers to can go: control settles at
the same place from every handle that stays, and from behind it. The normalizer takes out such jumps
and labels of any body, and takes out dead code and lays out the blocks of a body without ranges.
Control that enters, passes an instruction, is transferred or is caught settles at the same
instruction as before, and ranges cover the same instructions.

Main definitions: `Pruned`, `Acts`, `Covers`, `Preserves`. Main statements:
`exists_pruned_removeRedundantGotos`, `pruned_removeUnusedLabels`, `preserves_normalize`. -/

namespace Unscramble.Flow

variable {l : Listing} {h : Handle} {keep : Handle → Bool}

/-- Handles can be taken out without a change in where control settles from the entry, from a handle
that stays, and from behind it. -/
structure Pruned (l : Listing) (keep : Handle → Bool) : Prop where
  /-- Control that enters. -/
  entry : Agree l l.handles (l.restrict keep) (l.restrict keep).handles
  /-- Control at a handle that stays. -/
  onward : ∀ h, keep h = true → Agree l (l.onward h) (l.restrict keep) ((l.restrict keep).onward h)
  /-- Control behind a handle that stays. -/
  after : ∀ h, keep h = true → Agree l (l.after h) (l.restrict keep) ((l.restrict keep).after h)

/-- Needless handles can be taken out. -/
theorem Prunable.pruned (p : Prunable l keep (· <:+ l.handles)) : Pruned l keep := by
  refine ⟨?_, ?_, ?_⟩
  · rw [Listing.handles_restrict]
    exact p.agree (List.suffix_refl _)
  · intro h hk
    rw [Listing.onward_restrict hk]
    exact p.agree (l.onward_suffix h)
  · intro h hk
    rw [Listing.after_restrict hk]
    exact p.agree (l.after_suffix h)

/-- Nothing is taken out where every handle stays. -/
theorem Pruned.refl (l : Listing) : Pruned l fun _ => true := by
  refine ⟨?_, fun h _ => ?_, fun h _ => ?_⟩ <;>
  · rw [Listing.restrict_true]
    exact Agree.refl l _

/-- Handles can be taken out in two steps. -/
theorem Pruned.trans {keep' : Handle → Bool} (p : Pruned l keep)
    (p' : Pruned (l.restrict keep) keep') : Pruned l fun h => keep h && keep' h := by
  refine ⟨?_, ?_, ?_⟩
  · rw [← Listing.restrict_restrict]
    exact p.entry.trans p'.entry
  · intro h hk
    rw [Bool.and_eq_true] at hk
    rw [← Listing.restrict_restrict]
    exact (p.onward h hk.1).trans (p'.onward h hk.2)
  · intro h hk
    rw [Bool.and_eq_true] at hk
    rw [← Listing.restrict_restrict]
    exact (p.after h hk.1).trans (p'.after h hk.2)

/-- The flow of control is kept at instructions that stay and whose targets stay. -/
theorem Pruned.keepsFlow (p : Pruned l keep) {live : Handle → Prop}
    (hlive : ∀ h, live h → h ∈ l.handles ∧ keep h = true ∧
      ∀ t ∈ (l.get h).targets, keep t = true) :
    KeepsFlow live l (l.restrict keep) := by
  refine ⟨p.entry, ?_, fun _ _ => rfl, ?_, ?_⟩
  · intro h hh
    rw [Listing.handles_restrict, List.mem_filter]
    exact ⟨(hlive h hh).1, (hlive h hh).2.1⟩
  · intro h hh t ht
    exact p.onward t ((hlive h hh).2.2 t ht)
  · intro h hh _
    exact p.after h (hlive h hh).2.1

/-! ### Jumps to the next instruction -/

/-- A jump to the next real instruction is needless. -/
theorem needless_of_isRedundantGoto (wf : l.WellFormed) (hl : l.TargetsLinked)
    (hm : h ∈ l.handles) (hr : isRedundantGoto l h = true) :
    (l.get h).gotoTarget?.isSome = true ∧ Needless l h (l.after h) := by
  have htargets := hl h hm
  rw [isRedundantGoto] at hr
  cases hget : l.get h with
  | jump op target =>
    rw [hget] at hr htargets
    simp only [Bool.and_eq_true, beq_iff_eq] at hr
    obtain ⟨hop, hr⟩ := hr
    have hgoto : (l.get h).gotoTarget? = some target := by
      rw [hget, Instruction.gotoTarget?, if_pos hop]
    rw [hget] at hgoto
    refine ⟨by rw [hgoto]; rfl, .inr ?_⟩
    obtain ⟨hmt, -⟩ := htargets target (by simp [Instruction.targets])
    cases hfind : (l.after h).find? l.isReal with
    | none => rw [hfind] at hr; cases hr
    | some f =>
      rw [hfind] at hr
      simp only [beq_iff_eq] at hr
      rw [Listing.nextReal?, ← Listing.onward_eq_cons hmt] at hr
      obtain ⟨-, front, back, hback, hfront⟩ := List.find?_eq_some_iff_append.1 hr
      obtain ⟨-, front', back', hback', hfront'⟩ := List.find?_eq_some_iff_append.1 hfind
      -- both ways lead to the one place where `f` stands
      have heq : back' = back := by
        refine suffix_unique wf.nodup (a := f) ?_ ?_
        · exact (hback' ▸ List.suffix_append front' _ : f :: back' <:+ l.after h).trans
            (l.after_suffix h)
        · exact (hback ▸ List.suffix_append front _ : f :: back <:+ l.onward target).trans
            (l.onward_suffix target)
      subst heq
      refine ⟨target, front, front', f :: back', by rw [hget]; exact hgoto, hback, hback', ?_, ?_⟩
      · intro a ha
        simpa using hfront a ha
      · intro a ha
        simpa using hfront' a ha
  | _ => rw [hget] at hr; cases hr

/-- A jump to the next real instruction is linked. -/
theorem mem_handles_of_isRedundantGoto (hr : isRedundantGoto l h = true) : h ∈ l.handles := by
  by_contra hm
  have hnil : l.after h = [] := by
    rw [Listing.after_eq_tail, Listing.onward_eq_nil hm]
    rfl
  rw [isRedundantGoto, hnil] at hr
  cases hget : l.get h <;> rw [hget] at hr <;> simp at hr

/-- A jump to the next real instruction can be taken out. -/
theorem pruned_remove_goto (wf : l.WellFormed) (hl : l.TargetsLinked)
    (hr : isRedundantGoto l h = true) : Pruned l (· != h) := by
  have hm := mem_handles_of_isRedundantGoto hr
  obtain ⟨hgoto, hneedless⟩ := needless_of_isRedundantGoto wf hl hm hr
  obtain ⟨target, hgoto⟩ := Option.isSome_iff_exists.1 hgoto
  refine Prunable.pruned ⟨?_, ?_, ?_⟩
  · intro a s hs _
    exact (List.suffix_cons a s).trans hs
  · intro a s t hs ht
    obtain ⟨-, hlabel⟩ := hl a (hs.subset (by simp)) t (Instruction.mem_targets_of_gotoTarget? ht)
    refine ⟨?_, l.onward_suffix t⟩
    simp only [bne_iff_ne, ne_eq]
    rintro rfl
    have := Instruction.isReal_of_isLabel hlabel
    rw [Instruction.isReal_of_gotoTarget? hgoto] at this
    cases this
  · intro a s hs hgone
    obtain rfl : a = h := by simpa using hgone
    refine ⟨(List.suffix_cons a s).trans hs, ?_⟩
    rw [Listing.eq_after_of_suffix wf hs]
    exact hneedless

/-- Labels stay when only jumps without a condition go. -/
theorem keep_of_isLabel (hgoto : ∀ h, keep h = false → (l.get h).gotoTarget?.isSome = true)
    {t : Handle} (hl : (l.get t).isLabel = true) : keep t = true := by
  by_contra hk
  obtain ⟨target, ht⟩ := Option.isSome_iff_exists.1 (hgoto t (by simpa using hk))
  have hreal := Instruction.isReal_of_isLabel hl
  rw [Instruction.isReal_of_gotoTarget? ht] at hreal
  cases hreal

/-- Taking out jumps without a condition leaves all targets linked. -/
theorem targetsLinked_restrict (hl : l.TargetsLinked)
    (hk : ∀ h, (l.get h).isLabel = true → h ∈ l.handles → keep h = true) :
    (l.restrict keep).TargetsLinked := by
  intro h hm t ht
  rw [Listing.handles_restrict] at hm ⊢
  obtain ⟨hmt, hlabel⟩ := hl h (List.mem_of_mem_filter hm) t ht
  exact ⟨List.mem_filter.2 ⟨hmt, hk t hlabel hmt⟩, hlabel⟩

/-- Removing jumps to the next real instruction takes out some jumps without a condition, which can
be taken out. -/
theorem exists_pruned_removeRedundantGotos (wf : l.WellFormed) (hl : l.TargetsLinked) :
    ∃ keep, (removeRedundantGotos l).2 = l.restrict keep ∧ Pruned l keep ∧
      ∀ h, keep h = false → (l.get h).gotoTarget?.isSome = true := by
  -- the listing so far is always `l` without some jumps
  have hfold : ∀ (hs : List Handle) (n : Nat) (keep : Handle → Bool), Pruned l keep →
      (∀ h, keep h = false → (l.get h).gotoTarget?.isSome = true) →
      ∃ keep', (hs.foldl (fun state h => if isRedundantGoto state.2 h then
          (state.1 + 1, state.2.remove h) else (state.1, state.2))
          (n, l.restrict keep)).2 = l.restrict keep' ∧ Pruned l keep' ∧
        ∀ h, keep' h = false → (l.get h).gotoTarget?.isSome = true := by
    intro hs
    induction hs with
    | nil => exact fun n keep p hgoto => ⟨keep, rfl, p, hgoto⟩
    | cons h hs ih =>
      intro n keep p hgoto
      rw [List.foldl_cons]
      by_cases hr : isRedundantGoto (l.restrict keep) h = true
      · have wf' := wf.restrict keep
        have hl' : (l.restrict keep).TargetsLinked :=
          targetsLinked_restrict hl fun a ha _ => keep_of_isLabel hgoto ha
        simp only [hr, if_true]
        rw [Listing.remove_eq_restrict wf', Listing.restrict_restrict]
        refine ih _ _ (p.trans (pruned_remove_goto wf' hl' hr)) ?_
        intro a ha
        rw [Bool.and_eq_false_iff] at ha
        rcases ha with ha | ha
        · exact hgoto a ha
        · obtain rfl : a = h := by simpa using ha
          exact (needless_of_isRedundantGoto wf' hl' (mem_handles_of_isRedundantGoto hr) hr).1
      · simp only [Bool.not_eq_true] at hr
        simp only [hr]
        exact ih _ _ p hgoto
  obtain ⟨keep, heq, p, hgoto⟩ := hfold l.handles 0 (fun _ => true) (Pruned.refl l)
    (fun h hk => by cases hk)
  rw [Listing.restrict_true] at heq
  exact ⟨keep, heq, p, hgoto⟩

/-! ### Labels that nothing refers to -/

/-- The labels that an instruction or a range of a body refers to. -/
def usedLabels (b : Body) : List Label :=
  b.guardLabels ++ b.listing.handles.flatMap fun h => (b.listing.get h).targets

/-- Whether a handle stays when labels go that nothing refers to. -/
def isUsed (b : Body) (h : Handle) : Bool :=
  !((b.listing.get h).isLabel && !isMarked (mark b.listing.capacity (usedLabels b)) h)

/-- Removing unused labels takes out what is not used. -/
theorem removeUnusedLabels_snd (b : Body) :
    (removeUnusedLabels b).2 = { b with listing := b.listing.restrict (isUsed b) } := rfl

/-- What is no label stays. -/
theorem isUsed_of_isReal {b : Body} (hr : b.listing.isReal h = true) : isUsed b h = true := by
  have hlabel : (b.listing.get h).isLabel = false := by
    by_contra hl
    rw [Listing.isReal, Instruction.isReal_of_isLabel (by simpa using hl)] at hr
    cases hr
  rw [isUsed, hlabel]
  rfl

/-- A label that something refers to stays. -/
theorem isUsed_of_mem {b : Body} {t : Label} (wf : b.listing.WellFormed)
    (hm : t ∈ b.listing.handles) (hu : t ∈ usedLabels b) : isUsed b t = true := by
  have hmark : isMarked (mark b.listing.capacity (usedLabels b)) t = true :=
    isMarked_mark.2 ⟨hu, wf.lt_capacity t hm⟩
  rw [isUsed, hmark, Bool.not_true, Bool.and_false]
  rfl

/-- Labels that nothing refers to can be taken out. -/
theorem pruned_removeUnusedLabels {b : Body} (wf : b.listing.WellFormed) (hb : b.LabelsLinked) :
    Pruned b.listing (isUsed b) := by
  refine Prunable.pruned ⟨?_, ?_, ?_⟩
  · intro a s hs _
    exact (List.suffix_cons a s).trans hs
  · intro a s t hs ht
    have hma : a ∈ b.listing.handles := hs.subset (by simp)
    have htarget := Instruction.mem_targets_of_gotoTarget? ht
    refine ⟨isUsed_of_mem wf (hb.targets a hma t htarget).1 ?_, b.listing.onward_suffix t⟩
    rw [usedLabels, List.mem_append, List.mem_flatMap]
    exact .inr ⟨a, hma, htarget⟩
  · intro a s hs hgone
    refine ⟨(List.suffix_cons a s).trans hs, .inl ?_⟩
    by_contra hr
    rw [isUsed_of_isReal (by simpa using hr)] at hgone
    cases hgone

end Unscramble.Flow

/-! ### The flow of control -/

namespace Unscramble.Flow

variable {b : Body}

/-- Control comes to an instruction that does something else than jump without a condition. -/
def Acts (b : Body) (h : Handle) : Prop :=
  b.Reaches h ∧ b.listing.isReal h = true ∧ (b.listing.get h).gotoTarget? = none

/-- A range covers an instruction: the instruction stands at or behind the start of the range, and in
front of its end. -/
def Covers (l : Listing) (g : Guard Label) (h : Handle) : Prop :=
  h ∈ l.onward g.start ∧ g.stop ∈ l.after h

/-- A rewrite of a body keeps the flow of control. -/
structure Preserves (b b' : Body) : Prop where
  /-- Instructions that act stay, and control goes on from them as before. -/
  flow : KeepsFlow (Acts b) b.listing b'.listing
  /-- The ranges stay, in order. -/
  guards : b'.guards = b.guards
  /-- Control that is caught settles at the same place. -/
  handler : ∀ g ∈ b.guards, Agree b.listing (b.listing.onward g.handler) b'.listing
    (b'.listing.onward g.handler)
  /-- Each instruction that does something is covered by the same ranges. -/
  covers : ∀ h ∈ b'.listing.handles, b'.listing.isReal h = true →
    (b'.listing.get h).gotoTarget? = none →
    ∀ g ∈ b.guards, Covers b'.listing g h ↔ Covers b.listing g h

/-! ### Taking out jumps and labels -/

/-- The body without jumps to the next instruction and labels that nothing refers to. -/
def tidied (b : Body) : Body :=
  (removeUnusedLabels { b with listing := (removeRedundantGotos b.listing).2 }).2

/-- Tidying takes out some jumps and labels, but no label that an instruction which stays or a range
refers to. -/
theorem exists_pruned_tidied (wf : b.listing.WellFormed) (hb : b.LabelsLinked) :
    ∃ keep, tidied b = { b with listing := b.listing.restrict keep } ∧ Pruned b.listing keep ∧
      (∀ h, b.listing.isReal h = true → (b.listing.get h).gotoTarget? = none → keep h = true) ∧
      (∀ h ∈ b.listing.handles, (b.listing.get h).gotoTarget? = none →
        ∀ t ∈ (b.listing.get h).targets, keep t = true) ∧
      ∀ g ∈ b.guards, ∀ t ∈ g.labels, keep t = true := by
  obtain ⟨keep, heq, p, hgoto⟩ := exists_pruned_removeRedundantGotos wf hb.targets
  have hstill : ∀ h, (b.listing.get h).gotoTarget? = none → keep h = true := by
    intro h hnone
    by_contra hk
    have hsome := hgoto h (by simpa using hk)
    rw [hnone] at hsome
    cases hsome
  have hlabel : ∀ h, (b.listing.get h).isLabel = true → keep h = true :=
    fun h => keep_of_isLabel hgoto
  -- the body between the two steps
  let mid : Body := { b with listing := b.listing.restrict keep }
  have wf' : mid.listing.WellFormed := wf.restrict keep
  have hmid : mid.LabelsLinked := by
    refine ⟨targetsLinked_restrict hb.targets fun h hl _ => hlabel h hl, ?_⟩
    intro g hg t ht
    obtain ⟨hm, hl⟩ := hb.guards g hg t ht
    refine ⟨?_, hl⟩
    change t ∈ (b.listing.restrict keep).handles
    rw [Listing.handles_restrict]
    exact List.mem_filter.2 ⟨hm, hlabel t hl⟩
  have hused : ∀ t ∈ mid.listing.handles, t ∈ usedLabels mid → (keep t && isUsed mid t) = true := by
    intro t hm hu
    have hk : keep t = true := by
      have hm' : t ∈ (b.listing.restrict keep).handles := hm
      rw [Listing.handles_restrict] at hm'
      exact (List.mem_filter.1 hm').2
    rw [hk, isUsed_of_mem wf' hm hu]
    rfl
  refine ⟨fun h => keep h && isUsed mid h, ?_, p.trans (pruned_removeUnusedLabels wf' hmid), ?_, ?_,
    ?_⟩
  · rw [tidied, heq, removeUnusedLabels_snd, ← Listing.restrict_restrict]
  · intro h hr hnone
    change (keep h && isUsed mid h) = true
    rw [hstill h hnone, isUsed_of_isReal (b := mid) hr]
    rfl
  · intro h hm hnone t ht
    have hm' : h ∈ mid.listing.handles := by
      change h ∈ (b.listing.restrict keep).handles
      rw [Listing.handles_restrict]
      exact List.mem_filter.2 ⟨hm, hstill h hnone⟩
    refine hused t (hmid.targets h hm' t ht).1 ?_
    exact List.mem_append.2 (.inr (List.mem_flatMap.2 ⟨h, hm', ht⟩))
  · intro g hg t ht
    refine hused t (hmid.guards g hg t ht).1 ?_
    exact List.mem_append.2 (.inl (List.mem_flatMap.2 ⟨g, hg, ht⟩))

/-- A range covers the same instructions when handles are taken out that are neither the instruction
nor labels of the range. -/
theorem covers_restrict {l : Listing} {keep : Handle → Bool} {g : Guard Label} {h : Handle}
    (hh : keep h = true) (hg : ∀ t ∈ g.labels, keep t = true) :
    Covers (l.restrict keep) g h ↔ Covers l g h := by
  rw [Covers, Covers, Listing.onward_restrict (hg g.start (by simp [Guard.labels])),
    Listing.after_restrict hh, List.mem_filter, List.mem_filter, hh,
    hg g.stop (by simp [Guard.labels])]
  simp

/-- Tidying keeps the flow of control at linked instructions that do something. -/
theorem keepsFlow_tidied (wf : b.listing.WellFormed) (hb : b.LabelsLinked) {live : Handle → Prop}
    (hlive : ∀ h, live h → h ∈ b.listing.handles ∧ b.listing.isReal h = true ∧
      (b.listing.get h).gotoTarget? = none) :
    KeepsFlow live b.listing (tidied b).listing := by
  obtain ⟨keep, heq, p, hact, htarget, -⟩ := exists_pruned_tidied wf hb
  rw [heq]
  refine p.keepsFlow ?_
  intro h hh
  obtain ⟨hm, hreal, hstill⟩ := hlive h hh
  exact ⟨hm, hact h hreal hstill, htarget h hm hstill⟩

/-- Tidying a body preserves it. -/
theorem preserves_tidied (wf : b.listing.WellFormed) (hb : b.LabelsLinked) :
    Preserves b (tidied b) := by
  have hflow : KeepsFlow (Acts b) b.listing (tidied b).listing :=
    keepsFlow_tidied wf hb fun h hh => ⟨mem_handles_of_reaches hb hh.1, hh.2⟩
  obtain ⟨keep, heq, p, hact, -, hguard⟩ := exists_pruned_tidied wf hb
  rw [heq] at hflow ⊢
  refine ⟨hflow, rfl, ?_, ?_⟩
  · intro g hg
    exact p.onward g.handler (hguard g hg _ (by simp [Guard.labels]))
  · intro h _ hreal hstill g hg
    exact covers_restrict (hact h hreal hstill) (hguard g hg)

/-! ### Taking out dead code -/

/-- What stays in a body without ranges is what control comes to. -/
theorem isLive_iff (wf : b.listing.WellFormed) (hb : b.LabelsLinked) (hguards : b.guards = [])
    {h : Handle} : isLive b h = true ↔ b.Reaches h := by
  have hkept : isMarked (mark b.listing.capacity b.guardLabels) h = false := by
    rw [← Bool.not_eq_true, isMarked_mark, Body.guardLabels, hguards]
    simp
  rw [isLive, hkept, ← isMarked_liveHandles_iff wf hb]
  simp

/-- A body without ranges has no dead code when the unreachable instructions are gone. -/
theorem allLive_removeUnreachable (wf : b.listing.WellFormed) (hb : b.LabelsLinked)
    (hs : b.Stays) (hguards : b.guards = []) :
    AllLive (b.listing.restrict (isLive b)) := by
  have hk : ∀ h, b.Reaches h → isLive b h = true := fun h => (isLive_iff wf hb hguards).2
  have hreaches : ∀ h ∈ (b.listing.restrict (isLive b)).handles, b.Reaches h := by
    intro h hm
    rw [Listing.handles_restrict] at hm
    exact (isLive_iff wf hb hguards).1 (List.mem_filter.1 hm).2
  have htargets : (b.listing.restrict (isLive b)).TargetsLinked := by
    intro h hm t ht
    have hr := hreaches h hm
    obtain ⟨hmt, hl⟩ := hb.targets h (mem_handles_of_reaches hb hr) t ht
    rw [Listing.handles_restrict]
    exact ⟨List.mem_filter.2 ⟨hmt, hk t (.target hr ht)⟩, hl⟩
  refine ⟨wf.restrict _, htargets, ?_, ?_⟩
  · intro h hm
    have hr : Body.Reaches { b with listing := b.listing.restrict (isLive b) } h :=
      (reaches_restrict_iff fun h _ hr => hk h hr).2 (hreaches h hm)
    refine hr.congr ?_ hguards
    rfl
  · intro h hr hopen
    have hm : h ∈ (b.listing.restrict (isLive b)).handles :=
      mem_handles_of_reaches (b := { listing := b.listing.restrict (isLive b) })
        ⟨htargets, by simp⟩ hr
    change ((b.listing.restrict (isLive b)).next? h).isSome = true
    rw [next?_restrict_of_reaches (fun h _ hr => hk h hr) (hreaches h hm) hopen]
    exact hs h (hreaches h hm) hopen

/-! ### The normalizer -/

/-- A body without ranges, its dead code taken out and its blocks laid out. -/
def sorted (b : Body) : Body :=
  { b with listing := sortBlocks (b.listing.restrict (isLive b)) }

/-- What the normalizer makes of a body. -/
theorem normalize_snd (b : Body) :
    (normalize b).2 = tidied (if b.guards.isEmpty then sorted b else b) := by
  cases hguards : b.guards.isEmpty with
  | true =>
    simp only [normalize, hguards]
    rfl
  | false =>
    simp only [normalize, hguards]
    rfl

/-- Taking out dead code and laying out blocks keeps the flow of control, and leaves labels linked.
-/
theorem keepsFlow_sorted (wf : b.listing.WellFormed) (hb : b.LabelsLinked) (hs : b.Stays)
    (hguards : b.guards = []) :
    KeepsFlow b.Reaches b.listing (sorted b).listing ∧ (sorted b).listing.WellFormed ∧
      (sorted b).LabelsLinked := by
  have live := allLive_removeUnreachable wf hb hs hguards
  have hk : ∀ h, b.Reaches h → isLive b h = true := fun h => (isLive_iff wf hb hguards).2
  have wf' := wellFormed_sortBlocks live.wf
  have hdead := keepsFlow_restrict_live wf hb hs hk
  have hlaid := (rearranged_sortBlocks live).keepsFlow live wf'
  refine ⟨hdead.trans (hlaid.weaken hdead.linked), wf', targetsLinked_sortBlocks live, ?_⟩
  intro g hg
  change g ∈ b.guards at hg
  rw [hguards] at hg
  cases hg

/-- A body of which every instruction is followed by another one unless it is terminal is not left at
its end. -/
theorem stays_of_forall (hb : b.LabelsLinked)
    (hnext : ∀ h ∈ b.listing.handles, (b.listing.get h).isTerminal = false →
      (b.listing.next? h).isSome = true) : b.Stays :=
  fun h hr => hnext h (mem_handles_of_reaches hb hr)

/-- The normalizer keeps the flow of control of every body whose labels are linked and which control
does not leave at its end. -/
theorem preserves_normalize (b : Body) (wf : b.listing.WellFormed) (hb : b.LabelsLinked)
    (hs : b.Stays) : Preserves b (normalize b).2 := by
  rw [normalize_snd]
  -- Bodies with guards are not sorted, only tidied.
  cases hguards : b.guards with
  | cons g guards => exact preserves_tidied wf hb
  | nil =>
    obtain ⟨hsorted, wf', hb'⟩ := keepsFlow_sorted wf hb hs hguards
    -- What acts in the body acts in the sorted one, so tidying keeps its flow too.
    have hacts : ∀ h, Acts b h → h ∈ (sorted b).listing.handles ∧
        (sorted b).listing.isReal h = true ∧ ((sorted b).listing.get h).gotoTarget? = none := by
      rintro h ⟨hr, hreal, hstill⟩
      rw [Listing.isReal, hsorted.same h hr]
      exact ⟨hsorted.linked h hr, hreal, hstill⟩
    have htidied := keepsFlow_tidied wf' hb' hacts
    have hflow : KeepsFlow (Acts b) b.listing (sorted b).listing :=
      hsorted.weaken fun h hh => hh.1
    have hnone : (tidied (sorted b)).guards = b.guards := by
      obtain ⟨keep, heq, -⟩ := exists_pruned_tidied wf' hb'
      rw [heq]
      rfl
    refine ⟨hflow.trans htidied, hnone, ?_, ?_⟩
    · intro g hg
      rw [hguards] at hg
      cases hg
    · intro h _ _ _ g hg
      rw [hguards] at hg
      cases hg

/-- A loop whose test stands below its body, with dead code in front of the exit. -/
def countingLoop : Body where
  listing :=
    { nodes := #[⟨.jump .goto 3, none⟩, ⟨.label, none⟩, ⟨.increment 0 1, none⟩, ⟨.label, none⟩,
        ⟨.slot .iload 0, none⟩, ⟨.jump .ifeq 1, none⟩, ⟨.jump .goto 9, none⟩, ⟨.label, none⟩,
        ⟨.plain .nop, none⟩, ⟨.label, none⟩, ⟨.plain .returnVoid, none⟩]
      order := #[0, 1, 2, 3, 4, 5, 6, 7, 8, 9, 10] }

/-- The normalizer keeps the flow of control of a loop with dead code behind it. -/
theorem preserves_normalize_countingLoop :
    countingLoop.listing.WellFormed ∧ countingLoop.LabelsLinked ∧ countingLoop.Stays ∧
      Preserves countingLoop (normalize countingLoop).2 := by
  have wf : countingLoop.listing.WellFormed := ⟨by decide, by decide⟩
  have hb : countingLoop.LabelsLinked := ⟨by decide, by decide⟩
  have hs : countingLoop.Stays := stays_of_forall hb (by decide)
  exact ⟨wf, hb, hs, preserves_normalize countingLoop wf hb hs⟩

end Unscramble.Flow
