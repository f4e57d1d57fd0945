import Unscramble.Flow.Normal
import Unscramble.Proofs.Flow.Settling
import Unscramble.Proofs.Search

/-! # Removing dead code

The marks of live instructions are those of the instructions that control can come to, and taking
the others out does not change where control settles. The removal takes out what control cannot come
to, apart from the labels of ranges, and nothing else. For this the body may be malformed: its jumps
and ranges may refer to labels that were taken out before, its handlers may stand in dead code, and
control may run off its end. What is left is reached exactly as it was, because every instruction that
control passes keeps the one below it, so that nothing is left to remove.

Main definitions: `Body.Reaches`, `Body.LabelsLinked`, `Body.Stays`, `KeepsFlow`, `isLive`. Main
statements: `reaches_of_isMarked`, `isMarked_of_reaches`, `keepsFlow_restrict_live`,
`reaches_removeUnreachable_iff`, `removeUnreachable_exact`. -/

namespace Unscramble

/-- Control can come to an instruction: at the entry, at a handler, past an instruction that is not
terminal, or at a target. -/
inductive Body.Reaches (b : Body) : Handle → Prop
  /-- Control enters at the first instruction. -/
  | entry {h : Handle} (first : b.listing.first? = some h) : Reaches b h
  /-- A handler takes over. -/
  | handler {g : Guard Label} (mem : g ∈ b.guards) : Reaches b g.handler
  /-- Control passes an instruction. -/
  | pass {h n : Handle} (reached : Reaches b h) (running : (b.listing.get h).isTerminal = false)
      (next : b.listing.next? h = some n) : Reaches b n
  /-- Control is transferred to a target. -/
  | target {h t : Handle} (reached : Reaches b h) (mem : t ∈ (b.listing.get h).targets) :
      Reaches b t

/-- Where control comes to depends on the instructions and the ranges only. -/
theorem Body.Reaches.congr {b b' : Body} {h : Handle} (hr : b.Reaches h)
    (hlisting : b.listing = b'.listing) (hguards : b.guards = b'.guards) : b'.Reaches h := by
  induction hr with
  | entry first => exact .entry (hlisting ▸ first)
  | handler mem => exact .handler (hguards ▸ mem)
  | pass _ hopen next ih => exact .pass ih (hlisting ▸ hopen) (hlisting ▸ next)
  | target _ mem ih => exact .target ih (hlisting ▸ mem)

/-- Every target of an instruction of the sequence is a label of the sequence. -/
def Listing.TargetsLinked (l : Listing) : Prop :=
  ∀ h ∈ l.handles, ∀ t ∈ (l.get h).targets, t ∈ l.handles ∧ (l.get t).isLabel = true

instance (l : Listing) : Decidable l.TargetsLinked :=
  inferInstanceAs (Decidable (∀ h ∈ l.handles, ∀ t ∈ (l.get h).targets,
    t ∈ l.handles ∧ (l.get t).isLabel = true))

/-- Every label that an instruction or a range refers to is a label of the sequence. -/
structure Body.LabelsLinked (b : Body) : Prop where
  /-- The targets of jumps and switches. -/
  targets : b.listing.TargetsLinked
  /-- The labels of ranges. -/
  guards : ∀ g ∈ b.guards, ∀ t ∈ g.labels,
    t ∈ b.listing.handles ∧ (b.listing.get t).isLabel = true

/-- Control never runs off the end of the sequence. -/
def Body.Stays (b : Body) : Prop :=
  ∀ h, b.Reaches h → (b.listing.get h).isTerminal = false → (b.listing.next? h).isSome = true

/-- A label is a marker. -/
theorem Instruction.isReal_of_isLabel {L : Type} {i : Instruction L} (h : i.isLabel = true) :
    i.isReal = false := by
  cases i with
  | label => rfl
  | _ => cases h

/-- Markers do not end the flow of control. -/
theorem Instruction.isTerminal_of_isReal {L : Type} {i : Instruction L} (h : i.isReal = false) :
    i.isTerminal = false := by
  cases i with
  | label => rfl
  | line n => rfl
  | _ => cases h

namespace Flow

variable {b : Body} {h t : Handle}

/-- What control comes to is linked. -/
theorem mem_handles_of_reaches (hb : b.LabelsLinked) (hr : b.Reaches h) :
    h ∈ b.listing.handles := by
  induction hr with
  | entry first =>
    rw [Listing.first?_eq_head?] at first
    exact List.mem_of_mem_head? first
  | handler mem => exact (hb.guards _ mem _ (by simp [Guard.labels])).1
  | pass _ _ next => exact Listing.mem_handles_of_next? next
  | target _ mem ih => exact (hb.targets _ ih _ mem).1

/-- The table of followers tells the next handle of each handle. -/
theorem followers_join {l : Listing} (wf : l.WellFormed) (h : Handle) :
    (followers l)[h]?.join = l.next? h := by
  have hkeys : ((l.handles.zip (l.handles.drop 1)).map (·.1)).Nodup := by
    rw [map_fst_zip_tail]
    exact wf.nodup.sublist (List.dropLast_sublist _)
  by_cases hm : h ∈ (l.handles.zip (l.handles.drop 1)).map (·.1)
  · obtain ⟨⟨h, n⟩, hp, rfl⟩ := List.mem_map.1 hm
    have hlt := wf.lt_capacity _ (List.of_mem_zip hp).1
    have hentry : (followers l)[(h, n).1]? = some (some n) :=
      getElem?_foldl_set_of_mem (fun p : Handle × Handle => p.1) (fun p => some p.2) hkeys hp
        (Array.replicate l.capacity none) (by rw [Array.size_replicate]; exact hlt)
    obtain ⟨front, back, hs⟩ := mem_zip_tail_iff.1 hp
    rw [hentry, (Listing.next?_eq_some_iff wf).2 ⟨front, back, hs⟩]
    rfl
  · have hnext : l.next? h = none := by
      by_contra hn
      obtain ⟨n, hn⟩ := Option.ne_none_iff_exists'.1 hn
      have hp := mem_zip_tail_iff.2 ((Listing.next?_eq_some_iff wf).1 hn)
      exact hm (List.mem_map.2 ⟨(h, n), hp, rfl⟩)
    have hentry : (followers l)[h]? = (Array.replicate l.capacity none)[h]? :=
      getElem?_foldl_set_of_not_mem (fun p : Handle × Handle => p.1) (fun p => some p.2) hm _
    rw [hentry, Array.getElem?_replicate, hnext]
    split <;> rfl

/-- Where control can go from an instruction. -/
theorem mem_flowsTo_iff {l : Listing} (wf : l.WellFormed) :
    t ∈ flowsTo l (followers l) h ↔
      (l.get h).isTerminal = false ∧ l.next? h = some t ∨ t ∈ (l.get h).targets := by
  rw [flowsTo, followers_join wf, List.mem_append]
  cases (l.get h).isTerminal with
  | true => simp
  | false => simp

/-- Control can come to what is marked. -/
theorem reaches_of_isMarked (wf : b.listing.WellFormed)
    (hm : isMarked (liveHandles b) h = true) : b.Reaches h := by
  rw [liveHandles, isMarked_reachable_iff] at hm
  induction hm with
  | start mem _ =>
    rcases List.mem_append.1 mem with mem | mem
    · exact .entry (Option.mem_toList.1 mem)
    · obtain ⟨g, hg, rfl⟩ := List.mem_map.1 mem
      exact .handler hg
  | step _ mem _ ih =>
    rcases (mem_flowsTo_iff wf).1 mem with ⟨hopen, hnext⟩ | hm
    · exact .pass ih hopen hnext
    · exact .target ih hm

/-- What control can come to is marked, whether it is linked or not. -/
theorem isMarked_of_reaches (wf : b.listing.WellFormed) (hlt : h < b.listing.capacity)
    (hr : b.Reaches h) : isMarked (liveHandles b) h = true := by
  rw [liveHandles, isMarked_reachable_iff]
  induction hr with
  | entry first => exact .start (List.mem_append.2 (.inl (Option.mem_toList.2 first))) hlt
  | handler mem => exact .start (List.mem_append.2 (.inr (List.mem_map_of_mem mem))) hlt
  | pass _ hopen next ih =>
    -- what has an instruction below it is linked
    obtain ⟨front, back, hs⟩ := (Listing.next?_eq_some_iff wf).1 next
    have hlinked := wf.lt_capacity _ (hs ▸ List.mem_append_right front List.mem_cons_self)
    exact .step (ih hlinked) ((mem_flowsTo_iff wf).2 (.inl ⟨hopen, next⟩)) hlt
  | @target h t _ mem ih =>
    have hnode : h < b.listing.capacity := by
      by_contra hge
      rw [Listing.get, Array.getElem?_eq_none (Nat.le_of_not_lt hge)] at mem
      cases mem
    exact .step (ih hnode) ((mem_flowsTo_iff wf).2 (.inr mem)) hlt

/-- The marks of live instructions are those of what control can come to. -/
theorem isMarked_liveHandles_iff (wf : b.listing.WellFormed) (hb : b.LabelsLinked) :
    isMarked (liveHandles b) h = true ↔ b.Reaches h :=
  ⟨reaches_of_isMarked wf,
    fun hr => isMarked_of_reaches wf (wf.lt_capacity h (mem_handles_of_reaches hb hr)) hr⟩

/-! ### Rewrites that keep the flow of control -/

/-- A rewrite of a listing keeps the flow of control at some instructions: control that enters
settles at the same place, and the instructions stay as they are, with control settling at the same
places from their targets and from below them. -/
structure KeepsFlow (live : Handle → Prop) (l l' : Listing) : Prop where
  /-- Control that enters settles at the same place. -/
  entry : Agree l l.handles l' l'.handles
  /-- The instructions stay linked. -/
  linked : ∀ h, live h → h ∈ l'.handles
  /-- The instructions are unchanged. -/
  same : ∀ h, live h → l'.get h = l.get h
  /-- Control settles at the same place from every target. -/
  target : ∀ h, live h → ∀ t ∈ (l.get h).targets, Agree l (l.onward t) l' (l'.onward t)
  /-- Control settles at the same place from below. -/
  below : ∀ h, live h → (l.get h).isTerminal = false → Agree l (l.after h) l' (l'.after h)

/-- What keeps the flow in two steps keeps it. -/
theorem KeepsFlow.trans {live : Handle → Prop} {l₁ l₂ l₃ : Listing} (h : KeepsFlow live l₁ l₂)
    (h' : KeepsFlow live l₂ l₃) : KeepsFlow live l₁ l₃ := by
  refine ⟨h.entry.trans h'.entry, h'.linked, ?_, ?_, ?_⟩
  · intro a ha
    rw [h'.same a ha, h.same a ha]
  · intro a ha t ht
    exact (h.target a ha t ht).trans (h'.target a ha t (by rwa [h.same a ha]))
  · intro a ha hopen
    exact (h.below a ha hopen).trans (h'.below a ha (by rwa [h.same a ha]))

/-- What is kept at instructions is kept at some of them. -/
theorem KeepsFlow.weaken {live live' : Handle → Prop} {l l' : Listing} (h : KeepsFlow live l l')
    (hlive : ∀ a, live' a → live a) : KeepsFlow live' l l' :=
  ⟨h.entry, fun a ha => h.linked a (hlive a ha), fun a ha => h.same a (hlive a ha),
    fun a ha => h.target a (hlive a ha), fun a ha => h.below a (hlive a ha)⟩

/-! ### Taking out what control cannot reach -/

/-- A position is live if it is empty or control can come to its head. -/
def LivePosition (b : Body) (s : List Handle) : Prop :=
  s <:+ b.listing.handles ∧ ∀ a r, s = a :: r → b.Reaches a

/-- The position of a handle that control can come to is live. -/
theorem livePosition_onward (hb : b.LabelsLinked) (hr : b.Reaches h) :
    LivePosition b (b.listing.onward h) := by
  refine ⟨b.listing.onward_suffix h, ?_⟩
  intro a r hs
  rw [Listing.onward_eq_cons (mem_handles_of_reaches hb hr)] at hs
  cases hs
  exact hr

/-- The position behind an instruction that control passes is live. -/
theorem livePosition_after (hs : b.Stays) (hr : b.Reaches h)
    (hopen : (b.listing.get h).isTerminal = false) : LivePosition b (b.listing.after h) := by
  obtain ⟨n, hn⟩ := Option.isSome_iff_exists.1 (hs h hr hopen)
  refine ⟨b.listing.after_suffix h, ?_⟩
  intro a r ha
  rw [Listing.next?, ha] at hn
  cases hn
  refine .pass hr hopen ?_
  rw [Listing.next?, ha]
  rfl

/-- The whole sequence is a live position. -/
theorem livePosition_handles (b : Body) : LivePosition b b.listing.handles := by
  refine ⟨List.suffix_refl _, ?_⟩
  intro a r ha
  apply Body.Reaches.entry
  rw [Listing.first?_eq_head?, ha]
  rfl

/-- Handles that control cannot come to can go. -/
theorem prunable_live (wf : b.listing.WellFormed) (hb : b.LabelsLinked) (hs : b.Stays)
    {keep : Handle → Bool} (hk : ∀ h, b.Reaches h → keep h = true) :
    Prunable b.listing keep (LivePosition b) := by
  constructor
  · intro h s hok hr
    have heq := Listing.eq_after_of_suffix wf hok.1
    rw [heq]
    exact livePosition_after hs (hok.2 h s rfl) (Instruction.isTerminal_of_isReal hr)
  · intro h s t hok ht
    have hreach : b.Reaches t :=
      .target (hok.2 h s rfl) (Instruction.mem_targets_of_gotoTarget? ht)
    exact ⟨hk t hreach, livePosition_onward hb hreach⟩
  · intro h s hok hgone
    rw [hk h (hok.2 h s rfl)] at hgone
    cases hgone

/-- Taking out handles that control cannot come to keeps the flow of control. -/
theorem keepsFlow_restrict_live (wf : b.listing.WellFormed) (hb : b.LabelsLinked) (hs : b.Stays)
    {keep : Handle → Bool} (hk : ∀ h, b.Reaches h → keep h = true) :
    KeepsFlow b.Reaches b.listing (b.listing.restrict keep) := by
  have p := prunable_live wf hb hs hk
  refine ⟨?_, ?_, fun _ _ => rfl, ?_, ?_⟩
  · rw [Listing.handles_restrict]
    exact p.agree (livePosition_handles b)
  · intro h hr
    rw [Listing.handles_restrict, List.mem_filter]
    exact ⟨mem_handles_of_reaches hb hr, hk h hr⟩
  · intro h hr t ht
    have hrt : b.Reaches t := .target hr ht
    rw [Listing.onward_restrict (hk t hrt)]
    exact p.agree (livePosition_onward hb hrt)
  · intro h hr hopen
    rw [Listing.after_restrict (hk h hr)]
    exact p.agree (livePosition_after hs hr hopen)

/-! ### Removal is exact -/

/-- Which handles stay when dead code goes. -/
def isLive (b : Body) (h : Handle) : Bool :=
  !(!isMarked (liveHandles b) h && !isMarked (mark b.listing.capacity b.guardLabels) h)

/-- Removing what control cannot reach takes out what is not live. -/
theorem removeUnreachable_snd (b : Body) :
    (removeUnreachable b).2 = { b with listing := b.listing.restrict (isLive b) } := rfl

/-- What stays when dead code goes is what control comes to and the labels of ranges. -/
theorem isLive_iff_of_lt (wf : b.listing.WellFormed) (hlt : h < b.listing.capacity) :
    isLive b h = true ↔ b.Reaches h ∨ h ∈ b.guardLabels := by
  have hmarked : isMarked (liveHandles b) h = true ↔ b.Reaches h :=
    ⟨reaches_of_isMarked wf, isMarked_of_reaches wf hlt⟩
  have hguard : isMarked (mark b.listing.capacity b.guardLabels) h = true ↔ h ∈ b.guardLabels := by
    rw [isMarked_mark]
    exact and_iff_left hlt
  rw [isLive, ← hmarked, ← hguard]
  cases isMarked (liveHandles b) h <;> simp

/-! ### Control in what is left -/

section Restrict

variable {keep : Handle → Bool}

/-- If everything stays that control comes to, the body still starts at the same instruction. -/
theorem first?_restrict_of_reaches (hk : ∀ h ∈ b.listing.handles, b.Reaches h → keep h = true) :
    (b.listing.restrict keep).first? = b.listing.first? := by
  rw [Listing.first?_eq_head?, Listing.first?_eq_head?, Listing.handles_restrict]
  cases horder : b.listing.handles with
  | nil => rfl
  | cons a rest =>
    have hentry : b.Reaches a := .entry (by rw [Listing.first?_eq_head?, horder]; rfl)
    have ha : keep a = true := hk a (horder ▸ List.mem_cons_self) hentry
    rw [List.filter_cons_of_pos ha]
    rfl

/-- If everything stays that control comes to, nothing comes to stand below what control passes. -/
theorem next?_restrict_of_reaches
    (hk : ∀ h ∈ b.listing.handles, b.Reaches h → keep h = true) (hr : b.Reaches h)
    (hopen : (b.listing.get h).isTerminal = false) :
    (b.listing.restrict keep).next? h = b.listing.next? h := by
  by_cases hm : h ∈ b.listing.handles
  · rw [Listing.next?, Listing.next?, Listing.after_restrict (hk h hm hr)]
    cases hafter : b.listing.after h with
    | nil => rfl
    | cons n rest =>
      have hnext : b.listing.next? h = some n := by rw [Listing.next?, hafter]; rfl
      have hn : keep n = true := hk n (Listing.mem_handles_of_next? hnext) (.pass hr hopen hnext)
      rw [List.filter_cons_of_pos hn]
      rfl
  · -- nothing stands below what is not linked, before or after
    have hm' : h ∉ (b.listing.restrict keep).handles := by
      rw [Listing.handles_restrict]
      exact fun hin => hm (List.mem_of_mem_filter hin)
    rw [Listing.next?, Listing.next?, Listing.after_eq_tail, Listing.after_eq_tail,
      Listing.onward_eq_nil hm, Listing.onward_eq_nil hm']

/-- If everything stays that control comes to, control comes to the same instructions. -/
theorem reaches_restrict_iff
    (hk : ∀ h ∈ b.listing.handles, b.Reaches h → keep h = true) :
    Body.Reaches { b with listing := b.listing.restrict keep } h ↔ b.Reaches h := by
  constructor
  · intro hr
    induction hr with
    | entry first => exact .entry (first?_restrict_of_reaches hk ▸ first)
    | handler mem => exact .handler mem
    | pass _ hopen next ih => exact .pass ih hopen (next?_restrict_of_reaches hk ih hopen ▸ next)
    | target _ mem ih => exact .target ih mem
  · intro hr
    induction hr with
    | entry first => exact .entry ((first?_restrict_of_reaches hk).trans first)
    | @handler g mem => exact Body.Reaches.handler (g := g) mem
    | pass reached hopen next ih =>
      exact .pass ih hopen ((next?_restrict_of_reaches hk reached hopen).trans next)
    | target _ mem ih => exact .target ih mem

end Restrict

/-! ### Removal -/

/-- When dead code goes, control comes to what it came to, and to nothing else. -/
theorem reaches_removeUnreachable_iff (wf : b.listing.WellFormed) :
    (removeUnreachable b).2.Reaches h ↔ b.Reaches h := by
  rw [removeUnreachable_snd]
  exact reaches_restrict_iff fun h hm hr =>
    (isLive_iff_of_lt wf (wf.lt_capacity h hm)).2 (.inl hr)

/-- Dead code goes at once. -/
theorem removeUnreachable_again (wf : b.listing.WellFormed) :
    removeUnreachable (removeUnreachable b).2 = (0, (removeUnreachable b).2) := by
  have wf' : (removeUnreachable b).2.listing.WellFormed := wf.restrict _
  have hlive : ∀ h ∈ (removeUnreachable b).2.listing.order,
      isLive (removeUnreachable b).2 h = true := by
    intro h hm
    have hm' : h ∈ (removeUnreachable b).2.listing.handles := Array.mem_toList_iff.2 hm
    have hkept : isLive b h = true := (Array.mem_filter.1 hm).2
    have hlt := wf'.lt_capacity h hm'
    rw [isLive_iff_of_lt wf' hlt, reaches_removeUnreachable_iff wf]
    exact (isLive_iff_of_lt wf hlt).1 hkept
  have horder := Array.filter_eq_self.2 hlive
  refine Prod.ext ?_ ?_
  · show _ - (Array.filter (isLive (removeUnreachable b).2) _).size = 0
    rw [horder]
    exact Nat.sub_self _
  · rw [removeUnreachable_snd (removeUnreachable b).2, Listing.restrict, horder]

/-- Dead code removal leaves what control comes to and the labels of ranges. What is left keeps its
order and its contents, what goes is counted, and nothing goes a second time. -/
theorem removeUnreachable_exact (wf : b.listing.WellFormed) :
    (∀ h ∈ b.listing.handles, h ∈ (removeUnreachable b).2.listing.handles ↔
      b.Reaches h ∨ h ∈ b.guardLabels) ∧
    (removeUnreachable b).2.listing.handles.Sublist b.listing.handles ∧
    (removeUnreachable b).2 =
      { b with listing := b.listing.relink (removeUnreachable b).2.listing.order } ∧
    (removeUnreachable b).1 + (removeUnreachable b).2.listing.length = b.listing.length ∧
    removeUnreachable (removeUnreachable b).2 = (0, (removeUnreachable b).2) := by
  have hhandles : (removeUnreachable b).2.listing.handles = b.listing.handles.filter (isLive b) := by
    rw [removeUnreachable_snd, Listing.handles_restrict]
  refine ⟨?_, ?_, rfl, ?_, removeUnreachable_again wf⟩
  · intro h hm
    rw [hhandles, List.mem_filter, isLive_iff_of_lt wf (wf.lt_capacity h hm)]
    exact and_iff_right hm
  · rw [hhandles]
    exact List.filter_sublist
  · have hle : (b.listing.order.filter (isLive b)).size ≤ b.listing.order.size :=
      Array.size_filter_le
    show b.listing.order.size - (b.listing.order.filter (isLive b)).size +
      (b.listing.order.filter (isLive b)).size = b.listing.order.size
    omega

/-- A loop that is left by a jump to a label that was taken out, with a handler in front of it that
nothing but the range leads to, and the end of the range in dead code. -/
def tangledBody : Body where
  listing :=
    { nodes := #[⟨.jump .goto 4, none⟩, ⟨.plain ⟨3⟩, none⟩, ⟨.label, none⟩, ⟨.plain .athrow, none⟩,
        ⟨.label, none⟩, ⟨.jump .ifeq 8, none⟩, ⟨.jump .goto 4, none⟩, ⟨.label, none⟩,
        ⟨.label, none⟩, ⟨.plain ⟨4⟩, none⟩]
      order := #[0, 1, 2, 3, 4, 5, 6, 7, 9] }
  guards := [{ start := 4, stop := 7, handler := 2, catches := none }]

/-- In the loop, what stands behind the first jump and behind the range goes. -/
theorem removeUnreachable_exact_tangled :
    tangledBody.listing.WellFormed ∧ removeUnreachable tangledBody =
      (2, { tangledBody with listing := tangledBody.listing.relink #[0, 2, 3, 4, 5, 6, 7] }) ∧
    ∀ h ∈ tangledBody.listing.handles, h ∈ [0, 2, 3, 4, 5, 6, 7] ↔
      tangledBody.Reaches h ∨ h ∈ tangledBody.guardLabels := by
  have wf : tangledBody.listing.WellFormed := ⟨by decide, by decide⟩
  have horder : (removeUnreachable tangledBody).2.listing.order = #[0, 2, 3, 4, 5, 6, 7] := by cbv
  have hcount : (removeUnreachable tangledBody).1 = 2 := by cbv
  have hleft : (removeUnreachable tangledBody).2.listing.handles = [0, 2, 3, 4, 5, 6, 7] := by
    rw [Listing.handles, horder]
  obtain ⟨hexact, -, hsame, -, -⟩ := removeUnreachable_exact wf
  rw [hleft] at hexact
  rw [horder] at hsame
  exact ⟨wf, Prod.ext hcount hsame, hexact⟩

end Flow

end Unscramble
