import Unscramble.Proofs.Flow.Normal
import Unscramble.Proofs.Flow.Sorting

/-! # Normalizing again

Removing a jump to the next instruction, or a label that nothing refers to, keeps a listing in
depth-first order. So a normalized body has no dead code and is laid out as it stands, and normalizing
it again takes out jumps and labels only. It takes out none if and only if the first round left no
jump to the next instruction, which it may: a jump can come to lead to the next instruction when a
later one is taken out. A round that takes out no jump changes nothing, so the rounds come to rest
after at most as many of them as the first one left jumps.

Main definitions: `gotoCount`, `Arranged`, `rounds`. Main statements: `DepthFirst.remove`,
`depthFirst_tidied`, `normalize_normalize`, `gotoCount_removeRedundantGotos`,
`Arranged.normalize_cases`, `rounds_settle`. -/

namespace Unscramble.Flow

variable {l : Listing} {g n : Handle}

/-! ### Taking out one instruction -/

/-- The neighbour of an instruction is another one. -/
theorem ne_of_next? (wf : l.WellFormed) (hn : l.next? g = some n) : n ≠ g := by
  obtain ⟨front, back, hs⟩ := (Listing.next?_eq_some_iff wf).1 hn
  have hnodup := wf.nodup
  rw [hs] at hnodup
  have hcons := List.nodup_cons.1 (List.nodup_append.1 hnodup).2.1
  exact fun h => hcons.1 (by simp [h])

/-- When an instruction goes, what stood below it stands below its left neighbour. -/
theorem next?_restrict_ne (wf : l.WellFormed) (hn : l.next? g = some n) {h : Handle} (hne : h ≠ g) :
    (l.restrict (· != g)).next? h = (l.next? h).map (instead g n) := by
  have hng := ne_of_next? wf hn
  rw [Listing.next?, Listing.next?, Listing.after_restrict (by simpa using hne)]
  cases hafter : l.after h with
  | nil => rfl
  | cons x xs =>
    by_cases hx : x = g
    · subst hx
      have hxs : xs = l.after x :=
        Listing.eq_after_of_suffix wf (hafter ▸ l.after_suffix h)
      rw [Listing.next?, ← hxs] at hn
      obtain ⟨ys, rfl⟩ := List.head?_eq_some_iff.1 hn
      rw [List.filter_cons_of_neg (by simp), List.filter_cons_of_pos (by simpa using hng)]
      simp
    · rw [List.filter_cons_of_pos (by simpa using hx), List.head?_cons, List.head?_cons,
        Option.map_some, instead_of_ne n hx]

/-- When an instruction goes that is no target, control goes where it led instead. -/
theorem leads_restrict_ne (wf : l.WellFormed) (hn : l.next? g = some n) {h : Handle} (hne : h ≠ g)
    (htarget : g ∉ (l.get h).targets) :
    leads (l.restrict (· != g)) h = (leads l h).map (instead g n) := by
  have htargets : (l.get h).targets.map (instead g n) = (l.get h).targets :=
    (List.map_congr_left fun t ht =>
      instead_of_ne n (ne_of_mem_of_not_mem ht htarget)).trans (List.map_id _)
  rw [leads, leads, List.map_append, Listing.get_restrict, htargets, next?_restrict_ne wf hn hne]
  cases (l.get h).isTerminal with
  | true => rfl
  | false => cases l.next? h <;> rfl

/-- An instruction that is no target and leads to one place only can be taken out of a listing in
depth-first order. -/
theorem DepthFirst.remove (df : DepthFirst l) {a : Handle} (hn : l.next? g = some n)
    (hone : leads l g = [a]) (htarget : ∀ h ∈ l.handles, g ∉ (l.get h).targets) :
    DepthFirst (l.restrict (· != g)) := by
  have hng := ne_of_next? df.wf hn
  refine ⟨df.wf.restrict _, ?_, ?_, ?_⟩
  · intro h hm t ht
    rw [Listing.handles_restrict] at hm ⊢
    have hmh := List.mem_of_mem_filter hm
    obtain ⟨hmt, hl⟩ := df.targets h hmh t ht
    refine ⟨List.mem_filter.2 ⟨hmt, ?_⟩, hl⟩
    simpa using ne_of_mem_of_not_mem ht (htarget h hmh)
  · intro h hm hopen
    rw [Listing.handles_restrict, List.mem_filter] at hm
    rw [next?_restrict_ne df.wf hn (by simpa using hm.2), Option.isSome_map]
    exact df.next h hm.1 hopen
  · -- the instruction might as well lead to what stands below it, and is then left out
    have hprec : Precedes g n (l.handles ++ []) := by
      intro front back hs
      rw [List.append_nil] at hs
      have hafter := Listing.eq_after_of_suffix df.wf ⟨front, hs.symm⟩
      rw [hafter]
      exact hn
    have hself : Function.update (leads l) g [n] g = [n] := Function.update_self ..
    have hredirect := df.visits.redirect hone hself (fun x hx => Function.update_of_ne hx _ _)
      (by simp) hprec
    have hleads : ∀ h, h ≠ g → h ∈ l.handles → leads (l.restrict (· != g)) h =
        (Function.update (leads l) g [n] h).map (instead g n) := by
      intro h hne hm
      rw [Function.update_of_ne hne]
      exact leads_restrict_ne df.wf hn hne (htarget h hm)
    have hbypass := hredirect.bypass hself hng hleads fun hm => absurd hm (Set.notMem_empty g)
    have hfirst : (l.restrict (· != g)).first?.toList = l.first?.toList.map (instead g n) := by
      rw [Listing.first?_eq_head?, Listing.first?_eq_head?, Listing.handles_restrict]
      cases hh : l.handles with
      | nil => rfl
      | cons x xs =>
        by_cases hx : x = g
        · subst hx
          have hxs : xs = l.after x := Listing.eq_after_of_suffix df.wf ⟨[], hh.symm⟩
          rw [Listing.next?, ← hxs] at hn
          obtain ⟨ys, rfl⟩ := List.head?_eq_some_iff.1 hn
          rw [List.filter_cons_of_neg (by simp), List.filter_cons_of_pos (by simpa using hng)]
          simp
        · rw [List.filter_cons_of_pos (by simpa using hx)]
          simp [instead_of_ne n hx]
    rw [Set.empty_sdiff] at hbypass
    rw [hfirst, Listing.handles_restrict]
    exact hbypass

/-! ### Tidying -/

/-- A jump to the next instruction leads to its target, and something stands below it. -/
theorem exists_of_isRedundantGoto (hr : isRedundantGoto l g = true) :
    ∃ t n, l.get g = .jump .goto t ∧ l.next? g = some n := by
  rw [isRedundantGoto] at hr
  cases hget : l.get g with
  | jump op target =>
    rw [hget] at hr
    simp only [Bool.and_eq_true, beq_iff_eq] at hr
    obtain ⟨rfl, hr⟩ := hr
    cases hafter : l.after g with
    | nil => simp [hafter] at hr
    | cons n rest => exact ⟨target, n, rfl, by rw [Listing.next?, hafter]; rfl⟩
  | _ => rw [hget] at hr; cases hr

/-- A jump to the next instruction can be taken out of a listing in depth-first order. -/
theorem DepthFirst.remove_goto (df : DepthFirst l) (hr : isRedundantGoto l g = true) :
    DepthFirst (l.remove g) := by
  obtain ⟨t, n, hget, hn⟩ := exists_of_isRedundantGoto hr
  rw [Listing.remove_eq_restrict df.wf]
  refine df.remove (a := t) hn ?_ ?_
  · rw [leads_of_isTerminal (by rw [hget]; rfl), hget]
    rfl
  · intro h hm ht
    have hl := (df.targets h hm g ht).2
    rw [hget] at hl
    cases hl

/-- Removing jumps to the next instruction keeps a listing in depth-first order. -/
theorem DepthFirst.removeRedundantGotos (df : DepthFirst l) :
    DepthFirst (removeRedundantGotos l).2 := by
  rw [Flow.removeRedundantGotos]
  generalize l.handles = hs
  generalize 0 = count
  induction hs generalizing l count with
  | nil => exact df
  | cons h hs ih =>
    rw [List.foldl_cons]
    by_cases hr : isRedundantGoto l h = true
    · simp only [hr, if_true]
      exact ih (df.remove_goto hr) _
    · simp only [hr]
      exact ih df _

/-- A label that is no target can be taken out of a listing in depth-first order. -/
theorem DepthFirst.remove_label (df : DepthFirst l) (hm : g ∈ l.handles)
    (hl : (l.get g).isLabel = true) (htarget : ∀ h ∈ l.handles, g ∉ (l.get h).targets) :
    DepthFirst (l.restrict (· != g)) := by
  have hget : l.get g = .label := by
    cases hget : l.get g with
    | label => rfl
    | _ => rw [hget] at hl; cases hl
  have hopen : (l.get g).isTerminal = false := by rw [hget]; rfl
  obtain ⟨n, hn⟩ := Option.isSome_iff_exists.1 (df.next g hm hopen)
  refine df.remove hn (a := n) ?_ htarget
  rw [leads_of_next? hopen hn, hget]
  rfl

/-- Labels that are no targets can be taken out of a listing in depth-first order. -/
theorem DepthFirst.restrict_labels (df : DepthFirst l) {keep : Handle → Bool}
    (hkeep : ∀ h ∈ l.handles, keep h = false →
      (l.get h).isLabel = true ∧ ∀ a ∈ l.handles, h ∉ (l.get a).targets) :
    DepthFirst (l.restrict keep) := by
  -- On the handles that go: they are taken out one at a time, and the others stay labels without
  -- jumps to them.
  induction hgone : l.handles.filter (!keep ·) generalizing l with
  | nil =>
    have hall : l.restrict keep = l := by
      rw [Listing.restrict, Array.filter_eq_self.2]
      intro h hm
      by_contra hk
      have hmem : h ∈ l.handles.filter (!keep ·) :=
        List.mem_filter.2 ⟨Array.mem_toList_iff.2 hm, by simpa using hk⟩
      rw [hgone] at hmem
      cases hmem
    rw [hall]
    exact df
  | cons g gs ih =>
    have hmem : g ∈ l.handles.filter (!keep ·) := hgone ▸ List.mem_cons_self
    obtain ⟨hm, hk⟩ := List.mem_filter.1 hmem
    have hkg : keep g = false := by simpa using hk
    obtain ⟨hl, htarget⟩ := hkeep g hm hkg
    -- What is asked of the handles is asked of fewer handles now, and those that go are the
    -- remaining ones.
    have hrest := ih (df.remove_label hm hl htarget) (by
      intro h hm hk
      rw [Listing.handles_restrict] at hm
      obtain ⟨hl, htarget⟩ := hkeep h (List.mem_of_mem_filter hm) hk
      refine ⟨hl, fun a ha => htarget a ?_⟩
      rw [Listing.handles_restrict] at ha
      exact List.mem_of_mem_filter ha) (by
      have hnodup : (l.handles.filter (!keep ·)).Nodup := df.wf.nodup.filter _
      rw [hgone] at hnodup
      rw [Listing.handles_restrict, List.filter_comm, hgone, List.filter_cons_of_neg (by simp)]
      exact List.filter_eq_self.2 fun a ha => by
        simpa using ne_of_mem_of_not_mem ha (List.nodup_cons.1 hnodup).1)
    rw [Listing.restrict_restrict] at hrest
    convert hrest using 2
    funext h
    by_cases hh : h = g
    · rw [hh, hkg]
      simp
    · simp [hh]

/-- Removing labels that nothing refers to keeps a listing in depth-first order. -/
theorem depthFirst_removeUnusedLabels {b : Body} (df : DepthFirst b.listing) :
    DepthFirst (removeUnusedLabels b).2.listing := by
  rw [removeUnusedLabels_snd]
  refine df.restrict_labels ?_
  intro h hm hk
  rw [isUsed, Bool.not_eq_false', Bool.and_eq_true] at hk
  refine ⟨hk.1, fun a ha ht => ?_⟩
  have hmark : isMarked (mark b.listing.capacity (usedLabels b)) h = true :=
    isMarked_mark.2 ⟨List.mem_append_right _ (List.mem_flatMap.2 ⟨a, ha, ht⟩),
      df.wf.lt_capacity h hm⟩
  rw [hmark] at hk
  cases hk.2

/-- Tidying keeps a body in depth-first order. -/
theorem depthFirst_tidied {b : Body} (df : DepthFirst b.listing) : DepthFirst (tidied b).listing :=
  depthFirst_removeUnusedLabels (b := { b with listing := (removeRedundantGotos b.listing).2 })
    df.removeRedundantGotos

/-! ### What tidying takes out -/

/-- The count goes up with every jump that is taken out, and without one nothing changes. -/
theorem foldl_removeRedundantGoto (hs : List Handle) (count : Nat) (l : Listing) :
    let result := hs.foldl (fun state h => if isRedundantGoto state.2 h then
      (state.1 + 1, state.2.remove h) else (state.1, state.2)) (count, l)
    count ≤ result.1 ∧
      (result.1 = count ↔ ∀ h ∈ hs, isRedundantGoto l h = false) ∧
      (result.1 = count → result.2 = l) := by
  induction hs generalizing count l with
  | nil => simp
  | cons h hs ih =>
    simp only [List.foldl_cons]
    by_cases hr : isRedundantGoto l h = true
    · obtain ⟨hle, -, -⟩ := ih (count + 1) (l.remove h)
      simp only [hr, if_true]
      refine ⟨by omega, ⟨fun heq => by omega, fun hall => ?_⟩, fun heq => by omega⟩
      have hh := hall h List.mem_cons_self
      rw [hr] at hh
      cases hh
    · simp only [Bool.not_eq_true] at hr
      obtain ⟨hle, hiff, heq⟩ := ih count l
      simp only [hr, Bool.false_eq_true, if_false]
      refine ⟨hle, hiff.trans ?_, heq⟩
      simp [hr]

/-- No jump is taken out if and only if none leads to the next instruction, and then nothing changes.
-/
theorem removeRedundantGotos_eq_zero_iff :
    (removeRedundantGotos l).1 = 0 ↔ ∀ h ∈ l.handles, isRedundantGoto l h = false :=
  (foldl_removeRedundantGoto l.handles 0 l).2.1

/-- Where no jump is redundant nothing changes. -/
theorem removeRedundantGotos_of_eq_zero (h : (removeRedundantGotos l).1 = 0) :
    removeRedundantGotos l = (0, l) :=
  Prod.ext h ((foldl_removeRedundantGoto l.handles 0 l).2.2 h)

/-- When unused labels are gone there are none left. -/
theorem removeUnusedLabels_again (b : Body) :
    removeUnusedLabels (removeUnusedLabels b).2 = (0, (removeUnusedLabels b).2) := by
  have hused : ∀ h ∈ (removeUnusedLabels b).2.listing.handles,
      isUsed (removeUnusedLabels b).2 h = true := by
    rw [removeUnusedLabels_snd]
    intro h hm
    change h ∈ (b.listing.restrict (isUsed b)).handles at hm
    rw [Listing.handles_restrict] at hm
    have hu := (List.mem_filter.1 hm).2
    by_cases hl : (b.listing.get h).isLabel = true
    · rw [isUsed, hl, Bool.true_and, Bool.not_not, isMarked_mark] at hu
      obtain ⟨hu, hlt⟩ := hu
      -- what refers to the label is no label, so it stays
      have hstays : h ∈ usedLabels { b with listing := b.listing.restrict (isUsed b) } := by
        rcases List.mem_append.1 hu with hu | hu
        · exact List.mem_append_left _ hu
        · obtain ⟨a, ha, ht⟩ := List.mem_flatMap.1 hu
          refine List.mem_append_right _ (List.mem_flatMap.2 ⟨a, ?_, ht⟩)
          change a ∈ (b.listing.restrict (isUsed b)).handles
          rw [Listing.handles_restrict]
          refine List.mem_filter.2 ⟨ha, ?_⟩
          rw [isUsed]
          cases hget : b.listing.get a with
          | label => rw [hget] at ht; cases ht
          | _ => rfl
      have hmark : isMarked (mark b.listing.capacity
          (usedLabels { b with listing := b.listing.restrict (isUsed b) })) h = true :=
        isMarked_mark.2 ⟨hstays, hlt⟩
      rw [isUsed]
      change (!((b.listing.get h).isLabel && !isMarked (mark b.listing.capacity _) h)) = true
      rw [hmark]
      simp
    · rw [isUsed]
      change (!((b.listing.get h).isLabel && _)) = true
      rw [Bool.not_eq_true] at hl
      rw [hl]
      rfl
  have hall : (removeUnusedLabels b).2.listing.order.filter
      (isUsed (removeUnusedLabels b).2) = (removeUnusedLabels b).2.listing.order :=
    Array.filter_eq_self.2 fun h hm => hused h (Array.mem_toList_iff.2 hm)
  have hsnd : (removeUnusedLabels (removeUnusedLabels b).2).2 = (removeUnusedLabels b).2 := by
    rw [removeUnusedLabels_snd (removeUnusedLabels b).2, Listing.restrict, hall]
  refine Prod.ext ?_ hsnd
  change _ - (Array.filter (isUsed (removeUnusedLabels b).2) _).size = 0
  rw [hall, Nat.sub_self]

/-- Tidying takes out jumps without a condition and labels. -/
theorem exists_keep_tidied {b : Body} (wf : b.listing.WellFormed) (hb : b.listing.TargetsLinked) :
    ∃ keep, tidied b = { b with listing := b.listing.restrict keep } ∧
      ∀ h, keep h = false →
        (b.listing.get h).gotoTarget?.isSome = true ∨ (b.listing.get h).isLabel = true := by
  obtain ⟨keep, heq, -, hgoto⟩ := exists_pruned_removeRedundantGotos wf hb
  refine ⟨fun h => keep h && isUsed { b with listing := b.listing.restrict keep } h, ?_, ?_⟩
  · rw [tidied, heq, removeUnusedLabels_snd, ← Listing.restrict_restrict]
  · intro h hk
    rcases Bool.and_eq_false_iff.1 hk with hk | hk
    · exact .inl (hgoto h hk)
    · rw [isUsed, Bool.not_eq_false', Bool.and_eq_true] at hk
      exact .inr hk.1

/-! ### The second round -/

/-- In a body in depth-first order there is no dead code, and it is laid out as it stands. -/
theorem DepthFirst.removeUnreachable_eq {b : Body} (df : DepthFirst b.listing)
    (hguards : b.guards = []) : removeUnreachable b = (0, b) := by
  have hb : b.LabelsLinked := ⟨df.targets, by simp [hguards]⟩
  have hlive : ∀ h ∈ b.listing.handles, isLive b h = true :=
    fun h hm => (isLive_iff df.wf hb hguards).2 (df.reaches h hm)
  have hall : b.listing.order.filter (isLive b) = b.listing.order :=
    Array.filter_eq_self.2 fun h hm => hlive h (Array.mem_toList_iff.2 hm)
  refine Prod.ext ?_ ?_
  · change _ - (Array.filter (isLive b) _).size = 0
    rw [hall, Nat.sub_self]
  · rw [removeUnreachable_snd, Listing.restrict, hall]

/-- A body that has no dead code and is laid out already is tidied only. -/
theorem normalize_eq_tidied {b : Body} (h : b.guards = [] → DepthFirst b.listing) :
    normalize b =
      ({ gotos := (removeRedundantGotos b.listing).1
         labels := (removeUnusedLabels { b with listing := (removeRedundantGotos b.listing).2 }).1
         sorted := b.guards.isEmpty }, tidied b) := by
  cases hguards : b.guards.isEmpty with
  | false =>
    rw [normalize, hguards]
    rfl
  | true =>
    have hnil := List.isEmpty_iff.1 hguards
    have df := h hnil
    have hsorted : ({ b with listing := sortBlocks b.listing } : Body) = b := by
      rw [df.sortBlocks_eq]
    rw [normalize, hguards]
    simp only [df.removeUnreachable_eq hnil, hsorted, if_true]
    rfl

/-- A normalized body without ranges is in depth-first order. -/
theorem depthFirst_normalize {b : Body} (wf : b.listing.WellFormed) (hb : b.LabelsLinked)
    (hs : b.Stays) (hguards : b.guards = []) : DepthFirst (normalize b).2.listing := by
  rw [normalize_snd, hguards]
  exact depthFirst_tidied (b := sorted b)
    (allLive_removeUnreachable wf hb hs hguards).depthFirst_sortBlocks

/-- Tidying leaves all targets linked. -/
theorem targetsLinked_tidied {b : Body} (wf : b.listing.WellFormed)
    (hl : b.listing.TargetsLinked) : (tidied b).listing.TargetsLinked := by
  obtain ⟨keep, heq, -, hgoto⟩ := exists_pruned_removeRedundantGotos wf hl
  have hl' := targetsLinked_restrict hl fun h hh _ => keep_of_isLabel hgoto hh
  rw [tidied, heq, removeUnusedLabels_snd]
  intro h hm t ht
  change h ∈ ((b.listing.restrict keep).restrict _).handles at hm
  rw [Listing.handles_restrict] at hm
  obtain ⟨hmt, hlabel⟩ := hl' h (List.mem_of_mem_filter hm) t ht
  refine ⟨?_, hlabel⟩
  change t ∈ ((b.listing.restrict keep).restrict _).handles
  rw [Listing.handles_restrict]
  refine List.mem_filter.2 ⟨hmt, isUsed_of_mem (wf.restrict keep) hmt ?_⟩
  exact List.mem_append_right _ (List.mem_flatMap.2 ⟨h, List.mem_of_mem_filter hm, ht⟩)

/-- A body that has no dead code, is laid out already and has no unused label is left alone if and only
if no jump leads to the next instruction. -/
theorem normalize_eq_self_iff {b : Body} (h : b.guards = [] → DepthFirst b.listing)
    (hused : removeUnusedLabels b = (0, b)) :
    normalize b = ({ sorted := b.guards.isEmpty }, b) ↔
      ∀ h ∈ b.listing.handles, isRedundantGoto b.listing h = false := by
  rw [normalize_eq_tidied h, ← removeRedundantGotos_eq_zero_iff]
  constructor
  · exact fun heq => congrArg (fun result => result.1.gotos) heq
  · intro hgotos
    rw [tidied, removeRedundantGotos_of_eq_zero hgotos]
    change (({ labels := (removeUnusedLabels b).1, sorted := _ } : Normalized),
      (removeUnusedLabels b).2) = _
    rw [hused]

/-- A normalized body has no dead code and is laid out as it stands, its targets are linked, and it has
no unused label. -/
theorem normalized_spec {b : Body} (wf : b.listing.WellFormed) (hb : b.LabelsLinked)
    (hs : b.Stays) :
    ((normalize b).2.guards = [] → DepthFirst (normalize b).2.listing) ∧
      (normalize b).2.listing.WellFormed ∧ (normalize b).2.listing.TargetsLinked ∧
      removeUnusedLabels (normalize b).2 = (0, (normalize b).2) := by
  have hguards : (normalize b).2.guards = b.guards := (preserves_normalize b wf hb hs).guards
  have hsearch : b.guards = [] → DepthFirst (normalize b).2.listing :=
    depthFirst_normalize wf hb hs
  refine ⟨fun h => hsearch (hguards.symm.trans h), ?_, ?_, ?_⟩
  · cases hempty : b.guards with
    | nil => exact (hsearch hempty).wf
    | cons g guards =>
      obtain ⟨keep, heq, -⟩ := exists_keep_tidied wf hb.targets
      rw [normalize_snd, hempty, List.isEmpty_cons]
      exact heq ▸ wf.restrict keep
  · cases hempty : b.guards with
    | nil => exact (hsearch hempty).targets
    | cons g guards =>
      rw [normalize_snd, hempty, List.isEmpty_cons]
      exact targetsLinked_tidied wf hb.targets
  · rw [normalize_snd, tidied]
    exact removeUnusedLabels_again _

/-- The second round of the normalizer finds no dead code and lays out nothing anew: it takes out
jumps without a condition and labels only. It changes nothing if and only if the first round left no
jump to the next instruction. -/
theorem normalize_normalize (b : Body) (wf : b.listing.WellFormed) (hb : b.LabelsLinked)
    (hs : b.Stays) :
    (normalize (normalize b).2).1.unreachable = 0 ∧
      (∃ keep, (normalize (normalize b).2).2 =
          { (normalize b).2 with listing := (normalize b).2.listing.restrict keep } ∧
        ∀ h, keep h = false → ((normalize b).2.listing.get h).gotoTarget?.isSome = true ∨
          ((normalize b).2.listing.get h).isLabel = true) ∧
      (normalize (normalize b).2 = ({ sorted := b.guards.isEmpty }, (normalize b).2) ↔
        ∀ h ∈ (normalize b).2.listing.handles,
          isRedundantGoto (normalize b).2.listing h = false) := by
  obtain ⟨hsearch, wf', hl', hused⟩ := normalized_spec wf hb hs
  have hguards : (normalize b).2.guards = b.guards := (preserves_normalize b wf hb hs).guards
  rw [← hguards]
  generalize (normalize b).2 = x at hsearch wf' hl' hused
  refine ⟨?_, ?_, normalize_eq_self_iff hsearch hused⟩
  · rw [normalize_eq_tidied hsearch]
  · rw [normalize_eq_tidied hsearch]
    exact exists_keep_tidied wf' hl'

/-- A test over two ways that jump to one exit, of which the second stands between the first and the
exit. -/
def crossedJumps : Body where
  listing :=
    { nodes := #[⟨.slot .iload 0, none⟩, ⟨.jump .ifeq 3, none⟩, ⟨.jump .goto 5, none⟩,
        ⟨.label, none⟩, ⟨.jump .goto 6, none⟩, ⟨.label, none⟩, ⟨.label, none⟩,
        ⟨.plain .returnVoid, none⟩]
      order := #[0, 1, 2, 3, 4, 5, 6, 7] }

/-- The body after one round, with a new jump to the exit where the branch is not taken. -/
def crossedOnce : Body where
  listing :=
    { nodes := crossedJumps.listing.nodes.push ⟨.jump .goto 6, none⟩
      order := #[0, 1, 8, 3, 6, 7] }

/-- The body after two rounds. -/
def crossedTwice : Body where
  listing := { crossedOnce.listing with order := #[0, 1, 3, 7] }

/-- The first call leaves a jump that has become redundant behind the scan. -/
theorem normalize_crossedJumps :
    normalize crossedJumps = ({ gotos := 2, labels := 1, sorted := true }, crossedOnce) := by
  cbv

/-- The second call removes it. -/
theorem normalize_crossedOnce :
    normalize crossedOnce = ({ gotos := 1, labels := 1, sorted := true }, crossedTwice) := by
  cbv

/-- The shape of a listing is as long as the listing. -/
theorem length_shape (l : Listing) : l.shape.length = l.length := by
  rw [Listing.shape, Listing.instructions, List.length_map, List.length_map]
  rfl

/-- The first round leaves the jump of one way: it is looked at while the jump of the other way still
stands between it and the exit. The second round takes it out. -/
theorem normalize_normalize_crossedJumps :
    crossedJumps.listing.WellFormed ∧ crossedJumps.LabelsLinked ∧ crossedJumps.Stays ∧
      (normalize crossedJumps).2.listing.order = #[0, 1, 8, 3, 6, 7] ∧
      isRedundantGoto (normalize crossedJumps).2.listing 8 = true ∧
      (normalize (normalize crossedJumps).2).1 =
        { unreachable := 0, gotos := 1, labels := 1, sorted := true } ∧
      (normalize (normalize crossedJumps).2).2.listing.shape ≠
        (normalize crossedJumps).2.listing.shape := by
  have hb : crossedJumps.LabelsLinked := ⟨by decide, by decide⟩
  rw [normalize_crossedJumps, normalize_crossedOnce]
  refine ⟨⟨by decide, by decide⟩, hb, stays_of_forall hb (by decide), rfl, by cbv, rfl, ?_⟩
  intro heq
  have hlength := congrArg List.length heq
  rw [length_shape, length_shape] at hlength
  exact absurd hlength (by decide)

/-- A loop comes out of the second round as it came out of the first. -/
theorem normalize_normalize_countingLoop :
    countingLoop.listing.WellFormed ∧ countingLoop.LabelsLinked ∧ countingLoop.Stays ∧
      normalize (normalize countingLoop).2 = ({ sorted := true }, (normalize countingLoop).2) := by
  have wf : countingLoop.listing.WellFormed := ⟨by decide, by decide⟩
  have hb : countingLoop.LabelsLinked := ⟨by decide, by decide⟩
  have hs : countingLoop.Stays := stays_of_forall hb (by decide)
  have hnone : ∀ h ∈ (normalize countingLoop).2.listing.handles,
      isRedundantGoto (normalize countingLoop).2.listing h = false := by
    have hall : (fun l : Listing => l.handles.all (!isRedundantGoto l ·))
        (normalize countingLoop).2.listing = true := by cbv
    simpa using hall
  exact ⟨wf, hb, hs, (normalize_normalize countingLoop wf hb hs).2.2.2 hnone⟩

end Unscramble.Flow

/-! ### Rounds of the normalizer -/

namespace Unscramble.Flow

variable {l : Listing} {b : Body} {h : Handle}

/-! ### Counting jumps -/

/-- The number of linked jumps without a condition. -/
def gotoCount (l : Listing) : Nat :=
  l.handles.countP fun h => (l.get h).gotoTarget?.isSome

/-- Taking out a jump to the next instruction leaves one jump less. -/
theorem gotoCount_remove (hr : isRedundantGoto l h = true) :
    gotoCount (l.remove h) + 1 = gotoCount l := by
  obtain ⟨t, _, hget, -⟩ := exists_of_isRedundantGoto hr
  have hm := mem_handles_of_isRedundantGoto hr
  have hgoto : (l.get h).gotoTarget?.isSome = true := by rw [hget]; rfl
  have hhandles : (l.remove h).handles = l.handles.erase h := Array.toList_erase ..
  have hpos : 0 < l.handles.countP fun h => (l.get h).gotoTarget?.isSome :=
    List.countP_pos_iff.2 ⟨h, hm, hgoto⟩
  have herase : gotoCount (l.remove h) = gotoCount l - 1 := by
    rw [gotoCount, hhandles]
    change (l.handles.erase h).countP (fun h => (l.get h).gotoTarget?.isSome) = _
    rw [List.countP_erase, if_pos ⟨hm, hgoto⟩]
    rfl
  rw [gotoCount] at herase ⊢
  rw [herase, gotoCount]
  omega

/-- The jumps that are counted as taken out are gone. -/
theorem gotoCount_removeRedundantGotos (l : Listing) :
    gotoCount (removeRedundantGotos l).2 + (removeRedundantGotos l).1 = gotoCount l := by
  have hfold : ∀ (hs : List Handle) (count : Nat) (l : Listing),
      let result := hs.foldl (fun state h => if isRedundantGoto state.2 h then
        (state.1 + 1, state.2.remove h) else (state.1, state.2)) (count, l)
      gotoCount result.2 + result.1 = gotoCount l + count := by
    intro hs
    induction hs with
    | nil => exact fun _ _ => rfl
    | cons h hs ih =>
      intro count l
      rw [List.foldl_cons]
      by_cases hr : isRedundantGoto l h = true
      · simp only [hr, if_true]
        have hone := gotoCount_remove hr
        have hrest := ih (count + 1) (l.remove h)
        dsimp only at hrest
        omega
      · simp only [hr]
        exact ih count l
  exact hfold l.handles 0 l

/-- Taking out handles leaves no more jumps. -/
theorem gotoCount_restrict_le (keep : Handle → Bool) : gotoCount (l.restrict keep) ≤ gotoCount l := by
  rw [gotoCount, gotoCount, Listing.handles_restrict]
  exact List.filter_sublist.countP_le

/-! ### Arranged bodies -/

/-- A body as the normalizer leaves it: it has no dead code and is laid out as it stands unless it
has ranges, its targets are linked, and it has no unused label. -/
structure Arranged (b : Body) : Prop where
  /-- Without ranges, the instructions stand in depth-first order. -/
  search : b.guards = [] → DepthFirst b.listing
  /-- The listing is well formed. -/
  wf : b.listing.WellFormed
  /-- The targets are linked. -/
  targets : b.listing.TargetsLinked
  /-- Every label is used. -/
  used : removeUnusedLabels b = (0, b)

/-- A normalized body is arranged. -/
theorem arranged_normalize (wf : b.listing.WellFormed) (hb : b.LabelsLinked) (hs : b.Stays) :
    Arranged (normalize b).2 := by
  obtain ⟨search, wf', targets, used⟩ := normalized_spec wf hb hs
  exact ⟨search, wf', targets, used⟩

namespace Arranged

/-- What a further round takes out. -/
theorem exists_keep (a : Arranged b) :
    ∃ keep, (normalize b).2 = { b with listing := b.listing.restrict keep } ∧
      ∀ h, keep h = false →
        (b.listing.get h).gotoTarget?.isSome = true ∨ (b.listing.get h).isLabel = true := by
  rw [normalize_eq_tidied a.search]
  exact exists_keep_tidied a.wf a.targets

/-- A further round leaves the body arranged. -/
theorem normalize (a : Arranged b) : Arranged (normalize b).2 := by
  obtain ⟨keep, heq, -⟩ := a.exists_keep
  have htidied : (Flow.normalize b).2 = tidied b := by rw [normalize_eq_tidied a.search]
  refine ⟨fun hguards => ?_, ?_, ?_, ?_⟩
  · rw [heq] at hguards
    rw [htidied]
    exact depthFirst_tidied (a.search hguards)
  · rw [heq]
    exact a.wf.restrict keep
  · rw [htidied]
    exact targetsLinked_tidied a.wf a.targets
  · rw [htidied, tidied]
    exact removeUnusedLabels_again _

/-- A further round changes nothing or leaves fewer jumps. -/
theorem normalize_cases (a : Arranged b) :
    Flow.normalize b = ({ sorted := b.guards.isEmpty }, b) ∨
      gotoCount (Flow.normalize b).2.listing < gotoCount b.listing := by
  by_cases hnone : (removeRedundantGotos b.listing).1 = 0
  · exact .inl ((normalize_eq_self_iff a.search a.used).2 (removeRedundantGotos_eq_zero_iff.1 hnone))
  · refine .inr ?_
    have hcount := gotoCount_removeRedundantGotos b.listing
    have hlabels : gotoCount (tidied b).listing ≤ gotoCount (removeRedundantGotos b.listing).2 := by
      rw [tidied, removeUnusedLabels_snd]
      exact gotoCount_restrict_le _
    rw [normalize_eq_tidied a.search]
    dsimp only
    omega

end Arranged

/-! ### Rounds -/

/-- A body after some rounds of the normalizer. -/
def rounds (b : Body) (k : Nat) : Body :=
  (fun b => (normalize b).2)^[k] b

/-- One round more normalizes once more. -/
theorem rounds_succ (b : Body) (k : Nat) : rounds b (k + 1) = (normalize (rounds b k)).2 :=
  Function.iterate_succ_apply' ..

/-- Every round leaves the body arranged, and with its ranges or without any. -/
theorem arranged_rounds (wf : b.listing.WellFormed) (hb : b.LabelsLinked) (hs : b.Stays) (k : Nat) :
    Arranged (rounds b (k + 1)) ∧ (rounds b (k + 1)).guards = b.guards := by
  induction k with
  | zero => exact ⟨arranged_normalize wf hb hs, (preserves_normalize b wf hb hs).guards⟩
  | succ k ih =>
    obtain ⟨arranged, hguards⟩ := ih
    obtain ⟨keep, heq, -⟩ := arranged.exists_keep
    rw [rounds_succ b (k + 1)]
    refine ⟨arranged.normalize, ?_⟩
    rw [heq]
    exact hguards

/-- A round changes nothing and reports nothing. -/
def Rests (b : Body) : Prop :=
  normalize b = ({ sorted := b.guards.isEmpty }, b)

/-- A body that rests keeps resting. -/
theorem rests_rounds_succ {k : Nat} (h : Rests (rounds b k)) :
    rounds b (k + 1) = rounds b k ∧ Rests (rounds b (k + 1)) := by
  have hsame : rounds b (k + 1) = rounds b k := by
    rw [rounds_succ, h]
  exact ⟨hsame, hsame ▸ h⟩

/-- After a number of further rounds the body rests, or each of them has taken out a jump. -/
theorem rests_or_gotoCount_le (wf : b.listing.WellFormed) (hb : b.LabelsLinked) (hs : b.Stays)
    (k : Nat) :
    Rests (rounds b (k + 1)) ∨
      gotoCount (rounds b (k + 1)).listing + k ≤ gotoCount (rounds b 1).listing := by
  induction k with
  | zero => exact .inr le_rfl
  | succ k ih =>
    rcases ih with hrests | hle
    · exact .inl (rests_rounds_succ hrests).2
    · rcases (arranged_rounds wf hb hs k).1.normalize_cases with hrests | hlt
      · exact .inl (rests_rounds_succ hrests).2
      · rw [← rounds_succ] at hlt
        exact .inr (by omega)

/-- A body rests after as many further rounds as the first one left jumps. -/
theorem rests_rounds (wf : b.listing.WellFormed) (hb : b.LabelsLinked) (hs : b.Stays) :
    Rests (rounds b (gotoCount (rounds b 1).listing + 1)) := by
  rcases rests_or_gotoCount_le wf hb hs (gotoCount (rounds b 1).listing) with hrests | hle
  · exact hrests
  · -- no jump is left that a further round could take out
    rcases (arranged_rounds wf hb hs (gotoCount (rounds b 1).listing)).1.normalize_cases with
      hrests | hlt
    · exact hrests
    · omega

/-- **The rounds of the normalizer come to rest**: from the second one on a round finds no dead code,
changes no instruction and keeps the order, and what it takes out are jumps without a condition and
labels. After as many further rounds as the first one left jumps, every round changes nothing. -/
theorem rounds_settle (b : Body) (wf : b.listing.WellFormed) (hb : b.LabelsLinked) (hs : b.Stays) :
    (∀ k, 1 ≤ k →
      (normalize (rounds b k)).1.unreachable = 0 ∧
      (∀ h, (rounds b (k + 1)).listing.get h = (rounds b k).listing.get h) ∧
      (rounds b (k + 1)).listing.handles.Sublist (rounds b k).listing.handles ∧
      ∀ h ∈ (rounds b k).listing.handles, h ∉ (rounds b (k + 1)).listing.handles →
        ((rounds b k).listing.get h).gotoTarget?.isSome = true ∨
          ((rounds b k).listing.get h).isLabel = true) ∧
    ∀ k, gotoCount (rounds b 1).listing + 1 ≤ k →
      rounds b k = rounds b (gotoCount (rounds b 1).listing + 1) ∧
      normalize (rounds b k) = ({ sorted := b.guards.isEmpty }, rounds b k) := by
  constructor
  · intro k hk
    -- From the second round on the order is that of the search, so the round only tidies.
    obtain ⟨k, rfl⟩ := Nat.exists_eq_add_of_le' hk
    obtain ⟨arranged, -⟩ := arranged_rounds wf hb hs k
    obtain ⟨keep, heq, hkeep⟩ := arranged.exists_keep
    rw [rounds_succ b (k + 1), heq]
    refine ⟨by rw [normalize_eq_tidied arranged.search], fun _ => rfl, ?_, ?_⟩
    · change ((rounds b (k + 1)).listing.restrict keep).handles.Sublist _
      rw [Listing.handles_restrict]
      exact List.filter_sublist
    · intro h hm hgone
      change h ∉ ((rounds b (k + 1)).listing.restrict keep).handles at hgone
      rw [Listing.handles_restrict, List.mem_filter, not_and, Bool.not_eq_true] at hgone
      exact hkeep h (hgone hm)
  · intro k hk
    obtain ⟨m, rfl⟩ := Nat.exists_eq_add_of_le hk
    -- Once a round rests, all later ones do.
    have hrest : ∀ m, rounds b (gotoCount (rounds b 1).listing + 1 + m) =
        rounds b (gotoCount (rounds b 1).listing + 1) ∧
        Rests (rounds b (gotoCount (rounds b 1).listing + 1 + m)) := by
      intro m
      induction m with
      | zero => exact ⟨rfl, rests_rounds wf hb hs⟩
      | succ m ih =>
        obtain ⟨hsame, hrests⟩ := rests_rounds_succ ih.2
        exact ⟨hsame.trans ih.1, hrests⟩
    refine ⟨(hrest m).1, ?_⟩
    rw [← (arranged_rounds wf hb hs _).2, ← (hrest m).1]
    exact (hrest m).2

/-- The crossed jumps come to rest after the second round, which takes out the one jump that the first
round left. -/
theorem rounds_settle_crossedJumps :
    crossedJumps.listing.WellFormed ∧ crossedJumps.LabelsLinked ∧ crossedJumps.Stays ∧
      gotoCount (rounds crossedJumps 1).listing = 1 ∧
      (normalize (rounds crossedJumps 1)).1.unreachable = 0 ∧
      (rounds crossedJumps 2).listing.handles.Sublist (rounds crossedJumps 1).listing.handles ∧
      rounds crossedJumps 2 ≠ rounds crossedJumps 1 ∧
      ∀ k, 2 ≤ k → rounds crossedJumps k = rounds crossedJumps 2 := by
  have wf : crossedJumps.listing.WellFormed := ⟨by decide, by decide⟩
  have hb : crossedJumps.LabelsLinked := ⟨by decide, by decide⟩
  have hs : crossedJumps.Stays := stays_of_forall hb (by decide)
  obtain ⟨hstep, hrest⟩ := rounds_settle crossedJumps wf hb hs
  obtain ⟨hlive, -, hsub, -⟩ := hstep 1 le_rfl
  have hfirst : rounds crossedJumps 1 = crossedOnce := by
    rw [rounds_succ, rounds, Function.iterate_zero_apply, normalize_crossedJumps]
  have hsecond : rounds crossedJumps 2 = crossedTwice := by
    rw [rounds_succ, hfirst, normalize_crossedOnce]
  have hone : gotoCount (rounds crossedJumps 1).listing = 1 := by
    rw [hfirst]
    decide
  rw [hone] at hrest
  refine ⟨wf, hb, hs, hone, hlive, hsub, ?_, fun k hk => (hrest k hk).1⟩
  intro heq
  rw [hfirst, hsecond] at heq
  exact absurd (congrArg (·.listing.length) heq) (by decide)

end Unscramble.Flow
