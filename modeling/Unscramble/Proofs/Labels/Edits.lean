import Unscramble.Pattern.Basic
import Unscramble.Proofs.Flow.Placement

/-! # Edits that leave labels alone

Most edits of a listing put in, take out or change instructions that are no labels. Then every label
that was linked stays linked, in the same order, and no instruction gets a target that none had.

Main definition: `Listing.Edits`. Main statements: `Edits.mem_after`, `edits_foldl`, `edits_remove`,
`edits_insert`, `edits_replace`, `edits_modify`. -/

namespace Unscramble

open scoped List

namespace Listing

variable {l l' l'' : Listing} {h a b : Handle} {insn : Instruction Label}

/-! ### Handles behind others -/

/-- A handle stands behind another one if the two are linked in this order. -/
theorem mem_after_iff_sublist : b ∈ l.after a ↔ [a, b] <+ l.handles := by
  constructor
  · intro hb
    have ha : a ∈ l.handles := by
      by_contra ha
      rw [after_eq_tail, onward_eq_nil ha] at hb
      cases hb
    have hpair : [a, b] <+ l.onward a := by
      rw [onward_eq_cons ha]
      exact (List.singleton_sublist.2 hb).cons_cons a
    exact hpair.trans (l.onward_suffix a).sublist
  · intro hpair
    obtain ⟨front, back, hs, ha, hb⟩ := List.cons_sublist_iff.1 hpair
    obtain ⟨u, v, hfront, hu⟩ := List.eq_append_cons_of_mem ha
    have hsplit : l.handles = u ++ a :: (v ++ back) := by
      rw [hs, hfront, List.append_assoc, List.cons_append]
    rw [after_eq_tail, onward_of_split hsplit hu, List.tail_cons]
    exact List.mem_append_right v (List.singleton_sublist.1 hb)

/-- What stands behind a handle that stands behind another one stands behind both. -/
theorem after_suffix_after (wf : l.WellFormed) (hb : b ∈ l.after a) : l.after b <:+ l.after a := by
  obtain ⟨front, back, hs⟩ := List.append_of_mem hb
  have hsuffix : b :: back <:+ l.after a := ⟨front, hs.symm⟩
  rw [← eq_after_of_suffix wf (hsuffix.trans (l.after_suffix a))]
  exact (List.suffix_cons b back).trans hsuffix

/-! ### Labels -/

/-- The linked labels in sequence order. -/
def labels (l : Listing) : List Label :=
  l.handles.filter fun h => (l.get h).isLabel

/-- A label of a listing is a handle of it and a label. -/
theorem mem_labels_iff : h ∈ l.labels ↔ h ∈ l.handles ∧ (l.get h).isLabel = true :=
  List.mem_filter

/-- A listing is edited without a change to its labels. -/
structure Edits (l l' : Listing) : Prop where
  /-- Handles are linked once. -/
  wf : l'.WellFormed
  /-- Nodes stay. -/
  capacity : l.capacity ≤ l'.capacity
  /-- A label stays one, and nothing else becomes one. -/
  isLabel : ∀ h < l.capacity, (l'.get h).isLabel = (l.get h).isLabel
  /-- Linked labels stay linked, in order. -/
  labels : l.labels <+ l'.labels
  /-- There are no new targets. -/
  targets : ∀ h ∈ l'.handles, ∀ t ∈ (l'.get h).targets, ∃ h₀ ∈ l.handles, t ∈ (l.get h₀).targets

/-- A listing is edited by doing nothing. -/
theorem Edits.refl (wf : l.WellFormed) : l.Edits l :=
  ⟨wf, Nat.le_refl _, fun _ _ => rfl, List.Sublist.refl _, fun h hm _ ht => ⟨h, hm, ht⟩⟩

/-- What is edited in two steps is edited. -/
theorem Edits.trans (e : l.Edits l') (e' : l'.Edits l'') : l.Edits l'' := by
  refine ⟨e'.wf, e.capacity.trans e'.capacity, ?_, e.labels.trans e'.labels, ?_⟩
  · intro h hlt
    rw [e'.isLabel h (hlt.trans_le e.capacity), e.isLabel h hlt]
  · intro h hm t ht
    obtain ⟨h₁, hm₁, ht₁⟩ := e'.targets h hm t ht
    exact e.targets h₁ hm₁ t ht₁

/-- Labels that stand one behind the other still do. -/
theorem Edits.mem_after (e : l.Edits l') (ha : a ∈ l.labels) (hb : b ∈ l.labels)
    (h : b ∈ l.after a) : b ∈ l'.after a := by
  have hpair : [a, b] <+ l.labels := by
    have hfilter := (mem_after_iff_sublist.1 h).filter fun h => (l.get h).isLabel
    rwa [List.filter_eq_self.2] at hfilter
    intro c hc
    rcases List.mem_pair.1 hc with rfl | rfl
    · exact (mem_labels_iff.1 ha).2
    · exact (mem_labels_iff.1 hb).2
  exact mem_after_iff_sublist.2 ((hpair.trans e.labels).trans List.filter_sublist)

/-- What was linked and no label is still no label. -/
theorem Edits.not_label (e : l.Edits l') (wf : l.WellFormed) (hm : h ∈ l.handles)
    (hlabel : (l.get h).isLabel = false) : h < l'.capacity ∧ (l'.get h).isLabel = false := by
  have hlt := wf.lt_capacity h hm
  exact ⟨hlt.trans_le e.capacity, by rw [e.isLabel h hlt, hlabel]⟩

/-- Edits one after the other, each of which may use that the listing was only edited before. -/
theorem edits_foldl {σ α : Type} (view : σ → Listing) {f : σ → α → σ} {items : List α} {s : σ}
    (wf : (view s).WellFormed)
    (h : ∀ s', (view s).Edits (view s') → ∀ a ∈ items, (view s').Edits (view (f s' a))) :
    (view s).Edits (view (items.foldl f s)) := by
  suffices hall : ∀ (done : List α) s', (view s).Edits (view s') → (∀ a ∈ done, a ∈ items) →
      (view s).Edits (view (done.foldl f s')) from
    hall items s (Edits.refl wf) fun _ ha => ha
  intro done
  induction done with
  | nil => exact fun s' e _ => e
  | cons a done ih =>
    intro s' e hmem
    exact ih (f s' a) (e.trans (h s' e a (hmem a List.mem_cons_self)))
      fun c hc => hmem c (List.mem_cons_of_mem a hc)

/-! ### Taking handles out -/

/-- Taking out what is no label leaves labels alone. -/
theorem edits_remove (wf : l.WellFormed) (hlabel : (l.get h).isLabel = false) :
    l.Edits (l.remove h) := by
  rw [remove_eq_restrict wf]
  refine ⟨wf.restrict _, Nat.le_refl _, fun _ _ => rfl, ?_, ?_⟩
  · have hsame : (l.restrict (· != h)).labels = l.labels := by
      rw [labels, labels, handles_restrict, List.filter_filter]
      refine List.filter_congr fun c _ => ?_
      by_cases hc : c = h
      · subst hc
        rw [get_restrict, hlabel]
        rfl
      · rw [get_restrict, bne_iff_ne.2 hc, Bool.and_true]
    rw [hsame]
  · intro c hc t ht
    rw [handles_restrict] at hc
    exact ⟨c, List.mem_of_mem_filter hc, ht⟩

/-- Taking out handles that are no labels, one after the other. -/
theorem edits_foldl_remove (wf : l.WellFormed) {hs : List Handle}
    (hlabel : ∀ h ∈ hs, h < l.capacity ∧ (l.get h).isLabel = false) :
    l.Edits (hs.foldl Listing.remove l) := by
  refine edits_foldl (fun l => l) (s := l) wf ?_
  intro l' e h hh
  obtain ⟨hlt, hfalse⟩ := hlabel h hh
  exact edits_remove e.wf (by rw [e.isLabel h hlt, hfalse])

/-! ### Putting handles in -/

/-- A handle is put between two parts of the sequence, in front of the anchor if that is linked. -/
theorem handles_insertBefore (l : Listing) (anchor h : Handle) :
    ∃ front back, l.handles = front ++ back ∧
      (l.insertBefore anchor h).handles = front ++ h :: back ∧
      anchor ∉ front ∧ (anchor ∈ l.handles → back = l.onward anchor) := by
  refine ⟨l.handles.takeWhile (· != anchor), l.handles.dropWhile (· != anchor), ?_, ?_, ?_, ?_⟩
  · rw [List.takeWhile_append_dropWhile]
  · rw [insertBefore, List.span_eq_takeWhile_dropWhile]
    rfl
  · intro hmem
    simpa using List.mem_takeWhile_imp hmem
  · intro _
    rfl

/-- A new node that has no targets is put in somewhere. -/
theorem edits_insert (wf : l.WellFormed) (anchor : Handle) (hinsn : insn.targets = []) :
    l.Edits ((l.create insn).2.insertBefore anchor (l.create insn).1) := by
  have hkeeps := Flow.keeps_create l insn
  obtain ⟨front, back, hs, hs', -⟩ := (l.create insn).2.handles_insertBefore anchor (l.create insn).1
  have hhandles : l.handles = front ++ back := hs
  have hget : ∀ h, ((l.create insn).2.insertBefore anchor (l.create insn).1).get h =
      (l.create insn).2.get h := fun _ => rfl
  have hsame : ∀ h < l.capacity,
      ((l.create insn).2.insertBefore anchor (l.create insn).1).get h = l.get h :=
    fun h hlt => hkeeps.same h hlt
  have hnew : (l.create insn).1 ∉ l.handles := fun hm =>
    Nat.lt_irrefl _ (wf.lt_capacity _ hm)
  -- The new order is the old one with the new node somewhere, so being linked and distinct go over.
  have hperm : (front ++ (l.create insn).1 :: back).Perm ((l.create insn).1 :: l.handles) := by
    rw [hhandles]
    exact List.perm_middle
  refine ⟨⟨?_, ?_⟩, hkeeps.capacity, ?_, ?_, ?_⟩
  · rw [hs']
    exact hperm.nodup_iff.2 (List.nodup_cons.2 ⟨hnew, wf.nodup⟩)
  · intro h hm
    rw [hs'] at hm
    change h < (l.create insn).2.capacity
    rw [Flow.capacity_create]
    rcases List.mem_cons.1 (hperm.mem_iff.1 hm) with rfl | hm
    · exact Nat.lt_succ_self _
    · exact (wf.lt_capacity h hm).trans (Nat.lt_succ_self _)
  · intro h hlt
    rw [hsame h hlt]
  -- The new node may be a label itself, so the old labels are only part of the new ones.
  · have hlabels : l.labels = l.handles.filter fun h =>
        (((l.create insn).2.insertBefore anchor (l.create insn).1).get h).isLabel :=
      List.filter_congr fun h hm => by rw [hsame h (wf.lt_capacity h hm)]
    rw [hlabels, labels, hs', hhandles]
    exact (List.Sublist.append (List.Sublist.refl _) (List.sublist_cons_self _ _)).filter _
  · intro h hm t ht
    rw [hs'] at hm
    rcases List.mem_cons.1 (hperm.mem_iff.1 hm) with rfl | hm
    · have hnode : (l.create insn).2.get (l.create insn).1 = insn := Flow.get_create l insn
      rw [hget, hnode, hinsn] at ht
      cases ht
    · rw [hsame h (wf.lt_capacity h hm)] at ht
      exact ⟨h, hm, ht⟩

/-- A label that is put in is linked. -/
theorem mem_labels_insert (l : Listing) (anchor : Handle) : (l.create .label).1 ∈
    ((l.create .label).2.insertBefore anchor (l.create .label).1).labels := by
  obtain ⟨front, back, -, hs', -⟩ := (l.create .label).2.handles_insertBefore anchor
    (l.create .label).1
  refine mem_labels_iff.2 ⟨by rw [hs']; simp, ?_⟩
  change ((l.create .label).2.get l.capacity).isLabel = true
  rw [Flow.get_create]
  rfl

/-- A node in front of a handle stands behind whatever the handle stands behind. -/
theorem mem_after_insert (wf : l.WellFormed) {point : Handle} (h : point ∈ l.after a) :
    (l.create insn).1 ∈ ((l.create insn).2.insertBefore point (l.create insn).1).after a := by
  obtain ⟨front, back, hs, hs', -, hback⟩ :=
    (l.create insn).2.handles_insertBefore point (l.create insn).1
  have hs : l.handles = front ++ back := hs
  have hm : point ∈ l.handles := (l.after_suffix a).subset h
  have hback : back = l.onward point := hback hm
  -- The handle asked about is in front of the point, and so in front of what is put in there.
  have ha : a ∈ front := by
    obtain ⟨u, v, hv⟩ := List.append_of_mem h
    have hsuffix : point :: v <:+ l.after a := ⟨u, hv.symm⟩
    have honward := eq_onward_of_suffix wf (hsuffix.trans (l.after_suffix a))
    obtain ⟨w, hw⟩ := l.onward_suffix a
    have hlinked : a ∈ l.handles := by
      by_contra hlinked
      rw [after_eq_tail, onward_eq_nil hlinked] at h
      cases h
    rw [onward_eq_cons hlinked, hv, honward, ← hback] at hw
    have hcancel : w ++ a :: u ++ back = front ++ back := by
      rw [← hs, ← hw]
      simp
    rw [← List.append_cancel_right hcancel]
    simp
  refine mem_after_iff_sublist.2 ?_
  rw [hs']
  exact (List.singleton_sublist.2 ha).append (List.singleton_sublist.2 List.mem_cons_self)

/-! ### Changing instructions -/

/-- Replacing an instruction changes that one only. -/
theorem get_replace (l : Listing) (h a : Handle) (insn : Instruction Label) :
    (l.replace h insn).get a = if h = a ∧ h < l.capacity then insn else l.get a := by
  rw [get, get, replace, Array.getElem?_modify]
  by_cases hne : h = a
  · subst hne
    by_cases hlt : h < l.capacity
    · have hnode : l.nodes[h]? = some l.nodes[h] := Array.getElem?_eq_getElem hlt
      rw [if_pos rfl, if_pos ⟨rfl, hlt⟩, hnode]
      rfl
    · have hnode : l.nodes[h]? = none := Array.getElem?_eq_none (Nat.not_lt.1 hlt)
      rw [if_pos rfl, if_neg fun hand => hlt hand.2, hnode]
      rfl
  · rw [if_neg hne, if_neg fun hand => hne hand.1]

/-- A change of instructions in place that keeps labels and makes no new targets. -/
theorem edits_of_get (wf : l.WellFormed) (hhandles : l'.handles = l.handles)
    (hcapacity : l'.capacity = l.capacity)
    (hget : ∀ h, (l'.get h).isLabel = (l.get h).isLabel ∧
      ∀ t ∈ (l'.get h).targets, t ∈ (l.get h).targets) : l.Edits l' := by
  refine ⟨⟨?_, ?_⟩, hcapacity.ge, fun h _ => (hget h).1, ?_, ?_⟩
  · rw [hhandles]
    exact wf.nodup
  · rw [hhandles, hcapacity]
    exact wf.lt_capacity
  · have hlabels : l'.labels = l.labels := by
      rw [labels, labels, hhandles]
      exact List.filter_congr fun h _ => (hget h).1
    rw [hlabels]
  · intro h hm t ht
    rw [hhandles] at hm
    exact ⟨h, hm, (hget h).2 t ht⟩

/-- Replacing an instruction that is no label by one that leads nowhere else. -/
theorem edits_replace (wf : l.WellFormed) (hold : (l.get h).isLabel = false)
    (hnew : insn.isLabel = false) (htargets : ∀ t ∈ insn.targets, t ∈ (l.get h).targets) :
    l.Edits (l.replace h insn) := by
  have hcapacity : (l.replace h insn).capacity = l.capacity := by
    rw [capacity, replace, Array.size_modify]
    rfl
  refine edits_of_get wf rfl hcapacity ?_
  intro a
  rw [get_replace]
  split
  · next heq =>
    obtain ⟨rfl, -⟩ := heq
    exact ⟨by rw [hold, hnew], htargets⟩
  · exact ⟨rfl, fun t ht => ht⟩

/-- Editing an instruction in place without a change to what it is and where it leads. -/
theorem edits_modify (wf : l.WellFormed) {f : Instruction Label → Instruction Label}
    (hlabel : f .label = .label) (hf : ∀ i, (f i).isLabel = i.isLabel ∧ (f i).targets = i.targets)
    (h : Handle) : l.Edits (l.modify h f) := by
  refine edits_of_get wf rfl (capacity_modify l h f) ?_
  intro a
  rw [get_modify hlabel]
  split
  · exact ⟨(hf _).1, fun t ht => by rwa [(hf _).2] at ht⟩
  · exact ⟨rfl, fun t ht => ht⟩

end Listing

/-! ### Runs of a pattern -/

/-- A run of a pattern consists of linked instructions that are no labels. -/
theorem Pattern.mem_run {p : Pattern} {l : Listing} {run : List Handle} (hrun : run ∈ p.runs l)
    {h : Handle} (hh : h ∈ run) : h ∈ l.handles ∧ (l.get h).isLabel = false := by
  obtain ⟨span, -, rfl⟩ := List.mem_map.1 hrun
  obtain ⟨real, hreal, rfl⟩ := List.mem_map.1 hh
  have hmem : real ∈ (reals l).toList := by
    rw [Array.toList_extract] at hreal
    exact List.mem_of_mem_drop (List.mem_of_mem_take hreal)
  obtain ⟨a, ha, hop⟩ := List.mem_filterMap.1 hmem
  obtain ⟨op, hop, rfl⟩ := Option.map_eq_some_iff.1 hop
  refine ⟨ha, ?_⟩
  cases hget : l.get a with
  | label =>
    rw [hget] at hop
    cases hop
  | _ => rfl

/-- The instructions of a run are still no labels when other ones were edited. -/
theorem Listing.Edits.not_label_of_run {l l' : Listing} (e : l.Edits l') (wf : l.WellFormed)
    {p : Pattern} {run : List Handle} (hrun : run ∈ p.runs l) {h : Handle} (hh : h ∈ run) :
    h < l'.capacity ∧ (l'.get h).isLabel = false :=
  e.not_label wf (Pattern.mem_run hrun hh).1 (Pattern.mem_run hrun hh).2

end Unscramble
