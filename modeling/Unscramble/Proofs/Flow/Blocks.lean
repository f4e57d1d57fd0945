import Unscramble.Flow.Blocks
import Unscramble.Proofs.Flow.DeadCode

/-! # The blocks of a listing

The blocks of a listing, one after the other, are its sequence. The entry has no label, and every
other block begins with its label and has no other. Blocks have different numbers, and the edges of
the block graph are the jumps of each block and the way through its bottom.

Main definitions: `Headed`, `Numbered`, `numberOf`. Main statements: `blocksOf_spec`,
`numberLabels_spec`, `nodup_map_numberOf`, `block_numberOf`, `mem_edges_iff`,
`fallthrough?_eq_some`. -/

namespace Unscramble.Flow

variable {l : Listing}

/-! ### Cutting a sequence -/

/-- A block that begins with its label and has no other. -/
def Headed (l : Listing) (b : Block) : Prop :=
  ∃ h rest, b = ⟨some h, h :: rest⟩ ∧ (l.get h).isLabel = true ∧
    ∀ a ∈ rest, (l.get a).isLabel = false

/-- What the block being read becomes, and the blocks behind it. -/
theorem cutBlocks_spec (l : Listing) (hs : List Handle) (current : Block) (done : List Block) :
    ∃ more rest, cutBlocks l current done hs =
        done.reverse ++ ⟨current.label, current.handles.reverse ++ more⟩ :: rest ∧
      (∀ a ∈ more, (l.get a).isLabel = false) ∧ (∀ b ∈ rest, Headed l b) ∧
      more ++ rest.flatMap Block.handles = hs := by
  induction hs generalizing current done with
  | nil => exact ⟨[], [], by simp [cutBlocks], by simp, by simp, rfl⟩
  | cons h hs ih =>
    rw [cutBlocks]
    by_cases hl : (l.get h).isLabel = true
    · -- the block being read ends in front of the label, which heads the next one
      rw [if_pos hl]
      obtain ⟨more, rest, heq, hmore, hrest, hcat⟩ :=
        ih ⟨some h, [h]⟩ ({ current with handles := current.handles.reverse } :: done)
      refine ⟨[], ⟨some h, h :: more⟩ :: rest, ?_, by simp, ?_, ?_⟩
      · rw [heq]
        simp
      · intro b hb
        rcases List.mem_cons.1 hb with rfl | hb
        · exact ⟨h, more, rfl, hl, hmore⟩
        · exact hrest b hb
      · rw [List.nil_append, List.flatMap_cons, ← hcat]
        rfl
    · rw [if_neg hl]
      obtain ⟨more, rest, heq, hmore, hrest, hcat⟩ :=
        ih { current with handles := h :: current.handles } done
      refine ⟨h :: more, rest, ?_, ?_, hrest, ?_⟩
      · rw [heq]
        simp
      · intro a ha
        rcases List.mem_cons.1 ha with rfl | ha
        · simpa using hl
        · exact hmore a ha
      · rw [List.cons_append, hcat]

/-- The blocks of a listing: an entry without labels, and blocks that begin with their label. -/
theorem blocksOf_spec (l : Listing) :
    ∃ front rest, blocksOf l = ⟨none, front⟩ :: rest ∧
      (∀ a ∈ front, (l.get a).isLabel = false) ∧ (∀ b ∈ rest, Headed l b) ∧
      front ++ rest.flatMap Block.handles = l.handles := by
  obtain ⟨more, rest, heq, hmore, hrest, hcat⟩ := cutBlocks_spec l l.handles {} []
  exact ⟨more, rest, by rw [blocksOf, heq]; rfl, hmore, hrest, hcat⟩

/-- The blocks one after the other are the sequence. -/
theorem flatMap_handles_blocksOf (l : Listing) :
    (blocksOf l).flatMap Block.handles = l.handles := by
  obtain ⟨front, rest, heq, -, -, hcat⟩ := blocksOf_spec l
  rw [heq, List.flatMap_cons, ← hcat]

/-- A linked handle stands in some block. -/
theorem exists_mem_blocksOf {h : Handle} (hm : h ∈ l.handles) :
    ∃ b ∈ blocksOf l, h ∈ b.handles := by
  rw [← flatMap_handles_blocksOf] at hm
  exact List.mem_flatMap.1 hm

/-- What stands in a block is linked. -/
theorem mem_handles_of_mem_block {b : Block} (hb : b ∈ blocksOf l) {h : Handle}
    (hm : h ∈ b.handles) : h ∈ l.handles := by
  rw [← flatMap_handles_blocksOf]
  exact List.mem_flatMap.2 ⟨b, hb, hm⟩

/-- A label heads its block. -/
theorem label_eq_of_isLabel {b : Block} (hb : b ∈ blocksOf l) {h : Handle} (hm : h ∈ b.handles)
    (hl : (l.get h).isLabel = true) : b.label = some h := by
  obtain ⟨front, rest, heq, hfront, hrest, -⟩ := blocksOf_spec l
  rw [heq] at hb
  rcases List.mem_cons.1 hb with rfl | hb
  · rw [hfront h hm] at hl
    cases hl
  · obtain ⟨a, tail, rfl, -, htail⟩ := hrest b hb
    rcases List.mem_cons.1 hm with rfl | hm
    · rfl
    · rw [htail h hm] at hl
      cases hl

/-- A block with a label begins with it, and the label is linked. -/
theorem exists_handles_of_label {b : Block} (hb : b ∈ blocksOf l) {h : Handle}
    (hl : b.label = some h) :
    ∃ tail, b.handles = h :: tail ∧ (l.get h).isLabel = true ∧
      ∀ a ∈ tail, (l.get a).isLabel = false := by
  obtain ⟨front, rest, heq, -, hrest, -⟩ := blocksOf_spec l
  rw [heq] at hb
  rcases List.mem_cons.1 hb with rfl | hb
  · cases hl
  · obtain ⟨a, tail, rfl, ha, htail⟩ := hrest b hb
    cases hl
    exact ⟨tail, rfl, ha, htail⟩

/-- What does not head its block is no label. -/
theorem isLabel_of_mem_tail {b : Block} (hb : b ∈ blocksOf l) {front back : List Handle}
    {a c : Handle} (hs : b.handles = front ++ a :: c :: back) : (l.get c).isLabel = false := by
  obtain ⟨entry, rest, heq, hentry, hrest, -⟩ := blocksOf_spec l
  rw [heq] at hb
  rcases List.mem_cons.1 hb with rfl | hb
  · refine hentry c ?_
    change entry = _ at hs
    rw [hs]
    simp
  · obtain ⟨h, tail, rfl, -, htail⟩ := hrest b hb
    refine htail c ?_
    cases front with
    | nil =>
      have htail : tail = c :: back := (List.cons.inj hs).2
      rw [htail]
      simp
    | cons x front =>
      have htail : tail = front ++ a :: c :: back := (List.cons.inj hs).2
      rw [htail]
      simp

/-! ### Numbers of blocks -/

/-- The number of a label or of the entry. -/
def numberOf (l : Listing) (label : Option Label) : Nat :=
  blockNumber (numberLabels l).1 label

/-- The labels that a listing mentions are below its bound. -/
theorem lt_labelBound {a : Label} (ha : a ∈ mentionedLabels l) : a < labelBound l := by
  have hfold : ∀ (labels : List Label) (bound : Nat),
      bound ≤ labels.foldl (fun bound label => max bound (label + 1)) bound ∧
        ∀ a ∈ labels, a < labels.foldl (fun bound label => max bound (label + 1)) bound := by
    intro labels
    induction labels with
    | nil => simp
    | cons c labels ih =>
      intro bound
      obtain ⟨hle, hlt⟩ := ih (max bound (c + 1))
      rw [List.foldl_cons]
      refine ⟨(le_max_left _ _).trans hle, List.forall_mem_cons.2 ⟨?_, hlt⟩⟩
      exact (Nat.lt_succ_self c).trans_le ((le_max_right _ _).trans hle)
  exact (hfold (mentionedLabels l) 0).2 a ha

/-- A label that is met gets the next number if it has none. -/
def numberNext (state : Array Nat × Array Label) (label : Label) : Array Nat × Array Label :=
  if state.1[label]? == some 0 then
    (state.1.setIfInBounds label (state.2.size + 1), state.2.push label)
  else state

/-- The labels with a number are those that were met, each at its place among them. -/
def Numbered (state : Array Nat × Array Label) : Prop :=
  ∀ (a : Label) (k : Nat), state.1[a]? = some (k + 1) ↔ state.2[k]? = some a

section

variable {state : Array Nat × Array Label} {a c : Label} {k : Nat}

/-- A label without a number is put behind those that were met. -/
theorem numberNext_of_unnumbered (hc : state.1[c]? = some 0) :
    numberNext state c = (state.1.setIfInBounds c (state.2.size + 1), state.2.push c) := by
  simp [numberNext, hc]

/-- A label with a number changes nothing. -/
theorem numberNext_of_ne (hc : state.1[c]? ≠ some 0) : numberNext state c = state := by
  simp [numberNext, hc]

/-- A label without a number gets the next one. -/
theorem getElem?_numberNext_self (hc : state.1[c]? = some 0) :
    (numberNext state c).1[c]? = some (state.2.size + 1) := by
  rw [numberNext_of_unnumbered hc]
  exact Array.getElem?_setIfInBounds_self_of_lt (Array.getElem?_eq_some_iff.1 hc).1

/-- The other labels keep their numbers. -/
theorem getElem?_numberNext_of_ne (ha : a ≠ c) : (numberNext state c).1[a]? = state.1[a]? := by
  rw [numberNext]
  split
  · exact Array.getElem?_setIfInBounds_ne (Ne.symm ha)
  · rfl

/-- A number that is given is kept. -/
theorem getElem?_numberNext_of_numbered (ha : state.1[a]? = some (k + 1)) :
    (numberNext state c).1[a]? = some (k + 1) := by
  by_cases hac : a = c
  · subst hac
    rw [numberNext_of_ne (by simp [ha]), ha]
  · rw [getElem?_numberNext_of_ne hac, ha]

/-- A label that is met has a number afterwards. -/
theorem exists_number_numberNext (hc : c < state.1.size) :
    ∃ k, (numberNext state c).1[c]? = some (k + 1) := by
  by_cases hzero : state.1[c]? = some 0
  · exact ⟨_, getElem?_numberNext_self hzero⟩
  · rw [numberNext_of_ne hzero]
    cases hk : state.1[c] with
    | zero => exact absurd (by rw [Array.getElem?_eq_getElem hc, hk]) hzero
    | succ k => exact ⟨k, by rw [Array.getElem?_eq_getElem hc, hk]⟩

/-- There are numbers for as many labels as before. -/
theorem size_numberNext : (numberNext state c).1.size = state.1.size := by
  rw [numberNext]
  split
  · exact Array.size_setIfInBounds
  · rfl

/-- Only the label is met in addition. -/
theorem mem_numberNext (ha : a ∈ (numberNext state c).2) : a ∈ state.2 ∨ a = c := by
  rw [numberNext] at ha
  split at ha
  · exact Array.mem_push.1 ha
  · exact .inl ha

/-- Labels that are numbered in order are so with one more. -/
theorem Numbered.next (h : Numbered state) (c : Label) : Numbered (numberNext state c) := by
  intro a k
  by_cases hc : state.1[c]? = some 0
  · have hpush : (numberNext state c).2[k]? = if k = state.2.size then some c else state.2[k]? := by
      rw [numberNext_of_unnumbered hc]
      exact Array.getElem?_push
    rw [hpush]
    by_cases hac : a = c
    · subst hac
      rw [getElem?_numberNext_self hc]
      split
      · next hk => simp [hk]
      · next hk =>
        -- a label without a number is not among those met before
        rw [← h a k, hc]
        simpa using Ne.symm hk
    · rw [getElem?_numberNext_of_ne hac, h a k]
      split
      · next hk =>
        rw [hk, Array.getElem?_size]
        simpa using Ne.symm hac
      · rfl
  · rw [numberNext_of_ne hc]
    exact h a k

/-- Labels that are met one after the other are numbered in order, keep the numbers that they have
and have a number in the end. -/
theorem Numbered.foldl (labels : List Label) (h : Numbered state) :
    Numbered (labels.foldl numberNext state) ∧
      (∀ (a : Label) (k : Nat), state.1[a]? = some (k + 1) →
        (labels.foldl numberNext state).1[a]? = some (k + 1)) ∧
      (∀ a ∈ labels, a < state.1.size →
        ∃ k, (labels.foldl numberNext state).1[a]? = some (k + 1)) ∧
      ∀ a ∈ (labels.foldl numberNext state).2, a ∈ state.2 ∨ a ∈ labels := by
  induction labels generalizing state with
  | nil => exact ⟨h, fun _ _ h' => h', by simp, fun a ha => .inl ha⟩
  | cons c labels ih =>
    obtain ⟨hnumbered, hkept, hmet, hmem⟩ := ih (h.next c)
    refine ⟨hnumbered, fun a k ha => hkept a k (getElem?_numberNext_of_numbered ha), ?_, ?_⟩
    · intro a ha hlt
      rcases List.mem_cons.1 ha with rfl | ha
      · obtain ⟨k, hk⟩ := exists_number_numberNext hlt
        exact ⟨k, hkept a k hk⟩
      · exact hmet a ha (size_numberNext.symm ▸ hlt)
    · intro a ha
      rcases hmem a ha with hstate | hlabel
      · rcases mem_numberNext hstate with hstate | rfl
        · exact .inl hstate
        · exact .inr List.mem_cons_self
      · exact .inr (List.mem_cons_of_mem c hlabel)

end

/-- Labels are numbered in order: the labels with a number are those that were met, each at its place
in the list of labels. -/
theorem numberLabels_spec (l : Listing) :
    (∀ (a : Label) (k : Nat), (numberLabels l).1[a]? = some (k + 1) ↔
      (numberLabels l).2[k]? = some a) ∧
    (∀ a ∈ mentionedLabels l, ∃ k, (numberLabels l).1[a]? = some (k + 1)) ∧
    ∀ a ∈ (numberLabels l).2, a ∈ mentionedLabels l := by
  have hstart : Numbered (Array.replicate (labelBound l) 0, #[]) := by
    intro a k
    rw [Array.getElem?_replicate]
    split <;> simp
  obtain ⟨hnumbered, -, hmet, hmem⟩ := hstart.foldl (mentionedLabels l)
  refine ⟨fun a k => ?_, fun a ha => ?_, fun a ha => ?_⟩
  · exact (hnumbered a k).trans (by rw [← Array.getElem?_toList]; rfl)
  · exact hmet a ha (by rw [Array.size_replicate]; exact lt_labelBound ha)
  · exact (hmem a (Array.mem_toList_iff.1 ha)).resolve_left (Array.not_mem_empty a)

/-- A label of the sequence is met. -/
theorem mem_mentionedLabels {h : Handle} (hm : h ∈ l.handles) (hl : (l.get h).isLabel = true) :
    h ∈ mentionedLabels l := by
  rw [mentionedLabels, List.mem_flatMap]
  exact ⟨h, hm, by rw [if_pos hl]; simp⟩

/-- A label that is met has a number other than that of the entry, at which it stands among the
labels. -/
theorem exists_numberOf_eq {h : Handle} (hm : h ∈ mentionedLabels l) :
    ∃ k, numberOf l (some h) = k + 1 ∧ (numberLabels l).2[k]? = some h := by
  obtain ⟨hplace, hnumber, -⟩ := numberLabels_spec l
  obtain ⟨k, hk⟩ := hnumber h hm
  refine ⟨k, ?_, (hplace h k).1 hk⟩
  rw [numberOf, blockNumber, Option.bind_some, hk]
  rfl

/-- Labels of the sequence have different numbers. -/
theorem numberOf_inj {a b : Handle} (ha : a ∈ l.handles) (hb : b ∈ l.handles)
    (hla : (l.get a).isLabel = true) (hlb : (l.get b).isLabel = true)
    (heq : numberOf l (some a) = numberOf l (some b)) : a = b := by
  obtain ⟨j, hj, hja⟩ := exists_numberOf_eq (mem_mentionedLabels ha hla)
  obtain ⟨k, hk, hkb⟩ := exists_numberOf_eq (mem_mentionedLabels hb hlb)
  rw [hj, hk] at heq
  cases heq
  rw [hja] at hkb
  cases hkb
  rfl

/-- The labels of the blocks behind the entry are different. -/
theorem nodup_map_label {rest : List Block} (hrest : ∀ b ∈ rest, Headed l b)
    (hnodup : (rest.flatMap Block.handles).Nodup) : (rest.map Block.label).Nodup := by
  induction rest with
  | nil => exact List.nodup_nil
  | cons b rest ih =>
    rw [List.flatMap_cons, List.nodup_append] at hnodup
    rw [List.map_cons, List.nodup_cons]
    refine ⟨?_, ih (fun c hc => hrest c (by simp [hc])) hnodup.2.1⟩
    intro hm
    obtain ⟨c, hc, hlabel⟩ := List.mem_map.1 hm
    obtain ⟨h, tail, rfl, -⟩ := hrest b (by simp)
    obtain ⟨h', tail', rfl, -⟩ := hrest c (by simp [hc])
    cases hlabel
    exact hnodup.2.2 h (by simp) h (List.mem_flatMap.2 ⟨_, hc, by simp⟩) rfl

/-- Blocks have different numbers. -/
theorem nodup_map_numberOf (wf : l.WellFormed) :
    ((blocksOf l).map fun b => numberOf l b.label).Nodup := by
  obtain ⟨front, rest, heq, -, hrest, hcat⟩ := blocksOf_spec l
  have hlinked : ∀ b ∈ rest, ∃ h, b.label = some h ∧ h ∈ l.handles ∧ (l.get h).isLabel = true := by
    intro b hb
    obtain ⟨h, tail, rfl, hl, -⟩ := hrest b hb
    refine ⟨h, rfl, ?_, hl⟩
    rw [← hcat]
    exact List.mem_append.2 (.inr (List.mem_flatMap.2 ⟨_, hb, by simp⟩))
  have hnodup : (rest.flatMap Block.handles).Nodup := by
    have hwf := wf.nodup
    rw [← hcat] at hwf
    exact (List.nodup_append.1 hwf).2.1
  rw [heq, List.map_cons, List.nodup_cons]
  constructor
  · -- only the entry has number 0
    intro hm
    obtain ⟨b, hb, hzero⟩ := List.mem_map.1 hm
    obtain ⟨h, hlabel, hmem, hl⟩ := hlinked b hb
    obtain ⟨k, hk, -⟩ := exists_numberOf_eq (mem_mentionedLabels hmem hl)
    rw [hlabel, hk] at hzero
    cases hzero
  · have hlabels := nodup_map_label hrest hnodup
    have hmap : rest.map (fun b => numberOf l b.label) = (rest.map Block.label).map (numberOf l) := by
      rw [List.map_map]
      rfl
    rw [hmap]
    refine List.Nodup.map_on ?_ hlabels
    intro x hx y hy hxy
    obtain ⟨b, hb, rfl⟩ := List.mem_map.1 hx
    obtain ⟨c, hc, rfl⟩ := List.mem_map.1 hy
    obtain ⟨h, hlabel, hmem, hl⟩ := hlinked b hb
    obtain ⟨h', hlabel', hmem', hl'⟩ := hlinked c hc
    rw [hlabel, hlabel'] at hxy ⊢
    rw [numberOf_inj hmem hmem' hl hl' hxy]

/-- Blocks with the same number are the same. -/
theorem eq_of_numberOf_eq (wf : l.WellFormed) {b c : Block} (hb : b ∈ blocksOf l)
    (hc : c ∈ blocksOf l) (heq : numberOf l b.label = numberOf l c.label) : b = c :=
  List.inj_on_of_nodup_map (nodup_map_numberOf wf) hb hc heq

/-- A handle stands in one block only. -/
theorem eq_of_mem_handles (wf : l.WellFormed) {b c : Block} (hb : b ∈ blocksOf l)
    (hc : c ∈ blocksOf l) {h : Handle} (hhb : h ∈ b.handles) (hhc : h ∈ c.handles) : b = c := by
  have hnodup : ((blocksOf l).flatMap Block.handles).Nodup := by
    rw [flatMap_handles_blocksOf]
    exact wf.nodup
  by_contra hne
  have hsymm : Std.Symm (Function.onFun List.Disjoint Block.handles) :=
    ⟨fun x y hxy a ha hb => hxy hb ha⟩
  exact (List.nodup_flatMap.1 hnodup).2.forall hb hc hne hhb hhc

/-! ### The block graph -/

/-- The table that the blocks are filled into. -/
def emptyBlocks (l : Listing) : Array Block :=
  (⟨none, []⟩ :: (numberLabels l).2.map fun label => ⟨some label, []⟩ : List Block).toArray

/-- The blocks of a listing stand at the numbers of their labels. -/
theorem blocks_ofListing (l : Listing) :
    (BlockGraph.ofListing l).blocks = (blocksOf l).foldl (fun table b =>
      table.setIfInBounds (numberOf l b.label) b) (emptyBlocks l) := rfl

/-- The edges of a listing are those of its blocks. -/
theorem edges_ofListing (l : Listing) :
    (BlockGraph.ofListing l).edges = edgesOf l (numberLabels l).1 (blocksOf l) := rfl

/-- The number of blocks. -/
theorem size_blocks_ofListing (l : Listing) :
    (BlockGraph.ofListing l).blocks.size = (numberLabels l).2.length + 1 := by
  rw [blocks_ofListing, size_foldl_set (fun b : Block => numberOf l b.label) (fun b => b), emptyBlocks]
  simp

/-- The number of a label that is met is the number of a block. -/
theorem numberOf_lt {h : Handle} (hm : h ∈ mentionedLabels l) :
    numberOf l (some h) < (BlockGraph.ofListing l).blocks.size := by
  obtain ⟨k, hk, hplace⟩ := exists_numberOf_eq hm
  have hklt := (List.getElem?_eq_some_iff.1 hplace).1
  rw [hk, size_blocks_ofListing]
  omega

/-- The number of a block of the listing is the number of a block of the graph. -/
theorem numberOf_block_lt {b : Block} (hb : b ∈ blocksOf l) :
    numberOf l b.label < (BlockGraph.ofListing l).blocks.size := by
  cases hlabel : b.label with
  | none =>
    rw [size_blocks_ofListing]
    exact Nat.succ_pos _
  | some h =>
    obtain ⟨tail, hs, hl, -⟩ := exists_handles_of_label hb hlabel
    have hm : h ∈ l.handles := mem_handles_of_mem_block hb (by rw [hs]; simp)
    exact numberOf_lt (mem_mentionedLabels hm hl)

/-- Each block stands in the graph under its number. -/
theorem block_numberOf (wf : l.WellFormed) {b : Block} (hb : b ∈ blocksOf l) :
    (BlockGraph.ofListing l).block (numberOf l b.label) = b := by
  have hlt := numberOf_block_lt hb
  rw [blocks_ofListing, size_foldl_set (fun b : Block => numberOf l b.label) (fun b => b)] at hlt
  rw [BlockGraph.block, blocks_ofListing,
    getElem?_foldl_set_of_mem (fun b : Block => numberOf l b.label) (fun b => b) (nodup_map_numberOf wf) hb
      _ hlt]
  rfl

/-- A block of the graph with instructions is a block of the listing. -/
theorem exists_of_block_ne_nil (wf : l.WellFormed) {n : Nat}
    (hn : ((BlockGraph.ofListing l).block n).handles ≠ []) :
    ∃ b ∈ blocksOf l, numberOf l b.label = n ∧ (BlockGraph.ofListing l).block n = b := by
  by_cases hm : n ∈ (blocksOf l).map fun b => numberOf l b.label
  · obtain ⟨b, hb, rfl⟩ := List.mem_map.1 hm
    exact ⟨b, hb, rfl, block_numberOf wf hb⟩
  · exfalso
    apply hn
    rw [BlockGraph.block, blocks_ofListing,
      getElem?_foldl_set_of_not_mem (fun b : Block => numberOf l b.label) (fun b => b) hm, emptyBlocks,
      List.getElem?_toArray]
    cases n with
    | zero => rfl
    | succ n =>
      rw [List.getElem?_cons_succ, List.getElem?_map]
      cases (numberLabels l).2[n]? <;> rfl

/-- The edges of a block graph: the jumps of each block, and the way through its bottom. -/
theorem mem_edges_iff {e : Edge} :
    e ∈ (BlockGraph.ofListing l).edges ↔
      ∃ b next, (b, next) ∈ withNext (blocksOf l) ∧
        (e ∈ jumpEdges l (numberLabels l).1 b ∨
          ∃ c, next = some c ∧ b.isTerminal l = false ∧
            e = ⟨numberOf l b.label, numberOf l c.label, .fall⟩) := by
  rw [edges_ofListing, edgesOf, List.mem_flatMap]
  -- An edge is a jump of a block or falls through its bottom; a last or terminal block has no such
  -- edge.
  constructor
  · rintro ⟨⟨b, next⟩, hp, he⟩
    refine ⟨b, next, hp, ?_⟩
    rcases List.mem_append.1 he with he | he
    · exact .inl he
    · cases next with
      | none => cases he
      | some c =>
        cases hterm : b.isTerminal l with
        | true => simp [hterm] at he
        | false =>
          rw [hterm] at he
          exact .inr ⟨c, rfl, rfl, List.mem_singleton.1 he⟩
  · rintro ⟨b, next, hp, he⟩
    refine ⟨(b, next), hp, List.mem_append.2 ?_⟩
    rcases he with he | ⟨c, rfl, hterm, rfl⟩
    · exact .inl he
    · right
      simp only [hterm]
      exact List.mem_singleton.2 rfl

/-- What a block leads to, by the edges of the graph. -/
theorem successors_getD (g : BlockGraph) {n : Nat} (hn : n < g.blocks.size) :
    g.successors[n]?.getD [] = (g.edges.filter fun e => e.source = n).map Edge.target := by
  rw [BlockGraph.successors, List.foldl_reverse,
    getElem?_foldr_modify Edge.source Edge.target, Array.getElem?_replicate, if_pos hn]
  simp

/-- An edge leads to a successor. -/
theorem mem_successors_of_mem_edges {g : BlockGraph} {e : Edge} (he : e ∈ g.edges)
    (hn : e.source < g.blocks.size) : e.target ∈ g.successors[e.source]?.getD [] := by
  rw [successors_getD g hn]
  exact List.mem_map.2 ⟨e, List.mem_filter.2 ⟨he, by simp⟩, rfl⟩

/-- A target of an instruction of a block is a successor of the block. -/
theorem numberOf_target_mem_successors {b : Block} (hb : b ∈ blocksOf l)
    {h t : Handle} (hm : h ∈ b.handles) (ht : t ∈ (l.get h).targets) :
    numberOf l (some t) ∈
      (BlockGraph.ofListing l).successors[numberOf l b.label]?.getD [] := by
  obtain ⟨next, hp⟩ : ∃ next, (b, next) ∈ withNext (blocksOf l) := by
    obtain ⟨front, back, hs⟩ := List.append_of_mem hb
    exact ⟨_, mem_withNext_iff.2 ⟨front, back, hs, rfl⟩⟩
  have htargets : t ∈ b.targets l := List.mem_flatMap.2 ⟨h, hm, ht⟩
  obtain ⟨i, hi⟩ := List.mem_iff_getElem?.1 htargets
  have he : (⟨numberOf l b.label, numberOf l (some t), .jump i⟩ : Edge) ∈
      (BlockGraph.ofListing l).edges := by
    refine mem_edges_iff.2 ⟨b, next, hp, .inl (List.mem_map.2 ⟨(t, i), ?_, rfl⟩)⟩
    exact List.mem_zipIdx_iff_getElem?.2 hi
  exact mem_successors_of_mem_edges he (numberOf_block_lt hb)

/-- The block below one that is not terminal is a successor of it, and the one that control falls
into. -/
theorem fallthrough?_eq_some (wf : l.WellFormed) {front back : List Block} {b c : Block}
    (hs : blocksOf l = front ++ b :: c :: back) (hterm : b.isTerminal l = false) :
    (BlockGraph.ofListing l).fallthrough? (numberOf l b.label) = some (numberOf l c.label) ∧
      numberOf l c.label ∈
        (BlockGraph.ofListing l).successors[numberOf l b.label]?.getD [] := by
  have hb : b ∈ blocksOf l := by rw [hs]; simp
  have hp : (b, some c) ∈ withNext (blocksOf l) :=
    mem_withNext_iff.2 ⟨front, c :: back, hs, rfl⟩
  have he : (⟨numberOf l b.label, numberOf l c.label, .fall⟩ : Edge) ∈
      (BlockGraph.ofListing l).edges :=
    mem_edges_iff.2 ⟨b, some c, hp, .inr ⟨c, rfl, hterm, rfl⟩⟩
  refine ⟨?_, mem_successors_of_mem_edges he (numberOf_block_lt hb)⟩
  -- the edge found has this source, and a block falls into one other block only
  have hunique : ∀ e ∈ (BlockGraph.ofListing l).edges, e.source = numberOf l b.label →
      e.kind = .fall → e.target = numberOf l c.label := by
    intro e he hsource hkind
    obtain ⟨b', next, hp', he | ⟨c', rfl, -, rfl⟩⟩ := mem_edges_iff.1 he
    · obtain ⟨⟨t, i⟩, -, rfl⟩ := List.mem_map.1 he
      cases hkind
    · obtain ⟨front', back', hs', hhead⟩ := mem_withNext_iff.1 hp'
      have hb' : b' ∈ blocksOf l := by rw [hs']; simp
      obtain rfl : b' = b := eq_of_numberOf_eq wf hb' hb hsource
      have hnodup : (blocksOf l).Nodup := (nodup_map_numberOf wf).of_map
      have hback : back' = c :: back :=
        suffix_unique hnodup (a := b') ⟨front', hs'.symm⟩ ⟨front, hs.symm⟩
      rw [hback] at hhead
      cases hhead
      rfl
  rw [BlockGraph.fallthrough?]
  cases hfind : (BlockGraph.ofListing l).edges.find? fun e =>
      e.source == numberOf l b.label && e.kind == .fall with
  | none =>
    have hnone := List.find?_eq_none.1 hfind _ he
    simp at hnone
  | some e =>
    have hsome := List.find?_some hfind
    simp only [Bool.and_eq_true, beq_iff_eq] at hsome
    rw [Option.map_some, hunique e (List.mem_of_find?_eq_some hfind) hsome.1 hsome.2]

/-- The edges that leave a block, which control leaves at its bottom to the next one. -/
def outgoing (l : Listing) (place : Block × Option Block) : List Edge :=
  jumpEdges l (numberLabels l).1 place.1 ++
    match place.2 with
    | some next =>
      if place.1.isTerminal l then []
      else [⟨numberOf l place.1.label, numberOf l next.label, .fall⟩]
    | none => []

/-- The edges go out from each block, to the next one among others. -/
theorem edges_eq_flatMap (l : Listing) :
    (BlockGraph.ofListing l).edges = (withNext (blocksOf l)).flatMap (outgoing l) := rfl

/-- The edges that leave a block have its number. -/
theorem source_of_mem_outgoing {b : Block} {next : Option Block} {e : Edge}
    (he : e ∈ outgoing l (b, next)) : e.source = numberOf l b.label := by
  rcases List.mem_append.1 he with he | he
  · obtain ⟨⟨t, i⟩, -, rfl⟩ := List.mem_map.1 he
    rfl
  · cases next with
    | none => cases he
    | some c =>
      simp only at he
      split at he
      · cases he
      · rw [List.mem_singleton.1 he]

/-- Where the edges that leave a block lead: to its targets in order, then to the next block. -/
theorem map_target_outgoing (b : Block) (next : Option Block) :
    (outgoing l (b, next)).map Edge.target =
      (b.targets l).map (fun t => numberOf l (some t)) ++
        if b.isTerminal l then [] else (next.map fun c => numberOf l c.label).toList := by
  have hjumps : (jumpEdges l (numberLabels l).1 b).map Edge.target =
      (b.targets l).map fun t => numberOf l (some t) := by
    rw [jumpEdges, List.map_map]
    conv => rhs; rw [← List.zipIdx_map_fst 0 (b.targets l), List.map_map]
    rfl
  rw [outgoing, List.map_append, hjumps]
  congr 1
  cases next with
  | none => cases b.isTerminal l <;> rfl
  | some c => cases b.isTerminal l <;> simp

/-- The edges of a block are those that leave it to its targets and to the block below. -/
theorem filter_edges (wf : l.WellFormed) {front back : List Block} {b : Block}
    (hs : blocksOf l = front ++ b :: back) :
    (BlockGraph.ofListing l).edges.filter (fun e => e.source = numberOf l b.label) =
      outgoing l (b, back.head?) := by
  obtain ⟨before, behind, hplaces⟩ :=
    List.append_of_mem (mem_withNext_iff.2 ⟨front, back, hs, rfl⟩)
  -- the other blocks have other numbers, so their edges do not count
  have hnumbers := nodup_map_numberOf wf
  have hkeys : (blocksOf l).map (fun c => numberOf l c.label) =
      (withNext (blocksOf l)).map fun place => numberOf l place.1.label := by
    conv => lhs; rw [← map_fst_withNext (blocksOf l), List.map_map]
    rfl
  rw [hkeys, hplaces, List.map_append, List.map_cons, List.nodup_middle, List.nodup_cons,
    List.mem_append, not_or] at hnumbers
  have hothers : ∀ places : List (Block × Option Block),
      numberOf l b.label ∉ places.map (fun place => numberOf l place.1.label) →
      (places.flatMap (outgoing l)).filter (fun e => e.source = numberOf l b.label) = [] := by
    intro places hne
    rw [List.filter_eq_nil_iff]
    intro e he hsource
    obtain ⟨⟨c, next⟩, hp, he⟩ := List.mem_flatMap.1 he
    refine hne (List.mem_map.2 ⟨(c, next), hp, ?_⟩)
    rw [← source_of_mem_outgoing he]
    exact of_decide_eq_true hsource
  have hself : (outgoing l (b, back.head?)).filter (fun e => e.source = numberOf l b.label) =
      outgoing l (b, back.head?) :=
    List.filter_eq_self.2 fun e he => decide_eq_true (source_of_mem_outgoing he)
  rw [edges_eq_flatMap, hplaces, List.flatMap_append, List.flatMap_cons, List.filter_append,
    List.filter_append, hothers before hnumbers.1.1, hothers behind hnumbers.1.2, hself,
    List.nil_append, List.append_nil]

/-- What a block leads to: its targets in order, then the block below it unless it is terminal. -/
theorem successors_eq (wf : l.WellFormed) {front back : List Block} {b : Block}
    (hs : blocksOf l = front ++ b :: back) :
    (BlockGraph.ofListing l).successors[numberOf l b.label]?.getD [] =
      (b.targets l).map (fun t => numberOf l (some t)) ++
        if b.isTerminal l then [] else (back.head?.map fun c => numberOf l c.label).toList := by
  have hb : b ∈ blocksOf l := by rw [hs]; simp
  rw [successors_getD _ (numberOf_block_lt hb), filter_edges wf hs, map_target_outgoing]

/-- An empty entry leads to the block below it only. -/
theorem successors_entry (wf : l.WellFormed) {b : Block} {rest : List Block}
    (hs : blocksOf l = ⟨none, []⟩ :: b :: rest) :
    (BlockGraph.ofListing l).successors[0]?.getD [] = [numberOf l b.label] := by
  have hfront : blocksOf l = [] ++ ⟨none, []⟩ :: b :: rest := hs
  exact successors_eq wf hfront

/-- The entry is the first block of the order. -/
theorem order_eq_cons (g : BlockGraph) : ∃ rest, g.order = 0 :: rest :=
  finishOrder_eq_cons

/-- A block that is the only one the entry leads to is the second of the order. -/
theorem order_eq_cons_cons {g : BlockGraph} {n : Nat} (hn : g.successors[0]?.getD [] = [n])
    (hlt : n < g.blocks.size) (hne : n ≠ 0) : ∃ rest, g.order = 0 :: n :: rest :=
  finishOrder_eq_cons_cons hn hlt hne

end Unscramble.Flow
