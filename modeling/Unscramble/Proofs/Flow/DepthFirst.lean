import Unscramble.Proofs.Flow.Placement
import Unscramble.Proofs.Flow.Visits

/-! # Sequences in depth-first order

A search over the blocks of a listing and a search over its instructions list the same sequence, so
the depth-first order of blocks is told by the sequence and its instructions alone.

Main definitions: `leads`, `DepthFirst`, `placedHandles`. Main statements: `DepthFirst.allLive`,
`AllLive.expands`, `AllLive.visits_placed`. -/

namespace Unscramble.Flow

variable {l : Listing}

/-- Where control can go from an instruction: to its targets in order, and then to the next
instruction unless it is terminal. -/
def leads (l : Listing) (h : Handle) : List Handle :=
  (l.get h).targets ++ if (l.get h).isTerminal then [] else (l.next? h).toList

/-- An instruction leads to its targets, and to the next one unless it ends the path. -/
theorem mem_leads_iff {h t : Handle} :
    t ∈ leads l h ↔
      t ∈ (l.get h).targets ∨ (l.get h).isTerminal = false ∧ l.next? h = some t := by
  rw [leads, List.mem_append]
  cases (l.get h).isTerminal <;> simp

/-- Where control can go from an instruction that it passes. -/
theorem leads_of_next? {h n : Handle} (hopen : (l.get h).isTerminal = false)
    (hn : l.next? h = some n) : leads l h = (l.get h).targets ++ [n] := by
  rw [leads, hopen, hn]
  rfl

/-- Where control can go from an instruction that it does not pass. -/
theorem leads_of_isTerminal {h : Handle} (hterm : (l.get h).isTerminal = true) :
    leads l h = (l.get h).targets := by
  rw [leads, hterm, if_pos rfl, List.append_nil]

/-- A listing that stands in the order in which a depth-first search lists its instructions. -/
structure DepthFirst (l : Listing) : Prop where
  /-- Handles are linked once. -/
  wf : l.WellFormed
  /-- Targets are linked. -/
  targets : l.TargetsLinked
  /-- Something stands below every instruction that control passes. -/
  next : ∀ h ∈ l.handles, (l.get h).isTerminal = false → (l.next? h).isSome = true
  /-- The search from the first instruction lists the sequence. -/
  visits : Visits (leads l) ∅ l.first?.toList l.handles

/-- Control comes to every instruction of a body in depth-first order. -/
theorem DepthFirst.reaches {b : Body} (df : DepthFirst b.listing) :
    ∀ h ∈ b.listing.handles, b.Reaches h := by
  refine df.visits.forall_mem ?_ ?_
  · intro v hv
    exact .entry (Option.mem_toList.1 hv)
  · intro v hv w hw
    rcases mem_leads_iff.1 hw with hw | ⟨hopen, hw⟩
    · exact .target hv hw
    · exact .pass hv hopen hw

/-- A listing in depth-first order has no dead code. -/
theorem DepthFirst.allLive (df : DepthFirst l) : AllLive l := by
  have hlinked : Body.LabelsLinked { listing := l } := ⟨df.targets, by simp⟩
  refine ⟨df.wf, df.targets, DepthFirst.reaches (b := { listing := l }) df, ?_⟩
  intro h hr hopen
  exact df.next h (mem_handles_of_reaches hlinked hr) hopen

/-! ### The search over blocks -/

/-- What is not at the head of a list has a left neighbour. -/
theorem exists_left_neighbour {α : Type} {h x : α} {xs : List α} (hx : x ∈ xs) :
    ∃ front a back, h :: xs = front ++ a :: x :: back := by
  obtain ⟨front, back, rfl⟩ := List.append_of_mem hx
  rcases List.eq_nil_or_concat front with rfl | ⟨front, a, rfl⟩
  · exact ⟨[], h, back, rfl⟩
  · exact ⟨h :: front, a, back, by simp⟩

/-- The first handle of a block. -/
def blockHead (l : Listing) (n : Nat) : Handle :=
  ((BlockGraph.ofListing l).block n).handles.headD 0

/-- The block of a linked label begins with it. -/
theorem blockHead_label (wf : l.WellFormed) {t : Label} (hm : t ∈ l.handles)
    (hl : (l.get t).isLabel = true) : blockHead l (numberOf l (some t)) = t := by
  obtain ⟨b, hb, hmb⟩ := exists_mem_blocksOf hm
  have hlabel := label_eq_of_isLabel hb hmb hl
  obtain ⟨tail, htail, -⟩ := exists_handles_of_label hb hlabel
  rw [blockHead, ← hlabel, block_numberOf wf hb, htail]
  rfl

/-- Below the last instruction of a block that control passes stands the label of the next block. -/
theorem AllLive.next_block (live : AllLive l) {front back : List Block} {b : Block}
    (hs : blocksOf l = front ++ b :: back) {r : List Handle} {a n : Handle}
    (hr : b.handles = r ++ [a]) (hn : l.next? a = some n) :
    ∃ d zs, back = d :: zs ∧ d.label = some n := by
  have hb : b ∈ blocksOf l := by rw [hs]; simp
  obtain ⟨before, behind, hsplit⟩ := (Listing.next?_eq_some_iff live.wf).1 hn
  rcases neighbours_blocks hsplit with ⟨c, hc, r', t, hr'⟩ | ⟨ys, c, d, zs, r', hblocks, hr', hd⟩
  · -- the block has no handle behind its last one
    exfalso
    obtain rfl := eq_of_mem_handles live.wf hb hc (h := a) (by rw [hr]; simp) (by rw [hr']; simp)
    obtain ⟨before', behind', hhandles⟩ := exists_handles_eq hb
    have hnodup := live.wf.nodup
    rw [hhandles, List.append_assoc, List.nodup_append, List.nodup_append] at hnodup
    have hsuffix := suffix_unique hnodup.2.1.1 (a := a) (s := []) ⟨r, hr.symm⟩ ⟨r', hr'.symm⟩
    cases hsuffix
  · have hc : c ∈ blocksOf l := by rw [hblocks]; simp
    obtain rfl := eq_of_mem_handles live.wf hb hc (h := a) (by rw [hr]; simp) (by rw [hr']; simp)
    have hnodup : (blocksOf l).Nodup := (nodup_map_numberOf live.wf).of_map
    exact ⟨d, zs, suffix_unique hnodup (a := b) ⟨front, hs.symm⟩ ⟨ys, hblocks.symm⟩, hd⟩

/-- A block whose last instruction is terminal is terminal. -/
theorem isTerminal_of_last {b : Block} {r : List Handle} {a : Handle} (hr : b.handles = r ++ [a])
    (hterm : (l.get a).isTerminal = true) : b.isTerminal l = true := by
  have hreal : l.isReal a = true := by
    by_contra hmarker
    have hopen := Instruction.isTerminal_of_isReal (Bool.not_eq_true _ ▸ hmarker)
    rw [hterm] at hopen
    cases hopen
  rw [Block.isTerminal, Block.lastReal?, hr, List.reverse_append, List.reverse_singleton,
    List.singleton_append, List.find?_cons_of_pos hreal]
  exact hterm

/-- The instructions of a block lead to their targets and to each other, and the last to the next
block. -/
theorem AllLive.threaded_block (live : AllLive l) {b : Block} (hb : b ∈ blocksOf l)
    (hne : b.handles ≠ []) :
    Threaded (leads l) b.handles
      (((BlockGraph.ofListing l).successors[numberOf l b.label]?.getD []).map (blockHead l)) := by
  obtain ⟨front, back, hs⟩ := List.append_of_mem hb
  obtain ⟨before, behind, hhandles⟩ := exists_handles_eq hb
  -- The head of the block of a label is the label, so targets may stand for blocks.
  have htargets : (b.targets l).map (fun t => blockHead l (numberOf l (some t))) = b.targets l := by
    refine (List.map_congr_left fun t ht => ?_).trans (List.map_id _)
    obtain ⟨h, hh, ht⟩ := List.mem_flatMap.1 ht
    obtain ⟨hm, hl⟩ := live.targets h (mem_handles_of_mem_block hb hh) t ht
    exact blockHead_label live.wf hm hl
  rw [successors_eq live.wf hs, List.map_append, List.map_map]
  change Threaded (leads l) b.handles (List.map (fun t => blockHead l (numberOf l (some t))) _ ++ _)
  rw [htargets]
  -- Within a block an instruction leads to its targets and to the one below.
  have hinner : ∀ front a c back, b.handles = front ++ a :: c :: back →
      leads l a = (l.get a).targets ++ [c] := by
    intro r a c t hr
    have hneighbours : l.handles = (before ++ r) ++ a :: c :: (t ++ behind) := by
      rw [hhandles, hr]
      simp
    exact leads_of_next? (live.isTerminal_of_neighbours hneighbours (isLabel_of_mem_tail hb hr))
      ((Listing.next?_eq_some_iff live.wf).2 ⟨_, _, hneighbours⟩)
  -- The last one leads on to the head of the next block, unless it is terminal.
  have hlast : ∀ front a, b.handles = front ++ [a] → leads l a = (l.get a).targets ++
      (if b.isTerminal l then [] else
        (back.head?.map fun c => numberOf l c.label).toList).map (blockHead l) := by
    intro r a hr
    have hm : a ∈ l.handles := mem_handles_of_mem_block hb (by rw [hr]; simp)
    cases hterm : (l.get a).isTerminal with
    | true =>
      rw [isTerminal_of_last hr hterm, if_pos rfl, leads_of_isTerminal hterm, List.map_nil,
        List.append_nil]
    | false =>
      obtain ⟨n, hn, -⟩ := live.exists_next? hm hterm
      obtain ⟨d, zs, rfl, hd⟩ := live.next_block hs hr hn
      have hdm : d ∈ blocksOf l := by rw [hs]; simp
      obtain ⟨tail, htail, hl, -⟩ := exists_handles_of_label hdm hd
      have hmn : n ∈ l.handles := mem_handles_of_mem_block hdm (by rw [htail]; simp)
      rw [live.isTerminal_block hb hr hterm, leads_of_next? hterm hn, List.head?_cons,
        Option.map_some, hd]
      change _ = _ ++ [blockHead l (numberOf l (some n))]
      rw [blockHead_label live.wf hmn hl]
  obtain ⟨h, hs, hcons⟩ := List.exists_cons_of_ne_nil hne
  rw [hcons] at hinner hlast
  rw [Block.targets, hcons]
  exact threaded_of_neighbours hinner hlast

/-- A number that is the number of a block with instructions. -/
def IsPlaced (l : Listing) (n : Nat) : Prop :=
  ∃ b ∈ blocksOf l, b.handles ≠ [] ∧ numberOf l b.label = n

/-- The blocks of a listing without dead code stand for their instructions. -/
theorem AllLive.expands (live : AllLive l) :
    Expands (fun n => (BlockGraph.ofListing l).successors[n]?.getD []) (leads l)
      (fun n => ((BlockGraph.ofListing l).block n).handles) (blockHead l) (IsPlaced l) := by
  refine ⟨?_, ?_, ?_, ?_, ?_⟩
  · rintro n ⟨b, hb, hne, rfl⟩
    rw [block_numberOf live.wf hb]
    exact live.threaded_block hb hne
  · rintro n ⟨b, hb, hne, rfl⟩
    obtain ⟨h, inner, hcons⟩ := List.exists_cons_of_ne_nil hne
    rw [blockHead, block_numberOf live.wf hb, hcons]
    refine ⟨inner, rfl, ?_⟩
    rintro x hx m ⟨c, hc, -, rfl⟩ v hv hleads
    rw [block_numberOf live.wf hc] at hv
    obtain ⟨front, a, back, hs⟩ := exists_left_neighbour (h := h) hx
    rw [← hcons] at hs
    have hmv := mem_handles_of_mem_block hc hv
    rcases mem_leads_iff.1 hleads with ht | ⟨-, hn⟩
    · -- targets are labels, and a block has a label at its head only
      have hl := (live.targets v hmv x ht).2
      rw [isLabel_of_mem_tail hb hs] at hl
      cases hl
    · obtain ⟨before, behind, hhandles⟩ := exists_handles_eq hb
      obtain ⟨before', behind', hsplit⟩ := (Listing.next?_eq_some_iff live.wf).1 hn
      have hneighbours : l.handles = (before ++ front) ++ a :: x :: (back ++ behind) := by
        rw [hhandles, hs]
        simp
      obtain rfl := left_neighbour_unique live.wf.nodup hsplit hneighbours
      rw [eq_of_mem_handles live.wf hc hb hv (by rw [hs]; simp)]
  · rintro n ⟨b, hb, hne, rfl⟩ m hm
    obtain ⟨front, back, hs⟩ := List.append_of_mem hb
    rw [successors_eq live.wf hs] at hm
    rcases List.mem_append.1 hm with hm | hm
    · obtain ⟨t, ht, rfl⟩ := List.mem_map.1 hm
      obtain ⟨h, hh, ht⟩ := List.mem_flatMap.1 ht
      obtain ⟨hmt, hl⟩ := live.targets h (mem_handles_of_mem_block hb hh) t ht
      obtain ⟨c, hc, htc⟩ := exists_mem_blocksOf hmt
      refine ⟨c, hc, List.ne_nil_of_mem htc, ?_⟩
      rw [label_eq_of_isLabel hc htc hl]
    · cases hterm : b.isTerminal l with
      | true => simp [hterm] at hm
      | false =>
        rw [hterm] at hm
        obtain ⟨d, hd, rfl⟩ := Option.map_eq_some_iff.1 (Option.mem_toList.1 hm)
        obtain ⟨zs, rfl⟩ := List.head?_eq_some_iff.1 hd
        obtain ⟨entry, rest, heq, -, hrest, -⟩ := blocksOf_spec l
        have hmem : d ∈ rest := by
          rw [heq] at hs
          have htail := congrArg List.tail hs
          rw [List.tail_cons] at htail
          rw [htail]
          cases front <;> simp
        obtain ⟨h, tail, rfl, -⟩ := hrest d hmem
        exact ⟨_, by rw [hs]; simp, List.cons_ne_nil _ _, rfl⟩
  · rintro n ⟨b, hb, hne, rfl⟩
    obtain ⟨before, behind, hhandles⟩ := exists_handles_eq hb
    have hnodup := live.wf.nodup
    rw [hhandles, List.append_assoc, List.nodup_append, List.nodup_append] at hnodup
    rw [block_numberOf live.wf hb]
    exact hnodup.2.1.1
  · rintro n m ⟨b, hb, -, rfl⟩ ⟨c, hc, -, rfl⟩ x hxb hxc
    rw [block_numberOf live.wf hb] at hxb
    rw [block_numberOf live.wf hc] at hxc
    rw [eq_of_mem_handles live.wf hb hc hxb hxc]

/-- The handles of the blocks that are placed, in order. -/
def placedHandles (l : Listing) : List Handle :=
  (placed l).flatMap fun n => ((BlockGraph.ofListing l).block n).handles

/-- The handles of the blocks that are laid out are those that are placed. -/
theorem flatMap_layOut (l : Listing) :
    (layOut (BlockGraph.ofListing l)).flatMap (fun p =>
      ((BlockGraph.ofListing l).block p.1).handles) = placedHandles l := by
  rw [placedHandles, layOut_eq, ← map_fst_withNext (placed l), List.flatMap_map, map_fst_withNext]

/-- Blocks without instructions do not count. -/
theorem placedHandles_eq (l : Listing) :
    placedHandles l =
      (BlockGraph.ofListing l).order.flatMap fun n => ((BlockGraph.ofListing l).block n).handles := by
  rw [placedHandles, placed]
  induction (BlockGraph.ofListing l).order with
  | nil => rfl
  | cons n ns ih =>
    rw [List.flatMap_cons, ← ih, List.filter_cons]
    cases hb : ((BlockGraph.ofListing l).block n).handles with
    | nil => simp
    | cons h hs => simp [hb]

/-- The search over the instructions of a listing without dead code lists the blocks in the order of
the search over blocks. -/
theorem AllLive.visits_placed (live : AllLive l) :
    Visits (leads l) ∅ l.first?.toList (placedHandles l) := by
  have hsize : 0 < (BlockGraph.ofListing l).blocks.size := by
    rw [size_blocks_ofListing]
    exact Nat.succ_pos _
  obtain ⟨d, hd, horder⟩ := exists_visits_finishOrder
    (fun n => (BlockGraph.ofListing l).successors[n]?.getD []) hsize
  have horder' : (BlockGraph.ofListing l).order = 0 :: d := horder
  obtain ⟨entry, rest, heq, -, hrest, hcat⟩ := blocksOf_spec l
  have hentry : ⟨none, entry⟩ ∈ blocksOf l := by rw [heq]; simp
  have hzero : (BlockGraph.ofListing l).block 0 = ⟨none, entry⟩ := block_numberOf live.wf hentry
  have hlt : ∀ n, IsPlaced l n → ¬(BlockGraph.ofListing l).blocks.size ≤ n := by
    rintro n ⟨b, hb, -, rfl⟩
    exact Nat.not_le.2 (numberOf_block_lt hb)
  rw [placedHandles_eq, horder', Listing.first?_eq_head?]
  cases entry with
  | cons x entry =>
    have hroot : Visits (fun n => (BlockGraph.ofListing l).successors[n]?.getD [])
        {u | (BlockGraph.ofListing l).blocks.size ≤ u} [0] (0 :: d) :=
      .new (fun h => Nat.not_le.2 hsize h) hd .nil
    have hplaced : ∀ n ∈ [0], IsPlaced l n := by
      intro n hn
      rw [List.mem_singleton.1 hn]
      exact ⟨_, hentry, List.cons_ne_nil _ _, rfl⟩
    have hwhole := live.expands.visits hroot hplaced (fun n hn hm => absurd hm (hlt n hn))
      (fun n _ _ x _ => Set.notMem_empty x)
    rw [← hcat]
    rw [List.map_singleton, blockHead, hzero] at hwhole
    exact hwhole
  | nil =>
    rw [List.flatMap_cons, hzero, ← hcat]
    cases rest with
    | nil =>
      have hfront : blocksOf l = [] ++ ⟨none, []⟩ :: [] := heq
      have hnone := successors_eq live.wf hfront
      change (BlockGraph.ofListing l).successors[0]?.getD [] = [] at hnone
      rw [hnone] at hd
      cases hd
      exact .nil
    | cons b rest =>
      obtain ⟨h, tail, rfl, hl, -⟩ := hrest b (by simp)
      have hb : ⟨some h, h :: tail⟩ ∈ blocksOf l := by rw [heq]; simp
      have hplaced : IsPlaced l (numberOf l (some h)) := ⟨_, hb, List.cons_ne_nil _ _, rfl⟩
      rw [successors_entry live.wf heq] at hd
      have hold : ∀ n, IsPlaced l n → n ∈ insert 0 {u | (BlockGraph.ofListing l).blocks.size ≤ u} →
          blockHead l n ∈ (∅ : Set Handle) := by
        rintro n hn (rfl | hm)
        · -- only the entry has number 0, and it has no instructions
          obtain ⟨c, hc, hne, hnumber⟩ := hn
          obtain rfl := eq_of_numberOf_eq live.wf hc hentry hnumber
          exact absurd rfl hne
        · exact absurd hm (hlt n hn)
      have hwhole := live.expands.visits hd (by
        intro n hn
        rw [List.mem_singleton.1 hn]
        exact hplaced) hold (fun n _ _ x _ => Set.notMem_empty x)
      have hm : h ∈ l.handles := mem_handles_of_mem_block hb (by simp)
      rw [List.map_singleton, blockHead_label live.wf hm hl] at hwhole
      exact hwhole

end Unscramble.Flow
