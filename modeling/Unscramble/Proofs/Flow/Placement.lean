import Unscramble.Proofs.Flow.BlockOrder

/-! # Placing blocks

Blocks are placed one after the other. A block that falls into one which is placed elsewhere gets a
jump there, which is a new node; nothing else is new, so every old handle keeps its instruction.

Main definitions: `Keeps`, `laid`. Main statements: `laid_cons`, `exists_laid_append`,
`rearranged_sortBlocks`. -/

namespace Unscramble.Flow

variable {l l₀ : Listing} {g : BlockGraph}

/-! ### Nodes that stay -/

/-- A listing has all nodes of another one, with the same instructions. -/
structure Keeps (l₀ l : Listing) : Prop where
  /-- No node is lost. -/
  capacity : l₀.capacity ≤ l.capacity
  /-- Nodes keep their instructions. -/
  same : ∀ h < l₀.capacity, l.get h = l₀.get h

/-- A listing keeps its own nodes. -/
theorem Keeps.refl (l : Listing) : Keeps l l :=
  ⟨le_refl _, fun _ _ => rfl⟩

/-- What keeps nodes of a listing that keeps nodes of another one keeps those. -/
theorem Keeps.trans {l₁ l₂ : Listing} (h : Keeps l₀ l₁) (h' : Keeps l₁ l₂) : Keeps l₀ l₂ := by
  refine ⟨h.capacity.trans h'.capacity, ?_⟩
  intro a ha
  rw [h'.same a (Nat.lt_of_lt_of_le ha h.capacity), h.same a ha]

/-- Making a node keeps the others. -/
theorem keeps_create (l : Listing) (insn : Instruction Label) : Keeps l (l.create insn).2 := by
  constructor
  · simp [Listing.create, Listing.capacity]
  · intro h hlt
    have hne : h ≠ l.nodes.size := Nat.ne_of_lt hlt
    simp [Listing.create, Listing.get, Array.getElem?_push, hne]

/-- A node that was made has its instruction. -/
theorem get_create (l : Listing) (insn : Instruction Label) :
    (l.create insn).2.get l.capacity = insn := by
  simp [Listing.create, Listing.get, Listing.capacity]

/-- Making a node adds one. -/
theorem capacity_create (l : Listing) (insn : Instruction Label) :
    (l.create insn).2.capacity = l.capacity + 1 := by
  simp [Listing.create, Listing.capacity]

/-- Whether a block needs a jump does not depend on nodes that were made since. -/
theorem Keeps.detour? (hk : Keeps l₀ l) {n : Nat}
    (hn : ∀ h ∈ (g.block n).handles, h < l₀.capacity) (next : Option Nat) :
    detour? l g n next = detour? l₀ g n next := by
  have hreal : ∀ h ∈ (g.block n).handles.reverse, l.isReal h = l₀.isReal h := by
    intro h hm
    rw [Listing.isReal, Listing.isReal, hk.same h (hn h (List.mem_reverse.1 hm))]
  have hterm : (g.block n).isTerminal l = (g.block n).isTerminal l₀ := by
    rw [Block.isTerminal, Block.isTerminal, Block.lastReal?, Block.lastReal?,
      List.find?_congr hreal]
    cases hfind : (g.block n).handles.reverse.find? l₀.isReal with
    | none => rfl
    | some h =>
      have hm := List.mem_reverse.1 (List.mem_of_find?_eq_some hfind)
      rw [Option.any_some, Option.any_some, hk.same h (hn h hm)]
  rw [Flow.detour?, Flow.detour?, hterm]

/-! ### One block after the other -/

/-- The blocks of a list of places, one after the other and with the jumps that they need, and the
listing that has the jumps. -/
def laid (g : BlockGraph) (l : Listing) : List (Nat × Option Nat) → Listing × List Handle
  | [] => (l, [])
  | place :: places =>
    match detour? l g place.1 place.2 with
    | none => ((laid g l places).1, (g.block place.1).handles ++ (laid g l places).2)
    | some label =>
      let rest := laid g (l.create (.jump .goto label)).2 places
      (rest.1, (g.block place.1).handles ++ l.capacity :: rest.2)

/-- Blocks are placed one after the other. -/
theorem foldl_placeBlock (g : BlockGraph) (places : List (Nat × Option Nat)) (l : Listing)
    (placed : Array Handle) :
    places.foldl (placeBlock g) (l, placed) =
      ((laid g l places).1, placed ++ (laid g l places).2.toArray) := by
  induction places generalizing l placed with
  | nil => simp [laid]
  | cons place places ih =>
    rw [List.foldl_cons, placeBlock, laid]
    cases hd : detour? l g place.1 place.2 with
    | none =>
      simp only [ih]
      simp
    | some label =>
      simp only [ih]
      simp [Listing.create, Listing.capacity]

/-- The sequence of blocks in depth-first order. -/
theorem sortBlocks_eq (l : Listing) :
    sortBlocks l = (laid (BlockGraph.ofListing l) l (layOut (BlockGraph.ofListing l))).1.relink
      (laid (BlockGraph.ofListing l) l (layOut (BlockGraph.ofListing l))).2.toArray := by
  rw [sortBlocks, foldl_placeBlock]
  simp

/-- What is placed for the first block: the block, and a jump behind it where it needs one. -/
theorem laid_cons (place : Nat × Option Nat) (places : List (Nat × Option Nat)) (hk : Keeps l₀ l)
    (hlt : ∀ h ∈ (g.block place.1).handles, h < l₀.capacity) :
    ∃ l₁ jumps, Keeps l l₁ ∧
      laid g l (place :: places) =
        ((laid g l₁ places).1, (g.block place.1).handles ++ jumps ++ (laid g l₁ places).2) ∧
      (detour? l₀ g place.1 place.2 = none ∧ jumps = [] ∨
        ∃ label, detour? l₀ g place.1 place.2 = some label ∧ jumps = [l.capacity] ∧
          l.capacity < l₁.capacity ∧ l₁.get l.capacity = .jump .goto label) := by
  rw [laid, hk.detour? hlt]
  cases hd : detour? l₀ g place.1 place.2 with
  | none => exact ⟨l, [], Keeps.refl l, by simp, .inl ⟨rfl, rfl⟩⟩
  | some label =>
    refine ⟨(l.create (.jump .goto label)).2, [l.capacity], keeps_create l _, by simp,
      .inr ⟨label, rfl, rfl, ?_, get_create l _⟩⟩
    rw [capacity_create]
    exact Nat.lt_succ_self _

variable {places : List (Nat × Option Nat)}

/-- Placing blocks keeps all nodes. -/
theorem keeps_laid (g : BlockGraph) (l : Listing) (places : List (Nat × Option Nat)) :
    Keeps l (laid g l places).1 := by
  induction places generalizing l with
  | nil => exact Keeps.refl l
  | cons place places ih =>
    rw [laid]
    split
    · exact ih l
    · exact (keeps_create l _).trans (ih _)

/-- What is placed stands in a block, or is a new jump that a block needs. -/
theorem mem_laid (hk : Keeps l₀ l)
    (hlt : ∀ p ∈ places, ∀ h ∈ (g.block p.1).handles, h < l₀.capacity) {h : Handle}
    (hm : h ∈ (laid g l places).2) :
    (∃ p ∈ places, h ∈ (g.block p.1).handles) ∨
      l.capacity ≤ h ∧ h < (laid g l places).1.capacity ∧
        ∃ p ∈ places, ∃ label, detour? l₀ g p.1 p.2 = some label ∧
          (laid g l places).1.get h = .jump .goto label := by
  -- On the places, for every listing so far: what is placed for one place is kept by the later
  -- ones.
  induction places generalizing l with
  | nil => cases hm
  | cons place places ih =>
    obtain ⟨l₁, jumps, hk₁, heq, hjumps⟩ :=
      laid_cons place places hk (hlt place (by simp))
    rw [heq] at hm ⊢
    rcases List.mem_append.1 hm with hm | hm
    · rcases List.mem_append.1 hm with hm | hm
      · exact .inl ⟨place, by simp, hm⟩
      · rcases hjumps with ⟨-, rfl⟩ | ⟨label, hd, rfl, hcap, hget⟩
        · cases hm
        · obtain rfl := List.mem_singleton.1 hm
          have hkeep := keeps_laid g l₁ places
          refine .inr ⟨le_refl _, Nat.lt_of_lt_of_le hcap hkeep.capacity, place, by simp, label,
            hd, ?_⟩
          rw [← hget]
          exact hkeep.same _ hcap
    · rcases ih (hk.trans hk₁) (fun p hp => hlt p (by simp [hp])) hm with
        ⟨p, hp, hm⟩ | ⟨hle, hlt', p, hp, h⟩
      · exact .inl ⟨p, by simp [hp], hm⟩
      · exact .inr ⟨hk₁.capacity.trans hle, hlt', p, by simp [hp], h⟩

/-- Nothing is placed twice. -/
theorem nodup_laid (hk : Keeps l₀ l)
    (hlt : ∀ p ∈ places, ∀ h ∈ (g.block p.1).handles, h < l₀.capacity)
    (hnodup : (places.flatMap fun p => (g.block p.1).handles).Nodup) :
    (laid g l places).2.Nodup := by
  induction places generalizing l with
  | nil => exact List.nodup_nil
  | cons place places ih =>
    obtain ⟨l₁, jumps, hk₁, heq, hjumps⟩ :=
      laid_cons place places hk (hlt place (by simp))
    rw [List.flatMap_cons, List.nodup_append] at hnodup
    have hlt' : ∀ p ∈ places, ∀ h ∈ (g.block p.1).handles, h < l₀.capacity :=
      fun p hp => hlt p (by simp [hp])
    have hrest := ih (hk.trans hk₁) hlt' hnodup.2.1
    -- the handles of the first block are old, and are in no other block
    have hblock : ∀ a ∈ (g.block place.1).handles, a ∉ (laid g l₁ places).2 := by
      intro a ha hm
      rcases mem_laid (hk.trans hk₁) hlt' hm with ⟨p, hp, hm⟩ | ⟨hle, -⟩
      · exact hnodup.2.2 a ha a (List.mem_flatMap.2 ⟨p, hp, hm⟩) rfl
      · exact Nat.not_lt.2 ((hk.trans hk₁).capacity.trans hle) (hlt place (by simp) a ha)
    rw [heq]
    change ((g.block place.1).handles ++ jumps ++ (laid g l₁ places).2).Nodup
    rcases hjumps with ⟨-, rfl⟩ | ⟨label, -, rfl, hcap, -⟩
    · rw [List.append_nil, List.nodup_append]
      exact ⟨hnodup.1, hrest, fun a ha c hc hac => hblock a ha (hac ▸ hc)⟩
    · rw [List.append_assoc, List.nodup_append]
      refine ⟨hnodup.1, List.nodup_cons.2 ⟨?_, hrest⟩, ?_⟩
      · intro hm
        rcases mem_laid (hk.trans hk₁) hlt' hm with ⟨p, hp, hm⟩ | ⟨hle, -⟩
        · exact Nat.not_lt.2 hk.capacity (hlt' p hp _ hm)
        · exact Nat.not_lt.2 hle hcap
      · intro a ha c hc
        rintro rfl
        rcases List.mem_cons.1 hc with rfl | hc
        · exact Nat.not_lt.2 hk.capacity (hlt place (by simp) _ ha)
        · exact hblock a ha hc

/-- Where a block is placed: behind it stands what is placed for the next place, or a jump if it needs
one. -/
theorem exists_laid_append (hk : Keeps l₀ l) {front back : List (Nat × Option Nat)}
    {place : Nat × Option Nat} (hs : places = front ++ place :: back)
    (hlt : ∀ p ∈ places, ∀ h ∈ (g.block p.1).handles, h < l₀.capacity) :
    ∃ l₁ done jumps, Keeps l₀ l₁ ∧ (laid g l places).2 =
        done ++ (g.block place.1).handles ++ jumps ++ (laid g l₁ back).2 ∧
      (detour? l₀ g place.1 place.2 = none ∧ jumps = [] ∨
        ∃ label j, detour? l₀ g place.1 place.2 = some label ∧ jumps = [j] ∧ l₀.capacity ≤ j ∧
          (laid g l places).1.get j = .jump .goto label) := by
  -- On the places in front; the listing they leave is the one in which this place is laid.
  subst hs
  induction front generalizing l with
  | nil =>
    obtain ⟨l₁, jumps, hk₁, heq, hjumps⟩ :=
      laid_cons place back hk (hlt place (by simp))
    refine ⟨l₁, [], jumps, hk.trans hk₁, by rw [List.nil_append, heq]; simp, ?_⟩
    rcases hjumps with h | ⟨label, hd, rfl, hcap, hget⟩
    · exact .inl h
    · refine .inr ⟨label, l.capacity, hd, rfl, hk.capacity, ?_⟩
      rw [List.nil_append, heq, ← hget]
      exact (keeps_laid g l₁ back).same _ hcap
  | cons first front ih =>
    obtain ⟨l₁, jumps, hk₁, heq, -⟩ :=
      laid_cons first (front ++ place :: back) hk (hlt first (by simp))
    obtain ⟨l₂, done, jumps', hk₂, heq₂, hjumps'⟩ :=
      ih (hk.trans hk₁) (fun p hp => hlt p (List.mem_cons_of_mem first hp))
    refine ⟨l₂, (g.block first.1).handles ++ jumps ++ done, jumps', hk₂, ?_, ?_⟩
    · rw [List.cons_append, heq]
      change _ ++ (laid g l₁ (front ++ place :: back)).2 = _
      rw [heq₂]
      simp
    · rw [List.cons_append, heq]
      exact hjumps'

/-! ### Blocks in depth-first order -/

/-- The blocks that are placed, in order. -/
def placed (l : Listing) : List Nat :=
  (BlockGraph.ofListing l).order.filter fun n => !((BlockGraph.ofListing l).block n).handles.isEmpty

/-- The layout of the blocks is the order in which they are placed, each with the next one. -/
theorem layOut_eq (l : Listing) : layOut (BlockGraph.ofListing l) = withNext (placed l) := rfl

/-- What is placed is a block of the listing. -/
theorem exists_of_mem_placed (wf : l.WellFormed) {n : Nat} (hn : n ∈ placed l) :
    ∃ b ∈ blocksOf l, numberOf l b.label = n ∧ (BlockGraph.ofListing l).block n = b := by
  refine exists_of_block_ne_nil wf ?_
  have hne := (List.mem_filter.1 hn).2
  simpa using hne

/-- A block with instructions is placed. -/
theorem AllLive.mem_placed (live : AllLive l) {b : Block} (hb : b ∈ blocksOf l) {h : Handle}
    (hm : h ∈ b.handles) : numberOf l b.label ∈ placed l := by
  refine List.mem_filter.2 ⟨live.mem_order hb hm, ?_⟩
  rw [block_numberOf live.wf hb]
  cases hb' : b.handles with
  | nil => rw [hb'] at hm; cases hm
  | cons x xs => rfl

/-- The handles of the blocks that are placed name nodes of the listing. -/
theorem lt_capacity_of_mem_layOut (wf : l.WellFormed) :
    ∀ p ∈ layOut (BlockGraph.ofListing l),
      ∀ h ∈ ((BlockGraph.ofListing l).block p.1).handles, h < l.capacity := by
  intro p hp h hm
  have hn : p.1 ∈ placed l := by
    rw [← map_fst_withNext (placed l)]
    exact List.mem_map_of_mem hp
  obtain ⟨b, hb, -, hblock⟩ := exists_of_mem_placed wf hn
  rw [hblock] at hm
  exact wf.lt_capacity h (mem_handles_of_mem_block hb hm)

/-- The blocks that are placed have no handle in common. -/
theorem nodup_flatMap_layOut (wf : l.WellFormed) :
    ((layOut (BlockGraph.ofListing l)).flatMap fun p =>
      ((BlockGraph.ofListing l).block p.1).handles).Nodup := by
  have hmap : ((layOut (BlockGraph.ofListing l)).flatMap fun p =>
      ((BlockGraph.ofListing l).block p.1).handles) =
      (placed l).flatMap fun n => ((BlockGraph.ofListing l).block n).handles := by
    rw [layOut_eq, ← map_fst_withNext (placed l), List.flatMap_map, map_fst_withNext]
  have hsize : 0 < (BlockGraph.ofListing l).blocks.size := by
    rw [size_blocks_ofListing]
    exact Nat.succ_pos _
  have hnodup : (placed l).Nodup := (nodup_finishOrder hsize).filter _
  -- The handles of one block are distinct, and two blocks share none, since a handle stands in one
  -- block only.
  rw [hmap, List.nodup_flatMap]
  constructor
  · intro n hn
    obtain ⟨b, hb, -, hblock⟩ := exists_of_mem_placed wf hn
    obtain ⟨front, back, hs⟩ := exists_handles_eq hb
    have hhandles := wf.nodup
    rw [hs, List.append_assoc, List.nodup_append, List.nodup_append] at hhandles
    rw [hblock]
    exact hhandles.2.1.1
  · refine hnodup.imp_of_mem ?_
    intro m n hm hn hne a ha hb
    obtain ⟨b, hbm, hnum, hblock⟩ := exists_of_mem_placed wf hm
    obtain ⟨c, hcm, hnum', hblock'⟩ := exists_of_mem_placed wf hn
    change a ∈ ((BlockGraph.ofListing l).block m).handles at ha
    change a ∈ ((BlockGraph.ofListing l).block n).handles at hb
    rw [hblock] at ha
    rw [hblock'] at hb
    apply hne
    rw [← hnum, ← hnum', eq_of_mem_handles wf hbm hcm ha hb]

/-- The sequence when a block is laid out: what stands in front of it, the block, a jump if it needs
one, and what is laid out for the blocks behind it. -/
theorem AllLive.exists_handles_sortBlocks (live : AllLive l) {b : Block} (hb : b ∈ blocksOf l)
    {h : Handle} (hm : h ∈ b.handles) :
    ∃ l₁ done jumps back, Keeps l l₁ ∧
      (sortBlocks l).handles = done ++ b.handles ++ jumps ++
        (laid (BlockGraph.ofListing l) l₁ (withNext back)).2 ∧ (∀ n ∈ back, n ∈ placed l) ∧
      (detour? l (BlockGraph.ofListing l) (numberOf l b.label) back.head? = none ∧ jumps = [] ∨
        ∃ label j, detour? l (BlockGraph.ofListing l) (numberOf l b.label) back.head? = some label ∧
          jumps = [j] ∧ l.capacity ≤ j ∧ (sortBlocks l).get j = .jump .goto label) := by
  obtain ⟨front, back, hsplit⟩ := List.append_of_mem (live.mem_placed hb hm)
  obtain ⟨pairs, hpairs⟩ := exists_withNext_append front (numberOf l b.label) back
  rw [← hsplit, ← layOut_eq] at hpairs
  obtain ⟨l₁, done, jumps, hk, heq, hjumps⟩ :=
    exists_laid_append (Keeps.refl l) hpairs (lt_capacity_of_mem_layOut live.wf)
  rw [block_numberOf live.wf hb] at heq
  refine ⟨l₁, done, jumps, back, hk, ?_, ?_, ?_⟩
  · rw [sortBlocks_eq]
    exact heq
  · intro n hn
    rw [hsplit]
    simp [hn]
  · rw [sortBlocks_eq]
    exact hjumps

/-- Laying out blocks keeps all nodes. -/
theorem keeps_sortBlocks (l : Listing) : Keeps l (sortBlocks l) := by
  have hk := keeps_laid (BlockGraph.ofListing l) l (layOut (BlockGraph.ofListing l))
  rw [sortBlocks_eq]
  exact ⟨hk.capacity, hk.same⟩

/-- A block that needs a jump gets one to the label of a block that it leads to. -/
theorem exists_of_detour? (wf : l.WellFormed) {n : Nat} {next : Option Nat} {label : Label}
    (hd : detour? l (BlockGraph.ofListing l) n next = some label) :
    label ∈ l.handles ∧ (l.get label).isLabel = true ∧ (n < (BlockGraph.ofListing l).blocks.size →
      numberOf l (some label) ∈ (BlockGraph.ofListing l).successors[n]?.getD []) := by
  rw [detour?] at hd
  -- The branches of the definition; a label is left only for an edge that falls through.
  split at hd
  · cases hd
  · split at hd
    · cases hd
    · next below hfall =>
      split at hd
      · cases hd
      · obtain ⟨e, he, rfl⟩ := Option.map_eq_some_iff.1 hfall
        have hfound := List.find?_some he
        have hmem := List.mem_of_find?_eq_some he
        rw [Bool.and_eq_true, beq_iff_eq, beq_iff_eq] at hfound
        obtain ⟨rfl, hkind⟩ := hfound
        obtain ⟨b, c, hp', hedge⟩ := mem_edges_iff.1 hmem
        rcases hedge with hedge | ⟨c, rfl, -, rfl⟩
        · obtain ⟨⟨t, i⟩, -, rfl⟩ := List.mem_map.1 hedge
          cases hkind
        · obtain ⟨front, back, hs, hhead⟩ := mem_withNext_iff.1 hp'
          obtain ⟨rest, rfl⟩ := List.head?_eq_some_iff.1 hhead.symm
          have hc : c ∈ blocksOf l := by rw [hs]; simp
          rw [block_numberOf wf hc] at hd
          obtain ⟨tail, htail, hlabel, -⟩ := exists_handles_of_label hc hd
          refine ⟨mem_handles_of_mem_block hc (by rw [htail]; simp), hlabel, fun hlt => ?_⟩
          rw [← hd]
          exact mem_successors_of_mem_edges hmem hlt

/-- What is laid out stood in the sequence, or is a new jump to the label that heads a block. -/
theorem mem_handles_sortBlocks (wf : l.WellFormed) {h : Handle}
    (hm : h ∈ (sortBlocks l).handles) :
    h ∈ l.handles ∨ h < (sortBlocks l).capacity ∧ ∃ label, label ∈ l.handles ∧
      (l.get label).isLabel = true ∧ (sortBlocks l).get h = .jump .goto label := by
  rw [sortBlocks_eq] at hm ⊢
  rcases mem_laid (Keeps.refl l) (lt_capacity_of_mem_layOut wf) hm with
    ⟨p, hp, hm⟩ | ⟨-, hlt, p, hp, label, hd, hget⟩
  · have hn : p.1 ∈ placed l := by
      rw [← map_fst_withNext (placed l)]
      exact List.mem_map_of_mem hp
    obtain ⟨b, hb, -, hblock⟩ := exists_of_mem_placed wf hn
    rw [hblock] at hm
    exact .inl (mem_handles_of_mem_block hb hm)
  · obtain ⟨hm, hlabel, -⟩ := exists_of_detour? wf hd
    exact .inr ⟨hlt, label, hm, hlabel, hget⟩

/-- Laying out blocks keeps a listing well formed. -/
theorem wellFormed_sortBlocks (wf : l.WellFormed) : (sortBlocks l).WellFormed := by
  constructor
  · rw [sortBlocks_eq]
    exact nodup_laid (Keeps.refl l) (lt_capacity_of_mem_layOut wf) (nodup_flatMap_layOut wf)
  · intro h hm
    rcases mem_handles_sortBlocks wf hm with hm | ⟨hlt, -⟩
    · exact Nat.lt_of_lt_of_le (wf.lt_capacity h hm) (keeps_sortBlocks l).capacity
    · exact hlt

/-- The first handle of the block that is placed first is the first of the sequence. -/
theorem head?_sortBlocks_of_placed (wf : l.WellFormed) {b : Block} (hb : b ∈ blocksOf l)
    {places : List Nat} (hplaces : placed l = numberOf l b.label :: places) {x : Handle}
    {xs : List Handle} (hx : b.handles = x :: xs) :
    (sortBlocks l).handles.head? = some x := by
  have hlt := lt_capacity_of_mem_layOut wf
  rw [layOut_eq, hplaces, withNext_cons] at hlt
  obtain ⟨l₁, jumps, -, hlaid, -⟩ :=
    laid_cons _ (withNext places) (Keeps.refl l) (hlt _ List.mem_cons_self)
  rw [sortBlocks_eq, layOut_eq, hplaces, withNext_cons, hlaid]
  change (_ ++ _ ++ _ : List Handle).head? = _
  rw [block_numberOf wf hb, hx]
  rfl

/-- The sequence begins as before. -/
theorem AllLive.head?_sortBlocks (live : AllLive l) :
    (sortBlocks l).handles.head? = l.handles.head? := by
  obtain ⟨entry, rest, heq, -, hrest, hcat⟩ := blocksOf_spec l
  have hentry : ⟨none, entry⟩ ∈ blocksOf l := by rw [heq]; simp
  have hzero : (BlockGraph.ofListing l).block 0 = ⟨none, entry⟩ := block_numberOf live.wf hentry
  cases entry with
  | cons x entry =>
    obtain ⟨order, horder⟩ := order_eq_cons (BlockGraph.ofListing l)
    have hplaces : ∃ places, placed l = 0 :: places := by
      rw [placed, horder, List.filter_cons_of_pos (by rw [hzero]; rfl)]
      exact ⟨_, rfl⟩
    obtain ⟨places, hplaces⟩ := hplaces
    rw [head?_sortBlocks_of_placed live.wf hentry hplaces rfl, ← hcat]
    rfl
  | nil =>
    cases rest with
    | nil =>
      -- there is no block with instructions, so none is placed
      have hplaces : placed l = [] := by
        rw [placed, List.filter_eq_nil_iff]
        intro n _ hne
        obtain ⟨b, hb, -, hblock⟩ := exists_of_block_ne_nil live.wf (n := n) (by simpa using hne)
        rw [heq] at hb
        rw [hblock, List.mem_singleton.1 hb] at hne
        cases hne
      rw [sortBlocks_eq, layOut_eq, hplaces, ← hcat]
      rfl
    | cons d rest =>
      -- the empty entry is left out, and the block below it is next
      have hd : d ∈ blocksOf l := by rw [heq]; simp
      obtain ⟨h, tail, rfl, hlabel, -⟩ := hrest d (by simp)
      have hmem : h ∈ l.handles := mem_handles_of_mem_block hd (by simp)
      obtain ⟨k, hk, -⟩ := exists_numberOf_eq (mem_mentionedLabels hmem hlabel)
      obtain ⟨order, horder⟩ := order_eq_cons_cons (successors_entry live.wf heq)
        (numberOf_block_lt hd) (by rw [hk]; exact Nat.succ_ne_zero k)
      have hplaces : ∃ places, placed l = numberOf l (some h) :: places := by
        rw [placed, horder, List.filter_cons_of_neg (by rw [hzero]; simp),
          List.filter_cons_of_pos (by rw [block_numberOf live.wf hd]; rfl)]
        exact ⟨_, rfl⟩
      obtain ⟨places, hplaces⟩ := hplaces
      rw [head?_sortBlocks_of_placed live.wf hd hplaces rfl, ← hcat]
      rfl

/-- What stands below a handle stays below it or is the target of a new jump there. -/
theorem AllLive.next?_sortBlocks (live : AllLive l) {h n : Handle} (hn : l.next? h = some n)
    (hopen : (l.get h).isTerminal = false) :
    (sortBlocks l).next? h = some n ∨ ∃ j, (sortBlocks l).next? h = some j ∧ l.capacity ≤ j ∧
      (sortBlocks l).get j = .jump .goto n := by
  have wf' := wellFormed_sortBlocks live.wf
  obtain ⟨front, back, hs⟩ := (Listing.next?_eq_some_iff live.wf).1 hn
  rcases neighbours_blocks hs with ⟨b, hb, r, t, hr⟩ | ⟨ys, b, d, zs, r, hblocks, hr, hlabel⟩
  · -- neighbours in a block stay together
    obtain ⟨l₁, done, jumps, places, -, heq, -⟩ :=
      live.exists_handles_sortBlocks hb (h := h) (by rw [hr]; simp)
    generalize (laid _ l₁ _).2 = rest at heq
    refine .inl ((Listing.next?_eq_some_iff wf').2 ⟨done ++ r, t ++ jumps ++ rest, ?_⟩)
    rw [heq, hr]
    simp
  · have hb : b ∈ blocksOf l := by rw [hblocks]; simp
    have hd : d ∈ blocksOf l := by rw [hblocks]; simp
    have hterm := live.isTerminal_block hb hr hopen
    have hfall := (fallthrough?_eq_some live.wf hblocks hterm).1
    obtain ⟨tail, htail, -⟩ := exists_handles_of_label hd hlabel
    obtain ⟨l₁, done, jumps, places, hk, heq, hplaces, hjumps⟩ :=
      live.exists_handles_sortBlocks hb (h := h) (by rw [hr]; simp)
    have hdetour : detour? l (BlockGraph.ofListing l) (numberOf l b.label) places.head? =
        if places.head? = some (numberOf l d.label) then none else some n := by
      rw [detour?, block_numberOf live.wf hb, hterm, hfall]
      simp only [Bool.false_eq_true, if_false]
      rw [block_numberOf live.wf hd, hlabel]
    by_cases hnext : places.head? = some (numberOf l d.label)
    · -- the block below is laid out next
      rw [hdetour, if_pos hnext] at hjumps
      rcases hjumps with ⟨-, rfl⟩ | ⟨label, j, hfalse, -⟩
      · obtain ⟨places', rfl⟩ := List.head?_eq_some_iff.1 hnext
        obtain ⟨l₂, jumps, -, hlaid, -⟩ :=
          laid_cons (g := BlockGraph.ofListing l) (numberOf l d.label, places'.head?)
            (withNext places') hk (by
              rw [block_numberOf live.wf hd]
              exact fun a ha => live.wf.lt_capacity a (mem_handles_of_mem_block hd ha))
        rw [withNext_cons, hlaid, block_numberOf live.wf hd, htail, hr] at heq
        generalize (laid _ l₂ _).2 = rest at heq
        refine .inl ((Listing.next?_eq_some_iff wf').2 ⟨done ++ r, tail ++ jumps ++ rest, ?_⟩)
        rw [heq]
        simp
      · cases hfalse
    · rw [hdetour, if_neg hnext] at hjumps
      rcases hjumps with ⟨hfalse, -⟩ | ⟨label, j, hlabel', rfl, hnew, hget⟩
      · cases hfalse
      · cases hlabel'
        generalize (laid _ l₁ _).2 = rest at heq
        refine .inr ⟨j, (Listing.next?_eq_some_iff wf').2 ⟨done ++ r, rest, ?_⟩, hnew, hget⟩
        rw [heq, hr]
        simp

/-- A handle leads to what stood below it. -/
theorem AllLive.leadsTo_sortBlocks (live : AllLive l) {h n : Handle} (hn : l.next? h = some n)
    (hopen : (l.get h).isTerminal = false) : LeadsTo (sortBlocks l) h n := by
  rcases live.next?_sortBlocks hn hopen with hn' | ⟨j, hj, -, hget⟩
  · exact .inl hn'
  · exact .inr ⟨j, hj, by rw [hget]; rfl⟩

/-- Laying out the blocks of a listing without dead code rearranges it. -/
theorem rearranged_sortBlocks (live : AllLive l) : Rearranged l (sortBlocks l) := by
  refine ⟨live.head?_sortBlocks, ?_, ?_, fun h n => live.leadsTo_sortBlocks⟩
  · intro h hm
    obtain ⟨b, hb, hmb⟩ := exists_mem_blocksOf hm
    obtain ⟨l₁, done, jumps, places, -, heq, -⟩ := live.exists_handles_sortBlocks hb hmb
    rw [heq]
    simp [hmb]
  · intro h hm
    exact (keeps_sortBlocks l).same h (live.wf.lt_capacity h hm)

/-- Laying out the blocks of a listing without dead code leaves all targets linked. -/
theorem targetsLinked_sortBlocks (live : AllLive l) : (sortBlocks l).TargetsLinked := by
  have r := rearranged_sortBlocks live
  have hold : ∀ t ∈ l.handles, (l.get t).isLabel = true →
      t ∈ (sortBlocks l).handles ∧ ((sortBlocks l).get t).isLabel = true := by
    intro t hm hl
    rw [r.same t hm]
    exact ⟨r.linked t hm, hl⟩
  intro h hm t ht
  rcases mem_handles_sortBlocks live.wf hm with hm | ⟨-, label, hml, hl, hget⟩
  · rw [r.same h hm] at ht
    obtain ⟨hmt, hl⟩ := live.targets h hm t ht
    exact hold t hmt hl
  · rw [hget] at ht
    obtain rfl := List.mem_singleton.1 ht
    exact hold t hml hl

end Unscramble.Flow
