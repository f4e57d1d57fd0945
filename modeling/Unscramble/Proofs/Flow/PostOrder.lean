import Unscramble.Proofs.Flow.Blocks
import Unscramble.Proofs.Flow.Visits

/-! # The order of blocks

A block graph cuts its listing in front of every label, and control goes from a block to the blocks
of its targets in order and then to the block below. The order of the blocks is the reverse of the
order in which a recursive depth-first search finishes them, so that a block stands before all it
leads to unless control can come back.

Main definitions: `postOrder`, `BlockGraph.leadsTo`, `BlockGraph.Cuts`, `BlockGraph.Joins`. Main
statements: `Visits.precedes`, `visits_postOrder`, `cuts_ofListing`, `joins_ofListing`,
`order_ofListing`. -/

namespace Unscramble.Flow

/-! ### Searches by recursion -/

/-- Meeting a number leaves fewer numbers to meet. -/
theorem card_unmet_lt {size v : Nat} {met met' : Finset Nat} (hv : v < size ∧ v ∉ met)
    (hsub : insert v met ⊆ met') : (Finset.range size \ met').card < (Finset.range size \ met).card := by
  refine Finset.card_lt_card (Finset.ssubset_iff.2 ⟨v, ?_, ?_⟩)
  · simp [hsub (Finset.mem_insert_self v met)]
  · refine Finset.insert_subset (by simp [hv]) ?_
    exact Finset.sdiff_subset_sdiff subset_rfl
      ((Finset.subset_insert v met).trans hsub)

/-- The numbers below `size` that a recursive depth-first search finishes when it visits the members
of a list in turn, the first to be finished first. A number that was met before is passed over;
another one is finished when everything it leads to has been visited. -/
def postOrder (next : Nat → List Nat) (size : Nat) (met : Finset Nat) : List Nat → List Nat
  | [] => []
  | v :: vs =>
    if v < size ∧ v ∉ met then
      let below := postOrder next size (insert v met) (next v)
      below ++ v :: postOrder next size (insert v met ∪ below.toFinset) vs
    else postOrder next size met vs
termination_by vs => ((Finset.range size \ met).card, vs.length)
decreasing_by
  · exact Prod.Lex.left _ _ (card_unmet_lt ‹_› subset_rfl)
  · exact Prod.Lex.left _ _ (card_unmet_lt ‹_› Finset.subset_union_left)
  · exact Prod.Lex.right _ (Nat.lt_succ_self _)

/-- The recursive search is the search by derivation, backwards. -/
theorem visits_postOrder (next : Nat → List Nat) (size : Nat) (met : Finset Nat) (vs : List Nat) :
    Visits next (↑met ∪ {u | size ≤ u}) vs (postOrder next size met vs).reverse := by
  fun_induction postOrder next size met vs with
  | case1 met => exact .nil
  | case2 met v vs h below ih₁ ih₂ =>
    have hfresh : v ∉ (↑met ∪ {u | size ≤ u} : Set Nat) := by
      rintro (hmet | hsize)
      · exact h.2 hmet
      · exact Nat.not_le.2 h.1 hsize
    rw [Finset.coe_insert, Set.insert_union] at ih₁
    have hmet : (↑(insert v met ∪ below.toFinset) ∪ {u | size ≤ u} : Set Nat) =
        insert v (↑met ∪ {u | size ≤ u}) ∪ {x | x ∈ below.reverse} := by
      ext x
      simp
      tauto
    rw [hmet] at ih₂
    rw [List.reverse_append, List.reverse_cons, List.append_assoc, List.singleton_append]
    exact .new hfresh ih₁ ih₂
  | case3 met v vs h ih =>
    refine .seen ?_ ih
    by_contra hfresh
    rw [Set.mem_union, not_or] at hfresh
    exact h ⟨Nat.not_le.1 hfresh.2, hfresh.1⟩

/-- A listed element comes before everything it leads to that was not met before, unless that leads
back to it. -/
theorem Visits.precedes {α : Type} {next : α → List α} {met : Set α} {vs d : List α}
    (h : Visits next met vs d) {u w : α} (hu : u ∈ d) (hw : w ∈ next u) :
    w ∈ met ∨ [u, w].Sublist d ∨ Relation.ReflTransGen (fun a b => b ∈ next a) w u := by
  induction h with
  | nil => cases hu
  | seen _ _ ih => exact ih hu
  | @new met v vs d e _ below _ ihd ihe =>
    have hmiddle : ∀ {x}, x ∈ d → [v, x].Sublist (e ++ v :: d) := fun hx =>
      ((List.singleton_sublist.2 hx).cons_cons v).trans (List.sublist_append_right e _)
    rcases List.mem_append.1 hu with hu | hu
    · -- finished after `v`, so everything that was met by then stands behind it
      have hbehind : ∀ {x}, x ∈ v :: d → [u, x].Sublist (e ++ v :: d) := fun hx =>
        (List.singleton_sublist.2 hu).append (List.singleton_sublist.2 hx)
      rcases ihe hu with ((rfl | hmet) | hd) | hsub | hback
      · exact .inr (.inl (hbehind List.mem_cons_self))
      · exact .inl hmet
      · exact .inr (.inl (hbehind (List.mem_cons_of_mem _ hd)))
      · exact .inr (.inl (hsub.trans (List.sublist_append_left e _)))
      · exact .inr (.inr hback)
    · rcases List.mem_cons.1 hu with rfl | hd
      · rcases below.covers w hw with (rfl | hmet) | hd
        · exact .inr (.inr .refl)
        · exact .inl hmet
        · exact .inr (.inl (hmiddle hd))
      · rcases ihd hd with (rfl | hmet) | hsub | hback
        · -- `w` is being visited while `u` is, so it leads to `u`
          have hreach := below.forall_mem (p := Relation.ReflTransGen (fun a b => b ∈ next a) w)
            (fun x hx => .single hx) fun x hx y hy => hx.tail hy
          exact .inr (.inr (hreach u hd))
        · exact .inl hmet
        · exact .inr (.inl (hsub.trans ((List.sublist_cons_self v d).trans
            (List.sublist_append_right e _))))
        · exact .inr (.inr hback)

variable {l : Listing}

/-! ### The blocks of a graph -/

/-- Where a kind of edge comes among those of a block: the jumps by their ordinals, and the way
through the bottom last. -/
def EdgeKind.rank : EdgeKind → WithTop Nat
  | .jump ordinal => ordinal
  | .fall => ⊤

namespace BlockGraph

/-- The blocks that a block leads to. -/
def leadsTo (g : BlockGraph) (n : Nat) : List Nat :=
  g.successors[n]?.getD []

/-- A block graph cuts a listing in front of every label: the blocks of the numbers `ns`, one after
the other, are its sequence. -/
structure Cuts (g : BlockGraph) (l : Listing) (ns : List Nat) : Prop where
  /-- The blocks one after the other are the sequence. -/
  handles : ns.flatMap (fun n => (g.block n).handles) = l.handles
  /-- No block is there twice. -/
  nodup : ns.Nodup
  /-- The blocks are those of the graph. -/
  lt_size : ∀ n ∈ ns, n < g.blocks.size
  /-- The entry is the first and has no label. -/
  entry : ns.head? = some 0 ∧ (g.block 0).label = none ∧
    ∀ h ∈ (g.block 0).handles, (l.get h).isLabel = false
  /-- Every other block begins with its label and has no other. -/
  headed : ∀ n ∈ ns.tail, Headed l (g.block n)
  /-- What else the graph has are empty blocks for labels that are mentioned. -/
  unplaced : ∀ n < g.blocks.size, n ∉ ns →
    ∃ t ∈ mentionedLabels l, g.block n = ⟨some t, []⟩
  /-- No label has two blocks. -/
  unique : ∀ m < g.blocks.size, ∀ n < g.blocks.size, (g.block m).label = (g.block n).label → m = n

/-- A block graph joins the blocks of a listing: control goes from a block to the blocks of its
targets in order, and then to the block below unless the block is terminal. -/
structure Joins (g : BlockGraph) (l : Listing) (ns : List Nat) : Prop where
  /-- The targets in order, and then the block below. -/
  placed : ∀ front n back, ns = front ++ n :: back → ∃ jumps,
    List.Forall₂ (fun t k => k < g.blocks.size ∧ (g.block k).label = some t)
      ((g.block n).targets l) jumps ∧
    g.leadsTo n = jumps ++ if (g.block n).isTerminal l then [] else back.head?.toList
  /-- Control does not leave the empty block of a label that stands nowhere. -/
  unplaced : ∀ n ∉ ns, g.leadsTo n = []
  /-- In whatever order the edges of a block are given, sorting them by rank gives this one. -/
  sorted : ∀ n < g.blocks.size, ∀ es : List Edge, es.Perm (g.edges.filter (·.source = n)) →
    es.Pairwise (fun a b => a.kind.rank ≤ b.kind.rank) → es.map Edge.target = g.leadsTo n

end BlockGraph

open BlockGraph

/-- Targets of linked instructions are mentioned. -/
theorem mem_mentionedLabels_of_targets {h t : Handle} (hm : h ∈ l.handles)
    (ht : t ∈ (l.get h).targets) : t ∈ mentionedLabels l := by
  refine List.mem_flatMap.2 ⟨h, hm, ?_⟩
  split
  · next hlabel =>
    -- a label has no targets
    cases hget : l.get h <;> rw [hget] at hlabel ht <;> cases hlabel
    cases ht
  · exact ht

/-- A number that no block of the listing has is that of a label that is mentioned. -/
theorem block_of_not_mem {n : Nat} (hn : n < (ofListing l).blocks.size)
    (hm : n ∉ (blocksOf l).map fun b => numberOf l b.label) :
    ∃ k t, n = k + 1 ∧ (numberLabels l).2[k]? = some t ∧ (ofListing l).block n = ⟨some t, []⟩ := by
  have hblock : (ofListing l).block n = (emptyBlocks l)[n]?.getD {} := by
    rw [block, blocks_ofListing,
      getElem?_foldl_set_of_not_mem (fun b : Block => numberOf l b.label) (fun b => b) hm]
  cases n with
  | zero =>
    -- the entry has number 0
    obtain ⟨front, rest, heq, -⟩ := blocksOf_spec l
    rw [heq] at hm
    exact absurd List.mem_cons_self hm
  | succ k =>
    rw [size_blocks_ofListing] at hn
    have hk : k < (numberLabels l).2.length := Nat.lt_of_succ_lt_succ hn
    refine ⟨k, (numberLabels l).2[k], rfl, List.getElem?_eq_getElem hk, ?_⟩
    rw [hblock, emptyBlocks, List.getElem?_toArray, List.getElem?_cons_succ, List.getElem?_map,
      List.getElem?_eq_getElem hk]
    rfl

/-- The label with a given number, which is not the number of the entry. -/
def labelAt? (l : Listing) : Nat → Option Label
  | 0 => none
  | k + 1 => (numberLabels l).2[k]?

/-- The labels of the blocks by number. -/
theorem label_block (wf : l.WellFormed) {n : Nat} (hn : n < (ofListing l).blocks.size) :
    ((ofListing l).block n).label = labelAt? l n := by
  by_cases hm : n ∈ (blocksOf l).map fun b => numberOf l b.label
  · obtain ⟨b, hb, rfl⟩ := List.mem_map.1 hm
    rw [block_numberOf wf hb]
    cases hlabel : b.label with
    | none => rfl
    | some a =>
      obtain ⟨tail, hs, hl, -⟩ := exists_handles_of_label hb hlabel
      have hlinked : a ∈ l.handles := mem_handles_of_mem_block hb (by rw [hs]; simp)
      obtain ⟨k, hk, hplace⟩ := exists_numberOf_eq (mem_mentionedLabels hlinked hl)
      rw [hk]
      exact hplace.symm
  · obtain ⟨k, t, rfl, hplace, hblock⟩ := block_of_not_mem hn hm
    rw [hblock]
    exact hplace.symm

/-- The block of a label that is mentioned is the one with its number. -/
theorem label_numberOf (wf : l.WellFormed) {t : Label} (ht : t ∈ mentionedLabels l) :
    ((ofListing l).block (numberOf l (some t))).label = some t := by
  obtain ⟨k, hk, hplace⟩ := exists_numberOf_eq ht
  rw [label_block wf (numberOf_lt ht), hk]
  exact hplace

/-- The blocks of a listing are cut at its labels. -/
theorem cuts_ofListing (wf : l.WellFormed) :
    (ofListing l).Cuts l ((blocksOf l).map fun b => numberOf l b.label) := by
  obtain ⟨front, rest, heq, hfront, hrest, -⟩ := blocksOf_spec l
  -- The entry is the block without a label, and is numbered first.
  have hentry : ⟨none, front⟩ ∈ blocksOf l := by rw [heq]; simp
  have hzero : (ofListing l).block 0 = ⟨none, front⟩ := block_numberOf wf hentry
  refine ⟨?_, nodup_map_numberOf wf, ?_, ?_, ?_, ?_, ?_⟩
  · rw [List.flatMap_map, ← flatMap_handles_blocksOf]
    exact List.flatMap_congr fun b hb => by rw [block_numberOf wf hb]
  · intro n hn
    obtain ⟨b, hb, rfl⟩ := List.mem_map.1 hn
    exact numberOf_block_lt hb
  · rw [hzero]
    exact ⟨by rw [heq]; rfl, rfl, hfront⟩
  · intro n hn
    rw [heq, List.map_cons, List.tail_cons] at hn
    obtain ⟨b, hb, rfl⟩ := List.mem_map.1 hn
    rw [block_numberOf wf (by rw [heq]; exact List.mem_cons_of_mem _ hb)]
    exact hrest b hb
  · intro n hn hm
    obtain ⟨k, t, rfl, hplace, hblock⟩ := block_of_not_mem hn hm
    exact ⟨t, (numberLabels_spec l).2.2 t (List.mem_of_getElem? hplace), hblock⟩
  · intro m hm n hn hlabel
    rw [label_block wf hm, label_block wf hn] at hlabel
    -- Every number but the first belongs to a label, and the numbering is injective.
    have hsome : ∀ {k}, k + 1 < (ofListing l).blocks.size → ∃ t, (numberLabels l).2[k]? = some t := by
      intro k hk
      rw [size_blocks_ofListing] at hk
      exact ⟨_, List.getElem?_eq_getElem (Nat.lt_of_succ_lt_succ hk)⟩
    cases m with
    | zero =>
      cases n with
      | zero => rfl
      | succ k =>
        obtain ⟨t, ht⟩ := hsome hn
        exact nomatch hlabel.trans ht
    | succ j =>
      obtain ⟨t, ht⟩ := hsome hm
      cases n with
      | zero => exact nomatch hlabel.symm.trans ht
      | succ k =>
        have hj := ((numberLabels_spec l).1 t j).2 ht
        have hk := ((numberLabels_spec l).1 t k).2 (hlabel.symm.trans ht)
        exact Option.some.inj (hj.symm.trans hk)

/-- The edges of a block are in the order of their ranks. -/
theorem pairwise_outgoing (b : Block) (next : Option Block) :
    (outgoing l (b, next)).Pairwise fun e f => e.kind.rank < f.kind.rank := by
  have hjumps : (jumpEdges l (numberLabels l).1 b).Pairwise fun e f => e.kind.rank < f.kind.rank := by
    have hordinals : ((b.targets l).zipIdx.map Prod.snd).Pairwise (· < ·) := by
      rw [List.zipIdx_map_snd]
      exact List.pairwise_lt_range'
    rw [jumpEdges, List.pairwise_map]
    exact (List.pairwise_map.1 hordinals).imp fun hlt => WithTop.coe_lt_coe.2 hlt
  rw [outgoing]
  refine List.pairwise_append.2 ⟨hjumps, ?_, ?_⟩
  · cases next with
    | none => exact .nil
    | some c =>
      dsimp only
      split
      · exact .nil
      · exact List.pairwise_singleton _ _
  -- Jumps rank by their ordinals, and falling through ranks behind them all.
  · intro e he f hf
    obtain ⟨⟨t, i⟩, -, rfl⟩ := List.mem_map.1 he
    cases next with
    | none => cases hf
    | some c =>
      dsimp only at hf
      split at hf
      · cases hf
      · rw [List.mem_singleton.1 hf]
        exact WithTop.coe_lt_top i

/-- What a block leads to by the edges with its number. -/
theorem leadsTo_ofListing (n : Nat) : (ofListing l).leadsTo n =
    if n < (ofListing l).blocks.size then
      ((ofListing l).edges.filter (·.source = n)).map Edge.target else [] := by
  by_cases hn : n < (ofListing l).blocks.size
  · rw [if_pos hn, leadsTo, successors_getD _ hn]
  · rw [if_neg hn, leadsTo, successors, List.foldl_reverse,
      getElem?_foldr_modify Edge.source Edge.target, Array.getElem?_replicate, if_neg hn]
    rfl

/-- The edges with a number that is not in the listing. -/
theorem filter_edges_of_not_mem {n : Nat} (hm : n ∉ (blocksOf l).map fun b => numberOf l b.label) :
    (ofListing l).edges.filter (·.source = n) = [] := by
  rw [List.filter_eq_nil_iff]
  intro e he hsource
  rw [edges_eq_flatMap] at he
  obtain ⟨⟨b, next⟩, hp, he⟩ := List.mem_flatMap.1 he
  obtain ⟨front, back, hs, -⟩ := mem_withNext_iff.1 hp
  refine hm (List.mem_map.2 ⟨b, by rw [hs]; simp, ?_⟩)
  rw [← source_of_mem_outgoing he]
  exact of_decide_eq_true hsource

/-- The blocks of a listing are joined by its jumps and its order. -/
theorem joins_ofListing (wf : l.WellFormed) :
    (ofListing l).Joins l ((blocksOf l).map fun b => numberOf l b.label) := by
  refine ⟨?_, ?_, ?_⟩
  · intro front n back hs
    obtain ⟨front', rest, hblocks, rfl, hrest⟩ := List.map_eq_append_iff.1 hs
    obtain ⟨b, back', rfl, rfl, rfl⟩ := List.map_eq_cons_iff.1 hrest
    have hb : b ∈ blocksOf l := by rw [hblocks]; simp
    refine ⟨(b.targets l).map fun t => numberOf l (some t), ?_, ?_⟩
    · rw [block_numberOf wf hb, List.forall₂_map_right_iff, List.forall₂_same]
      intro t ht
      obtain ⟨h, hh, ht⟩ := List.mem_flatMap.1 ht
      have hmentioned := mem_mentionedLabels_of_targets (mem_handles_of_mem_block hb hh) ht
      exact ⟨numberOf_lt hmentioned, label_numberOf wf hmentioned⟩
    · rw [block_numberOf wf hb, List.head?_map]
      exact successors_eq wf hblocks
  · intro n hn
    rw [leadsTo_ofListing, filter_edges_of_not_mem hn, List.map_nil, ite_self]
  · intro n hn es hperm hsorted
    have hedges : ((ofListing l).edges.filter (·.source = n)).Pairwise
        fun e f => e.kind.rank < f.kind.rank := by
      by_cases hm : n ∈ (blocksOf l).map fun b => numberOf l b.label
      · obtain ⟨b, hb, rfl⟩ := List.mem_map.1 hm
        obtain ⟨front, back, hs⟩ := List.append_of_mem hb
        rw [filter_edges wf hs]
        exact pairwise_outgoing b back.head?
      · rw [filter_edges_of_not_mem hm]
        exact .nil
    -- edges with the same rank are the same, so that there is one way to sort them
    have hranks : (((ofListing l).edges.filter (·.source = n)).map (·.kind.rank)).Nodup :=
      List.pairwise_map.2 (hedges.imp fun hlt => hlt.ne)
    have heq : es = (ofListing l).edges.filter (·.source = n) :=
      hperm.eq_of_pairwise (fun e f he hf hle hge =>
        List.inj_on_of_nodup_map hranks (hperm.subset he) hf (le_antisymm hle hge)) hsorted
        (hedges.imp fun hlt => hlt.le)
    rw [heq, leadsTo_ofListing, if_pos hn]

/-! ### The order -/

/-- What a block leads to is a block. -/
theorem lt_size_of_mem_leadsTo {m n : Nat} (h : n ∈ (ofListing l).leadsTo m) :
    n < (ofListing l).blocks.size := by
  rw [leadsTo_ofListing] at h
  split at h
  · obtain ⟨e, he, rfl⟩ := List.mem_map.1 h
    obtain ⟨b, next, hp, hjump | ⟨c, rfl, -, rfl⟩⟩ := mem_edges_iff.1 (List.mem_of_mem_filter he)
    · obtain ⟨⟨t, i⟩, ht, rfl⟩ := List.mem_map.1 hjump
      obtain ⟨a, ha, ht⟩ := List.mem_flatMap.1 (List.fst_mem_of_mem_zipIdx ht)
      obtain ⟨front, back, hs, -⟩ := mem_withNext_iff.1 hp
      have hlinked := mem_handles_of_mem_block (b := b) (by rw [hs]; simp) ha
      exact numberOf_lt (mem_mentionedLabels_of_targets hlinked ht)
    · obtain ⟨front, back, hs, hback⟩ := mem_withNext_iff.1 hp
      have hc := List.mem_of_mem_head? hback.symm
      exact numberOf_block_lt (by rw [hs]; simp [hc])
  · cases h

/-- The order of the blocks is what a search from the entry lists. -/
theorem visits_order (l : Listing) :
    Visits (ofListing l).leadsTo {u | (ofListing l).blocks.size ≤ u} [0] (ofListing l).order := by
  have hsize : 0 < (ofListing l).blocks.size := by
    rw [size_blocks_ofListing]
    exact Nat.succ_pos _
  obtain ⟨d, hd, horder⟩ := exists_visits_finishOrder (ofListing l).leadsTo hsize
  have horder : (ofListing l).order = [] ++ 0 :: d := horder
  rw [horder]
  exact .new (Nat.not_le.2 hsize) hd .nil

/-- The blocks of a listing are its stretches between labels, and their order is the reverse of the
order in which a recursive depth-first search from the entry, which follows the targets of a block in
order and then goes to the block below, finishes them. So it lists exactly the blocks that the entry
leads to, each once and the entry first, and if control never comes back, each block before all that
it leads to. -/
theorem order_ofListing (l : Listing) (wf : l.WellFormed) :
    (∃ ns, (ofListing l).Cuts l ns ∧ (ofListing l).Joins l ns) ∧
      (ofListing l).order =
        (postOrder (ofListing l).leadsTo (ofListing l).blocks.size ∅ [0]).reverse ∧
      (ofListing l).order.Nodup ∧ (ofListing l).order.head? = some 0 ∧
      (∀ n, n ∈ (ofListing l).order ↔
        Relation.ReflTransGen (fun m n => n ∈ (ofListing l).leadsTo m) 0 n) ∧
      ((∀ n ∈ (ofListing l).order,
          ¬Relation.TransGen (fun m n => n ∈ (ofListing l).leadsTo m) n n) →
        ∀ m ∈ (ofListing l).order, ∀ n ∈ (ofListing l).leadsTo m,
          [m, n].Sublist (ofListing l).order) := by
  -- The order is that of a traversal, and a traversal of the same successors visits in one order
  -- only.
  have hvisits := visits_order l
  have hbelow : ∀ {m n}, n ∈ (ofListing l).leadsTo m → n ∉ {u | (ofListing l).blocks.size ≤ u} :=
    fun hn => Nat.not_le.2 (lt_size_of_mem_leadsTo hn)
  refine ⟨⟨_, cuts_ofListing wf, joins_ofListing wf⟩, ?_, hvisits.nodup, ?_, ?_, ?_⟩
  · have hpost := visits_postOrder (ofListing l).leadsTo (ofListing l).blocks.size ∅ [0]
    rw [Finset.coe_empty, Set.empty_union] at hpost
    exact hvisits.unique hpost
  · obtain ⟨rest, hrest⟩ := order_eq_cons (ofListing l)
    rw [hrest, List.head?_cons]
  · intro n
    constructor
    · refine hvisits.forall_mem ?_ (fun m hm w hw => hm.tail hw) n
      intro v hv
      rw [List.mem_singleton.1 hv]
    · intro hn
      induction hn with
      | refl =>
        obtain ⟨rest, hrest⟩ := order_eq_cons (ofListing l)
        rw [hrest]
        exact List.mem_cons_self
      | tail _ hlead ih => exact (hvisits.closed _ ih _ hlead).resolve_left (hbelow hlead)
  -- If a block that is led to came first, there would be a way back from it.
  · intro hacyclic m hm n hn
    rcases hvisits.precedes hm hn with hold | hsub | hback
    · exact absurd hold (hbelow hn)
    · exact hsub
    · exact absurd (Relation.TransGen.head' hn hback) (hacyclic m hm)

/-- A switch with a case twice, a block that jumps to itself, and one that stands in front of it but
is finished first. -/
def swappedBlocks : Listing where
  nodes := #[⟨.slot .iload 0, none⟩, ⟨.tableSwitch 0 1 5 [2, 5], none⟩, ⟨.label, none⟩,
    ⟨.plain .returnVoid, none⟩, ⟨.slot .iload 0, none⟩, ⟨.label, none⟩, ⟨.jump .ifeq 5, none⟩,
    ⟨.jump .goto 2, none⟩]
  order := #[0, 1, 2, 3, 5, 4, 6, 7]

/-- The block that stands last is second in the order. -/
theorem order_ofListing_swapped : swappedBlocks.WellFormed ∧
    (ofListing swappedBlocks).leadsTo 0 = [1, 2, 2] ∧ (ofListing swappedBlocks).leadsTo 2 = [2, 1] ∧
    (ofListing swappedBlocks).order = [0, 2, 1] ∧
    postOrder (ofListing swappedBlocks).leadsTo (ofListing swappedBlocks).blocks.size ∅ [0] =
      [1, 2, 0] ∧
    Relation.ReflTransGen (fun m n => n ∈ (ofListing swappedBlocks).leadsTo m) 0 1 := by
  have wf : swappedBlocks.WellFormed := ⟨by decide, by decide⟩
  have horder : (ofListing swappedBlocks).order = [0, 2, 1] := by cbv
  obtain ⟨-, hpost, -, -, hreached, -⟩ := order_ofListing swappedBlocks wf
  refine ⟨wf, by cbv, by cbv, horder, ?_, ?_⟩
  · rw [← List.reverse_reverse (postOrder _ _ _ _), ← hpost, horder]
    rfl
  · rw [← hreached, horder]
    decide

end Unscramble.Flow
