import Unscramble.Proofs.Flow.DepthFirst

/-! # Laying out blocks that are laid out

Laying out the blocks of a listing without dead code puts its instructions into depth-first order,
since a jump that a block gets is listed right behind the block. A listing in depth-first order is
laid out as it stands: every block falls into the one behind it, and no jump is made.

Main statements: `DepthFirst.sortBlocks_eq`, `AllLive.depthFirst_sortBlocks`. -/

namespace Unscramble.Flow

variable {l l₀ : Listing} {g : BlockGraph} {places : List (Nat × Option Nat)}

/-! ### Blocks that need no jump -/

/-- Blocks that need no jump are placed one after the other. -/
theorem laid_of_forall_none (h : ∀ p ∈ places, detour? l g p.1 p.2 = none) :
    laid g l places = (l, places.flatMap fun p => (g.block p.1).handles) := by
  induction places with
  | nil => rfl
  | cons place places ih =>
    rw [laid, h place List.mem_cons_self, ih fun p hp => h p (List.mem_cons_of_mem place hp)]
    rfl

/-- In depth-first order the blocks that are placed stand as they do in the sequence. -/
theorem DepthFirst.placedHandles_eq (df : DepthFirst l) : placedHandles l = l.handles :=
  df.allLive.visits_placed.unique df.visits

/-- A block that is placed has a last instruction. -/
theorem exists_last_of_mem_placed (wf : l.WellFormed) {n : Nat} (hn : n ∈ placed l) :
    ∃ b ∈ blocksOf l, numberOf l b.label = n ∧ ∃ r a, b.handles = r ++ [a] := by
  obtain ⟨b, hb, hnumber, hblock⟩ := exists_of_mem_placed wf hn
  have hne := (List.mem_filter.1 hn).2
  rw [hblock] at hne
  rcases List.eq_nil_or_concat b.handles with hnil | ⟨r, a, hr⟩
  · rw [hnil] at hne
    cases hne
  · exact ⟨b, hb, hnumber, r, a, by rw [hr, List.concat_eq_append]⟩

/-- In depth-first order no block needs a jump. -/
theorem DepthFirst.detour?_eq_none (df : DepthFirst l) {p : Nat × Option Nat}
    (hp : p ∈ layOut (BlockGraph.ofListing l)) :
    detour? l (BlockGraph.ofListing l) p.1 p.2 = none := by
  have live := df.allLive
  obtain ⟨n, next⟩ := p
  rw [layOut_eq] at hp
  obtain ⟨front, back, hplaced, rfl⟩ := mem_withNext_iff.1 hp
  obtain ⟨b, hb, rfl, r, a, hr⟩ := exists_last_of_mem_placed df.wf (n := n) (by rw [hplaced]; simp)
  rw [detour?, block_numberOf df.wf hb]
  cases hterm : (l.get a).isTerminal with
  | true => rw [isTerminal_of_last hr hterm, if_pos rfl]
  | false =>
    obtain ⟨c, hc, -⟩ := live.exists_next? (mem_handles_of_mem_block hb (by rw [hr]; simp)) hterm
    obtain ⟨ys, zs, hblocks⟩ := List.append_of_mem hb
    obtain ⟨d, zs, rfl, hd⟩ := live.next_block hblocks hr hc
    have hfall := (fallthrough?_eq_some df.wf hblocks (live.isTerminal_block hb hr hterm)).1
    -- the block placed next holds what stands below, which is a label and heads its block
    have hnext : back.head? = some (numberOf l d.label) := by
      have hseq := df.placedHandles_eq
      rw [placedHandles, hplaced, List.flatMap_append, List.flatMap_cons, block_numberOf df.wf hb,
        hr, List.append_assoc, List.singleton_append, ← List.append_assoc] at hseq
      have hafter := Listing.eq_after_of_suffix df.wf ⟨_, hseq⟩
      rw [Listing.next?, ← hafter] at hc
      cases back with
      | nil => cases hc
      | cons m back =>
        obtain ⟨e, he, rfl, r', a', hr'⟩ :=
          exists_last_of_mem_placed df.wf (n := m) (by rw [hplaced]; simp)
        have hdm : d ∈ blocksOf l := by rw [hblocks]; simp
        obtain ⟨tail, htail, -⟩ := exists_handles_of_label hdm hd
        have hce : c ∈ e.handles := by
          rw [List.flatMap_cons, block_numberOf df.wf he] at hc
          cases hh : e.handles with
          | nil => simp [hh] at hr'
          | cons x xs =>
            rw [hh] at hc
            cases hc
            exact List.mem_cons_self
        rw [List.head?_cons, eq_of_mem_handles df.wf he hdm hce (by rw [htail]; simp)]
    rw [hfall, hnext]
    simp

/-- A listing in depth-first order is laid out as it stands. -/
theorem DepthFirst.sortBlocks_eq (df : DepthFirst l) : sortBlocks l = l := by
  have hseq := df.placedHandles_eq
  rw [Flow.sortBlocks_eq, laid_of_forall_none fun p hp => df.detour?_eq_none hp, flatMap_layOut, hseq]
  rfl

/-! ### Jumps behind blocks -/

/-- The jump that is placed behind an instruction, if any. -/
def withJump (jump : Handle → Option Handle) (h : Handle) : List Handle :=
  h :: (jump h).toList

/-- Without jumps a stretch stays as it is. -/
theorem flatMap_withJump_of_none {jump : Handle → Option Handle} {hs : List Handle}
    (h : ∀ a ∈ hs, jump a = none) : hs.flatMap (withJump jump) = hs := by
  induction hs with
  | nil => rfl
  | cons a hs ih =>
    rw [List.flatMap_cons, ih fun c hc => h c (List.mem_cons_of_mem a hc), withJump,
      h a List.mem_cons_self]
    rfl

/-- What is placed is the blocks in turn, and behind the last instruction of some of them, which
control passes, a new jump. -/
theorem exists_jumps_laid (hk : Keeps l₀ l)
    (hlt : ∀ p ∈ places, ∀ h ∈ (g.block p.1).handles, h < l₀.capacity)
    (hne : ∀ p ∈ places, (g.block p.1).handles ≠ [])
    (hnodup : (places.flatMap fun p => (g.block p.1).handles).Nodup) :
    ∃ jump : Handle → Option Handle,
      (laid g l places).2 =
        (places.flatMap fun p => (g.block p.1).handles).flatMap (withJump jump) ∧
      ∀ h j, jump h = some j → l₀.capacity ≤ j ∧ (l₀.get h).isTerminal = false ∧
        h ∈ places.flatMap fun p => (g.block p.1).handles := by
  induction places generalizing l with
  | nil => exact ⟨fun _ => none, rfl, fun h j hj => by cases hj⟩
  | cons place places ih =>
    obtain ⟨l₁, jumps, hk₁, heq, hjumps⟩ := laid_cons place places hk (hlt place (by simp))
    rw [List.flatMap_cons, List.nodup_append] at hnodup
    obtain ⟨jump, hseq, hjump⟩ := ih (hk.trans hk₁) (fun p hp => hlt p (by simp [hp]))
      (fun p hp => hne p (by simp [hp])) hnodup.2.1
    -- the other blocks have no jump behind an instruction of this one
    have hnone : ∀ a ∈ (g.block place.1).handles, jump a = none := by
      intro a ha
      cases hj : jump a with
      | none => rfl
      | some j => exact absurd rfl (hnodup.2.2 a ha a (hjump a j hj).2.2)
    rw [heq, List.flatMap_cons]
    rcases hjumps with ⟨-, rfl⟩ | ⟨label, hd, rfl, -⟩
    · refine ⟨jump, ?_, ?_⟩
      · rw [List.flatMap_append, flatMap_withJump_of_none hnone, ← hseq, List.append_nil]
      · intro h j hj
        obtain ⟨hnew, hopen, hm⟩ := hjump h j hj
        exact ⟨hnew, hopen, List.mem_append_right _ hm⟩
    · obtain ⟨r, a, hr⟩ : ∃ r a, (g.block place.1).handles = r ++ [a] := by
        rcases List.eq_nil_or_concat (g.block place.1).handles with hnil | ⟨r, a, hr⟩
        · exact absurd hnil (hne place (by simp))
        · exact ⟨r, a, by rw [hr, List.concat_eq_append]⟩
      have hopen : (l₀.get a).isTerminal = false := by
        by_contra hterm
        rw [detour?, isTerminal_of_last hr (by simpa using hterm), if_pos rfl] at hd
        cases hd
      have har : a ∉ r := by
        have hblock := hnodup.1
        rw [hr] at hblock
        exact (not_mem_of_nodup_middle hblock).1
      refine ⟨Function.update jump a (some l.capacity), ?_, ?_⟩
      · have hother : ∀ hs : List Handle, a ∉ hs →
            hs.flatMap (withJump (Function.update jump a (some l.capacity))) =
              hs.flatMap (withJump jump) := by
          intro hs hm
          refine List.flatMap_congr fun c hc => ?_
          rw [withJump, withJump, Function.update_of_ne (ne_of_mem_of_not_mem hc hm)]
        have hrest : a ∉ places.flatMap fun p => (g.block p.1).handles :=
          fun h => hnodup.2.2 a (by rw [hr]; simp) a h rfl
        rw [List.flatMap_append, hother _ hrest, ← hseq, hr, List.flatMap_append, hother _ har,
          flatMap_withJump_of_none fun c hc => hnone c (by rw [hr]; simp [hc]),
          List.flatMap_singleton, withJump, Function.update_self, Option.toList_some]
        simp
      · intro h j hj
        by_cases hh : h = a
        · subst hh
          rw [Function.update_self] at hj
          cases hj
          exact ⟨hk.capacity, hopen, List.mem_append_left _ (by rw [hr]; simp)⟩
        · rw [Function.update_of_ne hh] at hj
          obtain ⟨hnew, hopen, hm⟩ := hjump h j hj
          exact ⟨hnew, hopen, List.mem_append_right _ hm⟩

/-- The sequence that is laid out: the blocks in depth-first order, and new jumps behind some. -/
theorem exists_jumps_sortBlocks (wf : l.WellFormed) :
    ∃ jump : Handle → Option Handle,
      (sortBlocks l).handles = (placedHandles l).flatMap (withJump jump) ∧
      ∀ h j, jump h = some j → l.capacity ≤ j ∧ (l.get h).isTerminal = false := by
  obtain ⟨jump, hseq, hjump⟩ := exists_jumps_laid (g := BlockGraph.ofListing l) (Keeps.refl l)
    (lt_capacity_of_mem_layOut wf) (by
      intro p hp hnil
      have hn : p.1 ∈ placed l := by
        rw [← map_fst_withNext (placed l)]
        exact List.mem_map_of_mem hp
      have hne := (List.mem_filter.1 hn).2
      rw [hnil] at hne
      cases hne) (nodup_flatMap_layOut wf)
  rw [flatMap_layOut] at hseq
  refine ⟨jump, ?_, fun h j hj => ⟨(hjump h j hj).1, (hjump h j hj).2.1⟩⟩
  rw [Flow.sortBlocks_eq]
  exact hseq

/-! ### The order of what is laid out -/

/-- Everything that is linked is placed, and the other way round. -/
theorem AllLive.mem_placedHandles_iff (live : AllLive l) {h : Handle} :
    h ∈ placedHandles l ↔ h ∈ l.handles := by
  rw [placedHandles, List.mem_flatMap]
  constructor
  · rintro ⟨n, hn, hm⟩
    obtain ⟨b, hb, -, hblock⟩ := exists_of_mem_placed live.wf hn
    rw [hblock] at hm
    exact mem_handles_of_mem_block hb hm
  · intro hm
    obtain ⟨b, hb, hmb⟩ := exists_mem_blocksOf hm
    exact ⟨_, live.mem_placed hb hmb, by rwa [block_numberOf live.wf hb]⟩

section Jumps

variable {jump : Handle → Option Handle}

/-- Behind an instruction stands its jump, or else another instruction that was linked before. -/
theorem AllLive.next?_of_withJump (live : AllLive l)
    (hseq : (sortBlocks l).handles = (placedHandles l).flatMap (withJump jump)) {h : Handle}
    (hm : h ∈ l.handles) :
    (∀ j, jump h = some j → (sortBlocks l).next? h = some j) ∧
      (jump h = none → ∀ n, (sortBlocks l).next? h = some n → n ∈ l.handles) := by
  have wf' := wellFormed_sortBlocks live.wf
  obtain ⟨front, back, hs⟩ := List.append_of_mem (live.mem_placedHandles_iff.2 hm)
  rw [hs, List.flatMap_append, List.flatMap_cons, withJump, List.cons_append] at hseq
  have hafter := Listing.eq_after_of_suffix wf' ⟨_, hseq.symm⟩
  rw [Listing.next?, ← hafter]
  constructor
  · intro j hj
    rw [hj]
    rfl
  · intro hnone n hn
    rw [hnone] at hn
    cases back with
    | nil => cases hn
    | cons a back =>
      cases hn
      exact live.mem_placedHandles_iff.1 (by rw [hs]; simp)

/-- Where control can go from an instruction that is laid out, and from the jump behind it. -/
theorem AllLive.leads_of_withJump (live : AllLive l)
    (hseq : (sortBlocks l).handles = (placedHandles l).flatMap (withJump jump))
    (hjump : ∀ h j, jump h = some j → l.capacity ≤ j ∧ (l.get h).isTerminal = false) {h : Handle}
    (hm : h ∈ l.handles) :
    (jump h = none → leads (sortBlocks l) h = leads l h) ∧
      ∀ j, jump h = some j → ∃ n, leads l h = (l.get h).targets ++ [n] ∧
        leads (sortBlocks l) h = (l.get h).targets ++ [j] ∧
        (sortBlocks l).get j = .jump .goto n := by
  have hget := (keeps_sortBlocks l).same h (live.wf.lt_capacity h hm)
  obtain ⟨hsome, hnone⟩ := live.next?_of_withJump hseq hm
  constructor
  · intro hj
    cases hterm : (l.get h).isTerminal with
    | true => rw [leads_of_isTerminal hterm, leads_of_isTerminal (by rw [hget, hterm]), hget]
    | false =>
      obtain ⟨n, hn, -⟩ := live.exists_next? hm hterm
      rcases live.next?_sortBlocks hn hterm with hn' | ⟨j, hj', hnew, -⟩
      · rw [leads_of_next? hterm hn, leads_of_next? (by rw [hget, hterm]) hn', hget]
      · exact absurd (live.wf.lt_capacity j (hnone hj j hj')) (Nat.not_lt.2 hnew)
  · intro j hj
    obtain ⟨hnew, hopen⟩ := hjump h j hj
    obtain ⟨n, hn, -⟩ := live.exists_next? hm hopen
    have hj' := hsome j hj
    refine ⟨n, leads_of_next? hopen hn, by rw [leads_of_next? (by rw [hget, hopen]) hj', hget], ?_⟩
    rcases live.next?_sortBlocks hn hopen with hn' | ⟨i, hi, -, hgoto⟩
    · -- what stood below is not new
      rw [hj'] at hn'
      cases hn'
      exact absurd (live.wf.lt_capacity j (Listing.mem_handles_of_next? hn)) (Nat.not_lt.2 hnew)
    · rw [hj'] at hi
      cases hi
      exact hgoto

/-- Instructions that are laid out stand for themselves with the jump behind them. -/
theorem AllLive.expands_withJump (live : AllLive l)
    (hseq : (sortBlocks l).handles = (placedHandles l).flatMap (withJump jump))
    (hjump : ∀ h j, jump h = some j → l.capacity ≤ j ∧ (l.get h).isTerminal = false) :
    Expands (leads l) (leads (sortBlocks l)) (withJump jump) id (· ∈ l.handles) := by
  have wf' := wellFormed_sortBlocks live.wf
  have htargets := targetsLinked_sortBlocks live
  have hleads := fun {h} hm => live.leads_of_withJump hseq hjump (h := h) hm
  have hnodup : ((placedHandles l).flatMap (withJump jump)).Nodup := hseq ▸ wf'.nodup
  have hlinked : ∀ h ∈ l.handles, ∀ x ∈ withJump jump h, x ∈ (sortBlocks l).handles := by
    intro h hm x hx
    rw [hseq]
    exact List.mem_flatMap.2 ⟨h, live.mem_placedHandles_iff.2 hm, hx⟩
  have hapart : ∀ n m, n ∈ l.handles → m ∈ l.handles → ∀ x, x ∈ withJump jump n →
      x ∈ withJump jump m → n = m := by
    intro n m hn hm x hxn hxm
    by_contra hne
    have hsymm : Std.Symm (Function.onFun List.Disjoint (withJump jump)) :=
      ⟨fun a b hab c ha hb => hab hb ha⟩
    exact (List.nodup_flatMap.1 hnodup).2.forall (live.mem_placedHandles_iff.2 hn)
      (live.mem_placedHandles_iff.2 hm) hne hxn hxm
  refine ⟨?_, ?_, ?_, ?_, hapart⟩
  · intro h hm
    rw [List.map_id]
    cases hj : jump h with
    | none =>
      rw [withJump, hj, ← (hleads hm).1 hj]
      exact .last
    | some j =>
      obtain ⟨n, hn, hh, hgoto⟩ := (hleads hm).2 j hj
      have hlast : leads (sortBlocks l) j = [n] := by
        rw [leads_of_isTerminal (by rw [hgoto]; rfl), hgoto]
        rfl
      rw [withJump, hj, hn, ← hlast]
      exact .cons hh .last
  · intro h hm
    refine ⟨(jump h).toList, rfl, ?_⟩
    intro j hj m hmm v hv hleadsj
    rw [Option.mem_toList] at hj
    have hvm := hlinked m hmm v hv
    have hjm : j ∈ withJump jump h := by
      rw [withJump, hj]
      simp
    obtain ⟨n, -, -, hgoto⟩ := (hleads hm).2 j hj
    rcases mem_leads_iff.1 hleadsj with ht | ⟨-, hnext⟩
    · -- targets are labels
      have hl := (htargets v hvm j ht).2
      rw [hgoto] at hl
      cases hl
    · obtain ⟨front, back, hs⟩ := (Listing.next?_eq_some_iff wf').1 hnext
      obtain ⟨front', back', hs'⟩ :=
        (Listing.next?_eq_some_iff wf').1 ((live.next?_of_withJump hseq hm).1 j hj)
      obtain rfl := left_neighbour_unique wf'.nodup hs hs'
      exact hapart m v hmm hm v hv List.mem_cons_self
  · intro h hm t ht
    rcases mem_leads_iff.1 ht with ht | ⟨-, ht⟩
    · exact (live.targets h hm t ht).1
    · exact Listing.mem_handles_of_next? ht
  · intro h hm
    exact (List.nodup_flatMap.1 hnodup).1 h (live.mem_placedHandles_iff.2 hm)

end Jumps

/-- Laying out the blocks of a listing without dead code puts it into depth-first order. -/
theorem AllLive.depthFirst_sortBlocks (live : AllLive l) : DepthFirst (sortBlocks l) := by
  obtain ⟨jump, hseq, hjump⟩ := exists_jumps_sortBlocks live.wf
  refine ⟨wellFormed_sortBlocks live.wf, targetsLinked_sortBlocks live, ?_, ?_⟩
  · intro h hm hopen
    rcases mem_handles_sortBlocks live.wf hm with hm | ⟨-, label, -, -, hgoto⟩
    · rw [(keeps_sortBlocks l).same h (live.wf.lt_capacity h hm)] at hopen
      obtain ⟨n, hn, -⟩ := live.exists_next? hm hopen
      rcases live.next?_sortBlocks hn hopen with h | ⟨j, h, -⟩ <;>
      · rw [h]
        rfl
    · rw [hgoto] at hopen
      cases hopen
  · have hfirst : (sortBlocks l).first? = l.first? := by
      rw [Listing.first?_eq_head?, Listing.first?_eq_head?, live.head?_sortBlocks]
    have hlinked : ∀ h ∈ l.first?.toList, h ∈ l.handles := by
      intro h hh
      rw [Option.mem_toList, Listing.first?_eq_head?] at hh
      exact List.mem_of_mem_head? hh
    have hvisits := (live.expands_withJump hseq hjump).visits live.visits_placed hlinked
      (fun h _ hm => hm) (fun h _ _ x _ => Set.notMem_empty x)
    rw [List.map_id, ← hseq, ← hfirst] at hvisits
    exact hvisits

end Unscramble.Flow
