import Unscramble.Proofs.Flow.Blocks

/-! # Listings laid out anew

When the instructions of a listing without dead code are laid out in another order, and each that
control passes keeps below it what was below it, or a jump there, control settles where it did. In
such a listing only the last instruction of a block can be terminal, and the depth-first order of the
blocks misses none.

Main definitions: `Rearranged`, `AllLive`. Main statements: `Rearranged.keepsFlow`,
`neighbours_blocks`, `AllLive.isTerminal_block`, `AllLive.mem_order`. -/

namespace Unscramble.Flow

variable {l l' : Listing}

/-! ### Rearranged listings -/

/-- Below a handle stands another one, or a jump there. -/
def LeadsTo (l : Listing) (h n : Handle) : Prop :=
  l.next? h = some n ∨ ∃ j, l.next? h = some j ∧ (l.get j).gotoTarget? = some n

/-- A listing whose instructions are laid out anew: each is still there, and leads to what stood
below it unless it is terminal. -/
structure Rearranged (l l' : Listing) : Prop where
  /-- The sequence begins with the same handle. -/
  head : l'.handles.head? = l.handles.head?
  /-- What was linked still is. -/
  linked : ∀ h ∈ l.handles, h ∈ l'.handles
  /-- What was linked is unchanged. -/
  same : ∀ h ∈ l.handles, l'.get h = l.get h
  /-- An instruction that control passes leads to what stood below it. -/
  below : ∀ h n, l.next? h = some n → (l.get h).isTerminal = false → LeadsTo l' h n

/-- Control never leaves a sequence at its end, and every linked handle is one that it comes to. -/
structure AllLive (l : Listing) : Prop where
  /-- Handles are linked once. -/
  wf : l.WellFormed
  /-- Targets are linked. -/
  targets : l.TargetsLinked
  /-- Control comes to every linked handle. -/
  reached : ∀ h ∈ l.handles, Body.Reaches { listing := l } h
  /-- Control never leaves at the end. -/
  stays : Body.Stays { listing := l }

/-- What stands below an instruction that control passes. -/
theorem AllLive.exists_next? (live : AllLive l) {h : Handle} (hm : h ∈ l.handles)
    (hopen : (l.get h).isTerminal = false) : ∃ n, l.next? h = some n ∧ l.after h = l.onward n := by
  obtain ⟨n, hn⟩ := Option.isSome_iff_exists.1 (live.stays h (live.reached h hm) hopen)
  exact ⟨n, hn, Listing.after_eq_onward_of_next? live.wf hn⟩

/-- Control that settles from a handle settles there in a rearranged listing. -/
theorem Rearranged.settles_of_settles (r : Rearranged l l') (live : AllLive l)
    (wf' : l'.WellFormed) {s : List Handle} {x : Option Handle} (hx : Settles l s x) :
    ∀ h ∈ l.handles, s = l.onward h → Settles l' (l'.onward h) x := by
  -- On the way to where control settles, for every handle it may set out from.
  induction hx with
  | off =>
    intro h hm hs
    rw [Listing.onward_eq_cons hm] at hs
    cases hs
  | @stop a s real still =>
    intro h hm hs
    rw [Listing.onward_eq_cons hm] at hs
    cases hs
    rw [Listing.onward_eq_cons (r.linked a hm)]
    refine .stop ?_ ?_
    · rw [Listing.isReal, r.same a hm]
      exact real
    · rw [r.same a hm]
      exact still
  | @skip a s x marker next ih =>
    intro h hm hs
    rw [Listing.onward_eq_cons hm] at hs
    cases hs
    have hopen := Instruction.isTerminal_of_isReal marker
    obtain ⟨n, hn, hafter⟩ := live.exists_next? hm hopen
    have hsettles := ih n (Listing.mem_handles_of_next? hn) hafter
    rw [Listing.onward_eq_cons (r.linked a hm)]
    refine .skip (by rw [Listing.isReal, r.same a hm]; exact marker) ?_
    -- The handle below is still below, or a jump leads to it.
    rcases r.below a n hn hopen with hn' | ⟨j, hj, hgoto⟩
    · rw [Listing.after_eq_onward_of_next? wf' hn']
      exact hsettles
    · rw [Listing.after_eq_onward_of_next? wf' hj,
        Listing.onward_eq_cons (Listing.mem_handles_of_next? hj)]
      exact .jump hgoto hsettles
  | @jump a t s x goto next ih =>
    intro h hm hs
    rw [Listing.onward_eq_cons hm] at hs
    cases hs
    have hmt := (live.targets a hm t (Instruction.mem_targets_of_gotoTarget? goto)).1
    rw [Listing.onward_eq_cons (r.linked a hm)]
    exact .jump (by rw [r.same a hm]; exact goto) (ih t hmt rfl)

/-- Control that settles in a rearranged listing, from a handle of the first listing or from a jump
to one, settled there before. -/
theorem Rearranged.settles_of_settles_rearranged (r : Rearranged l l') (live : AllLive l)
    (wf' : l'.WellFormed) {s : List Handle} {x : Option Handle} (hx : Settles l' s x) :
    (∀ h ∈ l.handles, s = l'.onward h → Settles l (l.onward h) x) ∧
      ∀ j n back, n ∈ l.handles → (l'.get j).gotoTarget? = some n → s = j :: back →
        Settles l (l.onward n) x := by
  -- The second part goes through the induction with the first: a new jump is no handle of the first
  -- listing, but where it leads is one.
  induction hx with
  | off =>
    refine ⟨?_, by intro j n back _ _ hs; cases hs⟩
    intro h hm hs
    rw [Listing.onward_eq_cons (r.linked h hm)] at hs
    cases hs
  | @stop a s real still =>
    refine ⟨?_, ?_⟩
    · intro h hm hs
      rw [Listing.onward_eq_cons (r.linked h hm)] at hs
      cases hs
      rw [Listing.isReal, r.same a hm] at real
      rw [r.same a hm] at still
      rw [Listing.onward_eq_cons hm]
      exact .stop real still
    · intro j n back _ hgoto hs
      cases hs
      rw [still] at hgoto
      cases hgoto
  | @skip a s x marker next ih =>
    refine ⟨?_, ?_⟩
    · intro h hm hs
      rw [Listing.onward_eq_cons (r.linked h hm)] at hs
      cases hs
      rw [Listing.isReal, r.same a hm] at marker
      have hopen := Instruction.isTerminal_of_isReal marker
      obtain ⟨n, hn, hafter⟩ := live.exists_next? hm hopen
      have hmn := Listing.mem_handles_of_next? hn
      rw [Listing.onward_eq_cons hm, hafter]
      refine .skip marker ?_
      -- Below a handle stands what was below it, or a jump that leads there; the second part is for
      -- the jump.
      rcases r.below a n hn hopen with hn' | ⟨j, hj, hgoto⟩
      · exact ih.1 n hmn (Listing.after_eq_onward_of_next? wf' hn')
      · refine ih.2 j n (l'.after j) hmn hgoto ?_
        rw [Listing.after_eq_onward_of_next? wf' hj,
          Listing.onward_eq_cons (Listing.mem_handles_of_next? hj)]
    · intro j n back _ hgoto hs
      cases hs
      rw [isReal_of_goto hgoto] at marker
      cases marker
  | @jump a t s x goto next ih =>
    refine ⟨?_, ?_⟩
    · intro h hm hs
      rw [Listing.onward_eq_cons (r.linked h hm)] at hs
      cases hs
      rw [r.same a hm] at goto
      have hmt := (live.targets a hm t (Instruction.mem_targets_of_gotoTarget? goto)).1
      rw [Listing.onward_eq_cons hm]
      exact .jump goto (ih.1 t hmt rfl)
    · intro j n back hmn hgoto hs
      cases hs
      rw [goto] at hgoto
      cases hgoto
      exact ih.1 t hmn rfl

/-- Control settles at the same place from every handle of a rearranged listing. -/
theorem Rearranged.agree (r : Rearranged l l') (live : AllLive l) (wf' : l'.WellFormed)
    {h : Handle} (hm : h ∈ l.handles) : Agree l (l.onward h) l' (l'.onward h) := by
  intro x
  constructor
  · intro hx
    exact r.settles_of_settles live wf' hx h hm rfl
  · intro hx
    exact (r.settles_of_settles_rearranged live wf' hx).1 h hm rfl

/-- The sequence is the position of its first handle. -/
theorem onward_of_head? {h : Handle} (hh : l.handles.head? = some h) : l.onward h = l.handles := by
  obtain ⟨rest, hs⟩ := List.head?_eq_some_iff.1 hh
  rw [hs]
  have hs' : l.handles = [] ++ h :: rest := hs
  exact Listing.onward_of_split hs' List.not_mem_nil

/-- Rearranging a listing keeps the flow of control. -/
theorem Rearranged.keepsFlow (r : Rearranged l l') (live : AllLive l) (wf' : l'.WellFormed) :
    KeepsFlow (· ∈ l.handles) l l' := by
  refine ⟨?_, r.linked, r.same, ?_, ?_⟩
  · cases hh : l.handles.head? with
    | none =>
      have hh' := r.head
      rw [hh] at hh'
      rw [List.head?_eq_none_iff.1 hh, List.head?_eq_none_iff.1 hh']
      intro x
      constructor
      · intro hx
        cases hx
        exact .off
      · intro hx
        cases hx
        exact .off
    | some h =>
      rw [← onward_of_head? hh, ← onward_of_head? (r.head.trans hh)]
      exact r.agree live wf' (List.mem_of_mem_head? hh)
  · intro h hm t ht
    exact r.agree live wf' (live.targets h hm t ht).1
  · intro h hm hopen
    obtain ⟨n, hn, hafter⟩ := live.exists_next? hm hopen
    have hagree := r.agree live wf' (Listing.mem_handles_of_next? hn)
    rw [hafter]
    rcases r.below h n hn hopen with hn' | ⟨j, hj, hgoto⟩
    · rw [Listing.after_eq_onward_of_next? wf' hn']
      exact hagree
    · -- control behind `h` meets the jump first
      rw [Listing.after_eq_onward_of_next? wf' hj,
        Listing.onward_eq_cons (Listing.mem_handles_of_next? hj)]
      exact fun x => (hagree x).trans (settles_goto_iff hgoto).symm

/-! ### Neighbours -/

/-- Neighbours in a list of lists one after the other stand in one of them, or end one and begin the
next, if only the first can be empty. -/
theorem neighbours_flatMap {α β : Type} {f : β → List α} {xs : List β}
    (hne : ∀ b ∈ xs.tail, f b ≠ []) {a c : α} {front back : List α}
    (hs : xs.flatMap f = front ++ a :: c :: back) :
    (∃ b ∈ xs, ∃ r t, f b = r ++ a :: c :: t) ∨
      ∃ ys b d zs r t, xs = ys ++ b :: d :: zs ∧ f b = r ++ [a] ∧ f d = c :: t := by
  induction xs generalizing front with
  | nil => simp at hs
  | cons b xs ih =>
    have hne' : ∀ d ∈ xs, f d ≠ [] := hne
    -- neighbours that stand further down
    have hdown : ∀ front, xs.flatMap f = front ++ a :: c :: back →
        (∃ d ∈ b :: xs, ∃ r t, f d = r ++ a :: c :: t) ∨
          ∃ ys d e zs r t, b :: xs = ys ++ d :: e :: zs ∧ f d = r ++ [a] ∧ f e = c :: t := by
      intro front hs
      rcases ih (fun d hd => hne' d (List.mem_of_mem_tail hd)) hs with
        ⟨d, hd, h⟩ | ⟨ys, d, e, zs, r, t, rfl, h⟩
      · exact .inl ⟨d, List.mem_cons_of_mem b hd, h⟩
      · exact .inr ⟨b :: ys, d, e, zs, r, t, rfl, h⟩
    rw [List.flatMap_cons, List.append_eq_append_iff] at hs
    rcases hs with ⟨k, -, hk⟩ | ⟨k, hb, hk⟩
    · exact hdown k hk
    · match k, hb, hk with
      | [], _, hk => exact hdown [] hk.symm
      | [x], hb, hk =>
        obtain ⟨rfl, hc⟩ := List.cons.inj hk
        cases xs with
        | nil => cases hc
        | cons d xs =>
          change c :: back = (d :: xs).flatMap f at hc
          rw [List.flatMap_cons] at hc
          obtain ⟨y, t, hd⟩ := List.exists_cons_of_ne_nil (hne' d (by simp))
          rw [hd, List.cons_append] at hc
          obtain ⟨rfl, -⟩ := List.cons.inj hc
          exact .inr ⟨[], b, d, xs, front, t, rfl, hb, hd⟩
      | x :: y :: k, hb, hk =>
        obtain ⟨rfl, hc⟩ := List.cons.inj hk
        obtain ⟨rfl, -⟩ := List.cons.inj hc
        exact .inl ⟨b, by simp, front, k, hb⟩

/-- The left neighbour of an element is unique in a list without repetitions. -/
theorem left_neighbour_unique {α : Type} {xs : List α} (hx : xs.Nodup) {a b c : α}
    {front back front' back' : List α} (hs : xs = front ++ a :: c :: back)
    (hs' : xs = front' ++ b :: c :: back') : a = b := by
  have hback : back = back' := by
    refine suffix_unique hx (a := c) ⟨front ++ [a], ?_⟩ ⟨front' ++ [b], ?_⟩
    · rw [hs]
      simp
    · rw [hs']
      simp
  subst hback
  have heq : (front ++ [a]) ++ c :: back = (front' ++ [b]) ++ c :: back := by
    rw [List.append_assoc, List.append_assoc]
    exact hs.symm.trans hs'
  have hlast := congrArg List.getLast? (List.append_cancel_right heq)
  rw [List.getLast?_concat, List.getLast?_concat] at hlast
  exact Option.some.inj hlast

/-- Neighbours of a listing stand in one block, or the first ends a block and the second is the label
of the next one. -/
theorem neighbours_blocks {a c : Handle} {front back : List Handle}
    (hs : l.handles = front ++ a :: c :: back) :
    (∃ b ∈ blocksOf l, ∃ r t, b.handles = r ++ a :: c :: t) ∨
      ∃ ys b d zs r, blocksOf l = ys ++ b :: d :: zs ∧ b.handles = r ++ [a] ∧
        d.label = some c := by
  obtain ⟨entry, rest, heq, -, hrest, -⟩ := blocksOf_spec l
  have hne : ∀ b ∈ (blocksOf l).tail, b.handles ≠ [] := by
    intro b hb
    rw [heq, List.tail_cons] at hb
    obtain ⟨h, tail, rfl, -⟩ := hrest b hb
    exact List.cons_ne_nil _ _
  rw [← flatMap_handles_blocksOf] at hs
  rcases neighbours_flatMap hne hs with h | ⟨ys, b, d, zs, r, t, hb, hr, hd⟩
  · exact .inl h
  · refine .inr ⟨ys, b, d, zs, r, hb, hr, ?_⟩
    have hmem : d ∈ rest := by
      rw [heq] at hb
      have htail := congrArg List.tail hb
      rw [List.tail_cons] at htail
      rw [htail]
      cases ys <;> simp
    obtain ⟨h, tail, rfl, -⟩ := hrest d hmem
    cases hd
    rfl

/-! ### Blocks without dead code -/

/-- A block is a stretch of the sequence. -/
theorem exists_handles_eq {b : Block} (hb : b ∈ blocksOf l) :
    ∃ front back, l.handles = front ++ b.handles ++ back := by
  obtain ⟨ys, zs, hs⟩ := List.append_of_mem hb
  refine ⟨ys.flatMap Block.handles, zs.flatMap Block.handles, ?_⟩
  rw [← flatMap_handles_blocksOf, hs]
  simp

/-- Only a label can stand below a terminal instruction. -/
theorem AllLive.isTerminal_of_neighbours (live : AllLive l) {a c : Handle}
    {front back : List Handle} (hs : l.handles = front ++ a :: c :: back)
    (hl : (l.get c).isLabel = false) : (l.get a).isTerminal = false := by
  have hm : c ∈ l.handles := by rw [hs]; simp
  have hlinked : Body.LabelsLinked { listing := l } := ⟨live.targets, by simp⟩
  cases live.reached c hm with
  | entry first =>
    -- the first handle has no left neighbour
    exfalso
    change l.first? = some c at first
    rw [Listing.first?_eq_head?] at first
    have hnodup := live.wf.nodup
    rw [hs] at first hnodup
    cases front with
    | nil =>
      cases first
      simp at hnodup
    | cons x front =>
      cases first
      simp at hnodup
  | handler mem => cases mem
  | @pass h _ _ hopen next =>
    obtain ⟨front', back', hs'⟩ := (Listing.next?_eq_some_iff live.wf).1 next
    rw [left_neighbour_unique live.wf.nodup hs hs']
    exact hopen
  | @target h _ reached mem =>
    rw [(live.targets h (mem_handles_of_reaches hlinked reached) c mem).2] at hl
    cases hl

/-- A block whose last instruction is not terminal is not terminal. -/
theorem AllLive.isTerminal_block (live : AllLive l) {b : Block} (hb : b ∈ blocksOf l)
    {a : Handle} {r : List Handle} (hr : b.handles = r ++ [a])
    (hopen : (l.get a).isTerminal = false) : b.isTerminal l = false := by
  have hall : ∀ x ∈ b.handles, (l.get x).isTerminal = false := by
    intro x hx
    rw [hr] at hx
    rcases List.mem_append.1 hx with hx | hx
    · obtain ⟨r₁, r₂, rfl⟩ := List.append_of_mem hx
      -- `x` has a right neighbour in the block
      obtain ⟨c, t, hc⟩ : ∃ c t, r₂ ++ [a] = c :: t :=
        List.exists_cons_of_ne_nil (by simp)
      rw [List.append_assoc, List.cons_append, hc] at hr
      obtain ⟨front, back, hs⟩ := exists_handles_eq hb
      rw [hr] at hs
      have hneighbours : l.handles = (front ++ r₁) ++ x :: c :: (t ++ back) := by
        rw [hs]
        simp
      exact live.isTerminal_of_neighbours hneighbours (isLabel_of_mem_tail hb hr)
    · rw [List.mem_singleton.1 hx]
      exact hopen
  rw [Block.isTerminal, Block.lastReal?]
  cases hfind : b.handles.reverse.find? l.isReal with
  | none => rfl
  | some x =>
    have hx := List.mem_of_find?_eq_some hfind
    rw [List.mem_reverse] at hx
    exact hall x hx

/-- The order of the blocks lists the block of every linked handle. -/
theorem AllLive.mem_order (live : AllLive l) {b : Block} (hb : b ∈ blocksOf l) {h : Handle}
    (hm : h ∈ b.handles) : numberOf l b.label ∈ (BlockGraph.ofListing l).order := by
  have hsize : 0 < (BlockGraph.ofListing l).blocks.size := by
    rw [size_blocks_ofListing]
    exact Nat.succ_pos _
  have hlinked : Body.LabelsLinked { listing := l } := ⟨live.targets, by simp⟩
  refine mem_finishOrder_of_reached hsize ?_
  have hreach := live.reached h (mem_handles_of_mem_block hb hm)
  induction hreach generalizing b with
  | @entry h first =>
    change l.first? = some h at first
    rw [Listing.first?_eq_head?] at first
    obtain ⟨entry, rest, heq, hentry, hrest, hcat⟩ := blocksOf_spec l
    cases entry with
    | cons x entry =>
      -- the entry block holds the first handle
      rw [← hcat] at first
      cases first
      have hzero : b = ⟨none, h :: entry⟩ :=
        eq_of_mem_handles live.wf hb (by rw [heq]; simp) hm (by simp)
      rw [hzero]
      exact .start (by simp [numberOf, blockNumber]) hsize
    | nil =>
      -- the entry block is empty and falls into the block of the first handle
      cases rest with
      | nil =>
        rw [← hcat] at first
        cases first
      | cons d rest =>
        obtain ⟨a, tail, rfl, -⟩ := hrest d (by simp)
        rw [← hcat] at first
        cases first
        have hfirst : b = ⟨some h, h :: tail⟩ :=
          eq_of_mem_handles live.wf hb (by rw [heq]; simp) hm (by simp)
        have hblocks : blocksOf l = [] ++ ⟨none, []⟩ :: ⟨some h, h :: tail⟩ :: rest := heq
        have hfall := (fallthrough?_eq_some live.wf hblocks rfl).2
        rw [hfirst]
        exact .step (.start (by simp) hsize) hfall (numberOf_block_lt (by rw [heq]; simp))
  | handler mem => cases mem
  | @pass a n reached hopen next ih =>
    obtain ⟨front, back, hs⟩ := (Listing.next?_eq_some_iff live.wf).1 next
    rcases neighbours_blocks hs with ⟨c, hc, r, t, hr⟩ | ⟨ys, c, d, zs, r, hblocks, hr, hlabel⟩
    · rw [eq_of_mem_handles live.wf hb hc hm (by rw [hr]; simp)]
      exact ih hc (by rw [hr]; simp)
    · have hc : c ∈ blocksOf l := by rw [hblocks]; simp
      have hd : d ∈ blocksOf l := by rw [hblocks]; simp
      obtain ⟨tail, htail, -⟩ := exists_handles_of_label hd hlabel
      rw [eq_of_mem_handles live.wf hb hd hm (by rw [htail]; simp)]
      have hfall :=
        (fallthrough?_eq_some live.wf hblocks (live.isTerminal_block hc hr hopen)).2
      exact .step (ih hc (by rw [hr]; simp)) hfall (numberOf_block_lt hd)
  | @target a t reached mem ih =>
    have hma := mem_handles_of_reaches hlinked reached
    obtain ⟨c, hc, hac⟩ := exists_mem_blocksOf hma
    have hlabel := label_eq_of_isLabel hb hm (live.targets a hma t mem).2
    have hstep := numberOf_target_mem_successors hc hac mem
    rw [hlabel]
    refine .step (ih hc hac) hstep ?_
    rw [← hlabel]
    exact numberOf_block_lt hb

end Unscramble.Flow
