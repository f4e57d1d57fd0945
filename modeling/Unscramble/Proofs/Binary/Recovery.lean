import Unscramble.Proofs.Binary.Faithful
import Unscramble.Proofs.Binary.Outline

/-! # Bodies are written as they were read

The bytes of a body fall into one chunk for each instruction that is read. So the instructions start
one behind the other, and a listing that is assembled from them links every handle once and every
label that it has made.

The forms that are chosen for an assembled listing take no bytes for labels and line markers and
the bytes that were read for every other instruction. So every offset is what it was, no jump leads
too far and is widened, and the layout spells the bytes of the body.

Main definitions: `Sequence`, `RegularCode`, `Laid`. Main statements: `sequence_of_readInstructions`,
`Sequence.ordered`, `Assembled.wellFormed`, `Assembled.mem_handles`, `exists_laid`, `Laid.settle`,
`Laid.bytes`. -/

namespace Unscramble.Binary

open Reader

/-- Instructions one behind the other from an offset on, each with the bytes it was read from. -/
inductive Sequence (pool : Pool) (length : Nat) : Nat → List Located → List Bytes → Prop
  /-- No instruction. -/
  | nil {start : Nat} : Sequence pool length start [] []
  /-- An instruction in front of the others. -/
  | cons {i : Located} {bs : Bytes} {code : List Located} {chunks : List Bytes}
      (h : Rewritten pool length i.offset (i.insn, i.raw) bs)
      (hrest : Sequence pool length (i.offset + bs.length) code chunks) :
      Sequence pool length i.offset (i :: code) (bs :: chunks)

section Sequence

variable {pool : Pool} {length start : Nat} {code : List Located} {chunks : List Bytes}

/-- Instructions that are read to the end of the input take all of it. -/
theorem sequence_of_readFrom {done answer : List Located} {bound : Nat} {c c' : Cursor}
    (hbound : c.rest.length ≤ bound) (h : readFrom pool length done bound c = .ok (answer, c')) :
    ∃ code chunks, answer = done.reverse ++ code ∧ c.rest = chunks.flatten ∧
      Sequence pool length c.position code chunks := by
  -- On the bound, for whatever has been read: an instruction takes a byte at least, so the bound
  -- suffices.
  induction bound generalizing done c with
  | zero =>
    have hrest : c.rest = [] := List.eq_nil_of_length_eq_zero (Nat.le_zero.1 hbound)
    cases h
    exact ⟨[], [], (List.append_nil _).symm, hrest, .nil⟩
  | succ bound ih =>
    obtain ⟨rest, position⟩ := c
    cases rest with
    | nil =>
      cases h
      exact ⟨[], [], (List.append_nil _).symm, rfl, .nil⟩
    | cons b rest =>
      have hstep : readFrom pool length done (bound + 1) ⟨b :: rest, position⟩ =
          (readInstruction pool length position >>= fun a =>
            readFrom pool length (⟨position, a.1, a.2⟩ :: done) bound) ⟨b :: rest, position⟩ := rfl
      rw [hstep] at h
      obtain ⟨a, c₁, ha, h⟩ := bind_eq_ok_iff.1 h
      obtain ⟨bs, htook, hwritten⟩ := takes_readInstruction _ _ _ ha
      have hless : c₁.rest.length ≤ bound := by
        have hlength := congrArg List.length htook.1
        have hpos := List.length_pos_iff.2 hwritten.ne_nil
        rw [List.length_append] at hlength
        simp only [List.length_cons] at hbound hlength
        omega
      obtain ⟨code, chunks, rfl, hrest, hsequence⟩ := ih hless h
      refine ⟨⟨position, a.1, a.2⟩ :: code, bs :: chunks, by simp, ?_, ?_⟩
      · rw [List.flatten_cons, ← hrest]
        exact htook.1
      · rw [htook.2] at hsequence
        exact Sequence.cons (i := ⟨position, a.1, a.2⟩) hwritten hsequence

/-- Instructions that are read stand one after the other in chunks. -/
theorem sequence_of_readInstructions {bs : Bytes}
    (h : readInstructions pool bs = .ok code) :
    ∃ chunks, bs = chunks.flatten ∧ Sequence pool bs.length 0 code chunks := by
  obtain ⟨c, hrun⟩ := on_eq_ok_iff.1 h
  obtain ⟨_, chunks, rfl, hbs, hsequence⟩ := sequence_of_readFrom (Nat.le_refl bs.length) hrun
  exact ⟨chunks, hbs, hsequence⟩

/-- The first instruction starts where the sequence does. -/
theorem Sequence.le_offset (h : Sequence pool length start code chunks) :
    ∀ i ∈ code, start ≤ i.offset ∧ i.offset < start + chunks.flatten.length := by
  induction h with
  | nil => simp
  | @cons i bs code chunks hi _ ih =>
    have hpos := List.length_pos_iff.2 hi.ne_nil
    rw [List.flatten_cons, List.length_append]
    intro j hj
    rcases List.mem_cons.1 hj with rfl | hj
    · omega
    · obtain ⟨hlow, hhigh⟩ := ih j hj
      omega

/-- Instructions that take all bytes of a body start one behind the other. -/
theorem Sequence.ordered (h : Sequence pool length start code chunks)
    (hend : start + chunks.flatten.length = length) : Ordered length code where
  -- Each of the three facts by induction on the sequence; the end of the code matters to the last
  -- one only.
  real := by
    clear hend
    induction h with
    | nil => simp
    | cons hi _ ih =>
      intro j hj
      rcases List.mem_cons.1 hj with rfl | hj
      · exact hi.real
      · exact ih j hj
  sorted := by
    clear hend
    induction h with
    | nil => exact .nil
    | @cons i bs code chunks hi hrest ih =>
      rw [List.map_cons, List.pairwise_cons]
      refine ⟨?_, ih⟩
      intro o ho
      obtain ⟨j, hj, rfl⟩ := List.mem_map.1 ho
      have hpos := List.length_pos_iff.2 hi.ne_nil
      have hle := (hrest.le_offset j hj).1
      omega
  before i hi := by
    rw [← hend]
    exact (h.le_offset i hi).2

/-- Labels are offsets of the body. -/
theorem Sequence.mentioned_le (h : Sequence pool length start code chunks) :
    ∀ i ∈ code, ∀ t ∈ i.insn.mentioned, t ≤ length := by
  induction h with
  | nil => simp
  | cons hi _ ih =>
    intro j hj
    rcases List.mem_cons.1 hj with rfl | hj
    · exact hi.bound
    · exact ih j hj

end Sequence

/-! ### Assembled listings -/

section Spine

variable {nodes : Array Node} {label? : Nat → Option Label} {length lo hi : Nat}
  {pairs : List (Nat × Handle)} {handles : List Handle}

/-- What lies between two places goes from the lower one to the upper one. -/
theorem Spine.le (h : Spine nodes label? length lo hi pairs handles) : lo ≤ hi := by
  induction h with
  | nil hmarks => exact hmarks.le
  | cons hmarks _ ih => exact hmarks.le.trans ih

/-- A linked handle is a label, a line marker or an instruction. -/
theorem Spine.mem_cases (h : Spine nodes label? length lo hi pairs handles) {k : Nat}
    (hk : k ∈ handles) :
    (∃ o, label? o = some k ∧ (o ∈ pairs.map (·.1) ∨ o = length)) ∨ (lo ≤ k ∧ k < hi) ∨
      k ∈ pairs.map (·.2) := by
  -- On the spine: marks are labels or line markers, and behind them stands the instruction of the
  -- pair.
  induction h with
  | @nil lo hi marks hmarks =>
    rw [hmarks.eq, List.mem_append, Option.mem_toList, List.mem_range'_1] at hk
    have hle := hmarks.le
    rcases hk with hk | hk
    · exact .inl ⟨length, hk, .inr rfl⟩
    · exact .inr (.inl (by omega))
  | @cons lo mid hi p rest marks handles hmarks hrest ih =>
    have hle := hmarks.le
    have hle' := hrest.le
    rw [List.mem_append, List.mem_cons, hmarks.eq, List.mem_append, Option.mem_toList,
      List.mem_range'_1] at hk
    rcases hk with (hk | hk) | rfl | hk
    · exact .inl ⟨p.1, hk, .inl (by simp)⟩
    · exact .inr (.inl (by omega))
    · exact .inr (.inr (by simp))
    · rcases ih hk with ⟨o, ho, hplace⟩ | hline | hpair
      · refine .inl ⟨o, ho, ?_⟩
        rw [List.map_cons, List.mem_cons]
        tauto
      · exact .inr (.inl (by omega))
      · exact .inr (.inr (by rw [List.map_cons]; exact List.mem_cons_of_mem _ hpair))

/-- No handle is linked twice. -/
theorem Spine.nodup (h : Spine nodes label? length lo hi pairs handles)
    (hinjective : ∀ o o' k, label? o = some k → label? o' = some k → o = o')
    (hsorted : (pairs.map (·.1)).Pairwise (· < ·)) (hend : ∀ p ∈ pairs, p.1 < length)
    (hnodup : (pairs.map (·.2)).Nodup) (hfresh : ∀ p ∈ pairs, ∀ o, label? o ≠ some p.2)
    (hpairs : ∀ p ∈ pairs, p.2 < lo) (hlabels : ∀ o (k : Nat), label? o = some k → k < lo) :
    handles.Nodup := by
  -- a label stands in front of one offset only, line markers have greater handles than all others
  have hmarksNodup : ∀ {o lo hi : Nat} {marks : List Handle}, Marks nodes (label? o) lo hi marks →
      (∀ k : Nat, label? o = some k → k < lo) → marks.Nodup := by
    intro o lo hi marks hmarks hlow
    rw [hmarks.eq, List.nodup_append]
    refine ⟨?_, List.nodup_range', ?_⟩
    · cases label? o <;> simp
    · intro k hk k' hk'
      rw [List.mem_range'_1] at hk'
      exact Nat.ne_of_lt ((hlow k (Option.mem_toList.1 hk)).trans_le hk'.1)
  induction h with
  | nil hmarks => exact hmarksNodup hmarks (hlabels _)
  | @cons lo mid hi p rest marks handles hmarks hrest ih =>
    have hle := hmarks.le
    rw [List.map_cons, List.pairwise_cons] at hsorted
    rw [List.map_cons, List.nodup_cons] at hnodup
    have hp := hpairs p List.mem_cons_self
    have hrestNodup := ih hsorted.2 (fun q hq => hend q (List.mem_cons_of_mem _ hq)) hnodup.2
      (fun q hq => hfresh q (List.mem_cons_of_mem _ hq))
      (fun q hq => (hpairs q (List.mem_cons_of_mem _ hq)).trans_le hle)
      (fun o k hk => (hlabels o k hk).trans_le hle)
    have hlater : ∀ q ∈ rest, q.2 < lo := fun q hq => hpairs q (List.mem_cons_of_mem _ hq)
    rw [List.nodup_append, List.nodup_cons]
    refine ⟨hmarksNodup hmarks (hlabels _), ⟨?_, hrestNodup⟩, ?_⟩
    · intro hmem
      rcases hrest.mem_cases hmem with ⟨o, ho, -⟩ | hline | hpair
      · exact hfresh p List.mem_cons_self o ho
      · exact absurd (hp.trans_le (hle.trans hline.1)) (Nat.lt_irrefl _)
      · exact hnodup.1 hpair
    · rintro (k : Nat) hk _ hk' rfl
      rw [hmarks.eq, List.mem_append, Option.mem_toList, List.mem_range'_1] at hk
      rcases hk with hk | hk
      · -- the label of this offset
        have hlow := hlabels p.1 k hk
        rcases List.mem_cons.1 hk' with rfl | hk'
        · exact hfresh p List.mem_cons_self p.1 hk
        · rcases hrest.mem_cases hk' with ⟨o, ho, hplace⟩ | hline | hpair
          · obtain rfl := hinjective o p.1 k ho hk
            rcases hplace with hplace | hplace
            · exact absurd (hsorted.1 p.1 hplace) (Nat.lt_irrefl _)
            · exact absurd (hend p List.mem_cons_self) (by omega)
          · omega
          · obtain ⟨q, hq, rfl⟩ := List.mem_map.1 hpair
            exact hfresh q (List.mem_cons_of_mem _ hq) p.1 hk
      · -- a line marker
        rcases List.mem_cons.1 hk' with rfl | hk'
        · exact absurd (hp.trans_le hk.1) (Nat.lt_irrefl _)
        · rcases hrest.mem_cases hk' with ⟨o, ho, -⟩ | hline | hpair
          · have hlow := hlabels o k ho
            omega
          · omega
          · obtain ⟨q, hq, rfl⟩ := List.mem_map.1 hpair
            exact absurd ((hlater q hq).trans_le hk.1) (Nat.lt_irrefl _)

end Spine

section Assembled

variable {length : Nat} {code : List Located} {listing : Listing} {label? : Nat → Option Label}
  {placed : List (Nat × Handle)}

/-- The handle of an instruction is not that of a label. -/
theorem Assembled.label?_ne (h : Assembled length code listing label? placed) {p : Nat × Handle}
    (hp : p ∈ placed) (o : Nat) : label? o ≠ some p.2 := by
  intro ho
  obtain ⟨i, -, -, hnode⟩ := exists_of_mem_right h.nodes hp
  rw [h.label o p.2 ho, Option.some_inj] at hnode
  exact absurd (congrArg Node.raw hnode) nofun

/-- Every handle of an assembled listing is linked once. -/
theorem Assembled.wellFormed (h : Assembled length code listing label? placed)
    (hordered : Ordered length code) : listing.WellFormed := by
  obtain ⟨lo, hi, hspine, hsize, hpairs, hlabels⟩ := h.spine
  have hmap := h.map_fst_placed
  have hend : ∀ p ∈ placed, p.1 < length := by
    intro p hp
    obtain ⟨i, hi, hoffset, -⟩ := exists_of_mem_right h.nodes hp
    rw [hoffset]
    exact hordered.before i hi
  constructor
  · exact hspine.nodup h.injective (by rw [hmap]; exact hordered.sorted) hend h.nodup
      (fun p hp => h.label?_ne hp) hpairs hlabels
  · intro k hk
    have hle := hspine.le
    rcases hspine.mem_cases hk with ⟨o, ho, -⟩ | hline | hpair
    · exact lt_size_of_getElem?_eq_some (h.label o k ho)
    · exact hline.2.trans_le hsize
    · obtain ⟨p, hp, rfl⟩ := List.mem_map.1 hpair
      exact (hpairs p hp).trans_le (hle.trans hsize)

/-- Every label that was made is linked. -/
theorem Assembled.mem_handles (h : Assembled length code listing label? placed)
    (hordered : Ordered length code) {o : Nat} {k : Label} (hk : label? o = some k) :
    k ∈ listing.handles := by
  have hplace := h.place?_label hordered hk
  rw [Listing.place?] at hplace
  split at hplace
  · next hmem => exact hmem
  · cases hplace

end Assembled

/-! ### Bodies that are read -/

/-- A body was assembled from the instructions of a code array. -/
def BodyRead (pool : Pool) (b : Body) (bs : Bytes) : Prop :=
  ∃ (code : List Located) (guards : List (Guard Nat)) (lines : List (Nat × UInt16)),
    readInstructions pool bs = .ok code ∧
    assemble bs.length guards lines code = .ok (b.listing, b.guards) ∧
    ∀ o ∈ guards.flatMap Guard.labels, o ≤ bs.length

/-- The listing of a body that was read, with the label of each offset. -/
theorem BodyRead.exists_assembled {pool : Pool} {b : Body} {bs : Bytes} (h : BodyRead pool b bs) :
    ∃ (code : List Located) (guards : List (Guard Nat)) (label? : Nat → Option Label)
      (placed : List (Nat × Handle)) (chunks : List Bytes),
      readInstructions pool bs = .ok code ∧ Assembled bs.length code b.listing label? placed ∧
      bs = chunks.flatten ∧ Sequence pool bs.length 0 code chunks ∧ Ordered bs.length code ∧
      b.guards = guards.map (Guard.map (labelOr label?)) ∧
      ∀ o ∈ guards.flatMap Guard.labels, (label? o).isSome := by
  obtain ⟨code, guards, lines, hcode, hassemble, hguards⟩ := h
  obtain ⟨chunks, hbs, hsequence⟩ := sequence_of_readInstructions hcode
  obtain ⟨label?, placed, hassembled, hguards', hlabels⟩ :=
    assembled_of_assemble hguards hsequence.mentioned_le hassemble
  have hordered : Ordered bs.length code := hsequence.ordered (by rw [Nat.zero_add, ← hbs])
  exact ⟨code, guards, label?, placed, chunks, hcode, hassembled, hbs, hsequence, hordered, hguards',
    hlabels⟩

end Unscramble.Binary

/-! ### Chosen forms -/

namespace Unscramble.Binary

open Reader

/-- All instructions of a body are regular. -/
def RegularCode (pool : Pool) (bs : Bytes) : Prop :=
  ∀ code, readInstructions pool bs = .ok code →
    ∀ i ∈ code, RegularAt pool i.offset (bs.drop i.offset)

/-- A form is chosen for what stands behind a handle, without adding to a pool. -/
def Chosen (pool : Pool) (l : Listing) (h : Handle) (form : Form) : Prop :=
  ∀ p, pool.Below p → Form.choose (l.get h) (l.rawForm? h) p = (.ok form, p)

/-- Every label has the offset it was made for. -/
def Faithful (label? : Nat → Option Label) (offsetOf : Label → Except Malformation Nat) : Prop :=
  ∀ o k, label? o = some k → offsetOf k = .ok o

/-- Forms for some handles of a listing that spell given bytes from an offset to the end. -/
structure Laid (pool : Pool) (l : Listing) (label? : Nat → Option Label) (length start : Nat)
    (handles : List Handle) (bs : Bytes) (forms : List Form) : Prop where
  /-- The forms are chosen for the handles. -/
  chosen : List.Forall₂ (Chosen pool l) handles forms
  /-- They reach to the end. -/
  finish : endFrom start forms = length
  /-- A label stands at the offset it was made for. -/
  labels : ∀ item ∈ handles.zip (startsFrom start forms), ∀ o, label? o = some item.1 → item.2 = o
  /-- No jump of 16 bits leads too far. -/
  near : ∀ offsetOf, Faithful label? offsetOf → NearJumps offsetOf (forms.zip (startsFrom start forms))
  /-- They spell the bytes. -/
  spelled : ∀ offsetOf, Faithful label? offsetOf → ∃ chunks,
    List.Forall₂ (fun item chunk => item.1.bytes offsetOf item.2 = .ok chunk)
      (forms.zip (startsFrom start forms)) chunks ∧ chunks.flatten = bs

section Laid

variable {pool : Pool} {l : Listing} {label? : Nat → Option Label} {length start : Nat}
  {handles : List Handle} {bs : Bytes} {forms : List Form}

/-- Nothing is laid at the end. -/
theorem laid_nil (h : start = length) : Laid pool l label? length start [] [] [] where
  chosen := .nil
  finish := h
  labels := by simp
  near _ _ := by simp [NearJumps]
  spelled _ _ := ⟨[], .nil, rfl⟩

/-- A form in front of other ones. -/
theorem Laid.cons {k : Handle} {form : Form} {bs' : Bytes}
    (h : Laid pool l label? length (start + form.size start) handles bs forms)
    (hchosen : Chosen pool l k form) (hlabel : ∀ o, label? o = some k → start = o)
    (hform : ∀ offsetOf, Faithful label? offsetOf →
      form.bytes offsetOf start = .ok bs' ∧ NearJumps offsetOf [(form, start)]) :
    Laid pool l label? length start (k :: handles) (bs' ++ bs) (form :: forms) where
  -- Field by field: the form in front has its own start, and the rest is as it was one form further
  -- on.
  chosen := .cons hchosen h.chosen
  finish := h.finish
  labels := by
    intro item hitem o ho
    rw [startsFrom, List.zip_cons_cons] at hitem
    rcases List.mem_cons.1 hitem with rfl | hitem
    · exact hlabel o ho
    · exact h.labels item hitem o ho
  near := by
    intro offsetOf hfaithful item hitem
    rw [startsFrom, List.zip_cons_cons] at hitem
    rcases List.mem_cons.1 hitem with rfl | hitem
    · exact (hform offsetOf hfaithful).2 _ (List.mem_singleton_self _)
    · exact h.near offsetOf hfaithful item hitem
  spelled := by
    intro offsetOf hfaithful
    obtain ⟨chunks, hchunks, rfl⟩ := h.spelled offsetOf hfaithful
    refine ⟨bs' :: chunks, ?_, rfl⟩
    rw [startsFrom, List.zip_cons_cons]
    exact .cons (hform offsetOf hfaithful).1 hchunks

/-- A label or a line marker has no bytes. -/
theorem Laid.marker {k : Handle} (h : Laid pool l label? length start handles bs forms)
    (hmarker : l.isReal k = false) (hlabel : ∀ o, label? o = some k → start = o) :
    Laid pool l label? length start (k :: handles) bs (.fixed [] :: forms) := by
  have hchosen : Chosen pool l k (.fixed []) := by
    intro p _
    rw [Listing.isReal] at hmarker
    cases hinsn : l.get k with
    | label => rfl
    | line n => rfl
    | _ =>
      rw [hinsn] at hmarker
      cases hmarker
  have hform : ∀ offsetOf, Faithful label? offsetOf →
      (Form.fixed []).bytes offsetOf start = .ok [] ∧ NearJumps offsetOf [(.fixed [], start)] :=
    fun offsetOf _ => ⟨rfl, nearJumps_of_ne (by simp)⟩
  exact h.cons hchosen hlabel hform

/-- What stands in front of an instruction has no bytes. -/
theorem Laid.marks {lo hi : Nat} {marks : List Handle}
    (h : Laid pool l label? length start handles bs forms)
    (hmarks : Marks l.nodes (label? start) lo hi marks)
    (hlabel : ∀ o k, label? o = some k → l.nodes[k]? = some ⟨.label, none⟩)
    (hinjective : ∀ o o' k, label? o = some k → label? o' = some k → o = o') :
    ∃ forms', Laid pool l label? length start (marks ++ handles) bs forms' := by
  have hreal := hmarks.not_real (hlabel start)
  have hstart : ∀ k ∈ marks, ∀ o, label? o = some k → start = o := by
    intro k hk o ho
    by_contra hne
    exact hmarks.not_mem_of_ne hlabel hinjective ho (fun heq => hne heq.symm) hk
  clear hmarks
  induction marks with
  | nil => exact ⟨forms, h⟩
  | cons k marks ih =>
    obtain ⟨forms', h'⟩ := ih (fun k hk => hreal k (List.mem_cons_of_mem _ hk))
      fun k hk => hstart k (List.mem_cons_of_mem _ hk)
    exact ⟨_, h'.marker (hreal k List.mem_cons_self) (hstart k List.mem_cons_self)⟩

/-- An instruction has the bytes it was read from. -/
theorem Laid.instruction {i : Located} {k : Handle} {bs' : Bytes}
    (h : Laid pool l label? length (i.offset + bs'.length) handles bs forms)
    (hrecovers : Recovers pool i.offset i.insn i.raw bs')
    (hnode : l.nodes[k]? = some ⟨i.insn.map (labelOr label?), some i.raw⟩)
    (hlabel : ∀ o, label? o ≠ some k)
    (hmentioned : ∀ t ∈ i.insn.mentioned, (label? t).isSome) :
    ∃ form, Laid pool l label? length i.offset (k :: handles) (bs' ++ bs) (form :: forms) := by
  obtain ⟨form, hchoose, hsize, hbytes⟩ := hrecovers (labelOr label?)
  rw [← hsize] at h
  refine ⟨form, h.cons ?_ (fun o ho => absurd ho (hlabel o)) fun offsetOf hfaithful => ?_⟩
  · intro p hp
    rw [get_of_node hnode, Listing.rawForm?, hnode]
    exact hchoose p hp
  · refine hbytes offsetOf fun t ht => ?_
    obtain ⟨label, hl⟩ := Option.isSome_iff_exists.1 (hmentioned t ht)
    rw [labelOr, hl]
    exact hfaithful t label hl

end Laid

/-! ### Whole bodies -/

section Assembled

variable {pool : Pool} {length start : Nat} {code : List Located} {listing : Listing}
  {label? : Nat → Option Label} {placed : List (Nat × Handle)} {chunks : List Bytes}

/-- What stands behind the first bytes of a body stands there in the body. -/
theorem regularAt_drop {bs rest : Bytes} {i : Located}
    (h : RegularAt pool i.offset ((bs ++ rest).drop (i.offset - start)))
    (hle : start + bs.length ≤ i.offset) :
    RegularAt pool i.offset (rest.drop (i.offset - (start + bs.length))) := by
  have hsplit : i.offset - start = bs.length + (i.offset - (start + bs.length)) := by omega
  rwa [hsplit, List.drop_length_add_append] at h

/-- The handles of a spine are written as they were read. -/
theorem Spine.exists_laid {lo hi : Nat} {pairs : List (Nat × Handle)} {handles : List Handle}
    (h : Spine listing.nodes label? length lo hi pairs handles)
    (hsequence : Sequence pool length start code chunks)
    (hnodes : List.Forall₂ (fun i p => p.1 = i.offset ∧
      listing.nodes[p.2]? = some ⟨i.insn.map (labelOr label?), some i.raw⟩) code pairs)
    (hend : start + chunks.flatten.length = length)
    (hregular : ∀ i ∈ code, RegularAt pool i.offset (chunks.flatten.drop (i.offset - start)))
    (hlabel : ∀ o k, label? o = some k → listing.nodes[k]? = some ⟨.label, none⟩)
    (hinjective : ∀ o o' k, label? o = some k → label? o' = some k → o = o')
    (hfresh : ∀ p ∈ pairs, ∀ o, label? o ≠ some p.2)
    (hmentioned : ∀ i ∈ code, ∀ t ∈ i.insn.mentioned, (label? t).isSome) :
    ∃ forms, Laid pool listing label? length start handles chunks.flatten forms := by
  -- On the spine: the instruction of the pair is laid in front of the rest, and the marks in front
  -- of that.
  induction h generalizing start code chunks with
  | @nil lo hi marks hmarks =>
    cases hnodes
    cases hsequence
    have hstart : start = length := hend
    have hlaid : ∃ forms, Laid pool listing label? length start (marks ++ []) [] forms :=
      (laid_nil hstart).marks (hstart ▸ hmarks) hlabel hinjective
    rwa [List.append_nil] at hlaid
  | @cons lo mid hi p rest marks handles hmarks _ ih =>
    cases hnodes with
    | @cons i _ code _ hnode hnodes =>
      cases hsequence with
      | @cons _ bs _ chunks hwritten hsequence =>
        have hrecovers := hwritten.recovers chunks.flatten (by
          have hfirst := hregular i List.mem_cons_self
          rwa [Nat.sub_self, List.drop_zero] at hfirst)
        rw [List.flatten_cons] at hend hregular ⊢
        -- The rest is regular at its own start, so what is asked of the bytes is shifted by the
        -- first chunk.
        obtain ⟨forms, hforms⟩ := ih hsequence hnodes
          (by rw [← hend, List.length_append, Nat.add_assoc])
          (fun j hj => regularAt_drop (hregular j (List.mem_cons_of_mem _ hj))
            (hsequence.le_offset j hj).1)
          (fun q hq => hfresh q (List.mem_cons_of_mem _ hq))
          (fun j hj => hmentioned j (List.mem_cons_of_mem _ hj))
        obtain ⟨form, hform⟩ := hforms.instruction hrecovers hnode.2
          (hfresh p List.mem_cons_self) (hmentioned i List.mem_cons_self)
        exact hform.marks (hnode.1 ▸ hmarks) hlabel hinjective

/-- A listing that was assembled from regular instructions is written as they were read. -/
theorem Assembled.exists_laid (h : Assembled length code listing label? placed)
    (hsequence : Sequence pool length 0 code chunks) (hend : chunks.flatten.length = length)
    (hregular : ∀ i ∈ code, RegularAt pool i.offset (chunks.flatten.drop i.offset)) :
    ∃ forms, Laid pool listing label? length 0 listing.handles chunks.flatten forms := by
  obtain ⟨lo, hi, hspine, -⟩ := h.spine
  exact hspine.exists_laid hsequence h.nodes (by omega) hregular h.label h.injective
    (fun p hp => h.label?_ne hp) h.mentioned

variable {bs : Bytes} {forms : List Form}

/-- In the layout of the forms every label has the offset it was made for. -/
theorem Laid.faithful (h : Laid pool listing label? length 0 listing.handles bs forms)
    (wf : listing.WellFormed) (hlinked : ∀ o k, label? o = some k → k ∈ listing.handles) :
    Faithful label? (Layout.of listing.positions forms).offsetOf := by
  intro o k hk
  obtain ⟨position, hposition⟩ := List.mem_iff_getElem?.1 (hlinked o k hk)
  have hlt : position < forms.length := by
    rw [← h.chosen.length_eq]
    exact (List.getElem?_eq_some_iff.1 hposition).1
  obtain ⟨start, hstart⟩ : ∃ start, (startsFrom 0 forms)[position]? = some start :=
    ⟨_, List.getElem?_eq_getElem (by rw [length_startsFrom]; exact hlt)⟩
  have hitem : (k, start) ∈ listing.handles.zip (startsFrom 0 forms) :=
    List.mem_of_getElem? (List.getElem?_zip_eq_some.2 ⟨hposition, hstart⟩)
  have hoffset : (Layout.of listing.positions forms).offsetAt position = start := by
    rw [Layout.offsetAt, Layout.of, offsets_eq, List.getElem?_toArray,
      List.getElem?_append_left (by rw [length_startsFrom]; exact hlt), hstart]
    rfl
  have hposition' : Listing.positionIn (Layout.of listing.positions forms).positions k =
      some position := (Listing.positionIn_positions wf).2 hposition
  rw [Layout.offsetOf, hposition']
  exact congrArg Except.ok (hoffset.trans (h.labels _ hitem o hk))

/-- Nothing is widened if no jump leads too far. -/
theorem widen_of_nearJumps {offsetOf : Label → Except Malformation Nat} {items : List (Form × Nat)}
    (method : String) (h : NearJumps offsetOf items) :
    widen offsetOf method items = .ok (items.map (·.1)) := by
  induction items with
  | nil => rfl
  | cons item items ih =>
    obtain ⟨form, start⟩ := item
    have hrest := ih fun item hitem => h item (List.mem_cons_of_mem _ hitem)
    -- Only a narrow jump asks how far it leads.
    by_cases hjump : ∃ op target, form = .jump op target false
    · obtain ⟨op, target, rfl⟩ := hjump
      obtain ⟨offset, hoffset, hnear⟩ := h _ List.mem_cons_self op target rfl
      rw [widen]
      refine exceptBind_eq_ok_iff.2 ⟨offset, hoffset, ?_⟩
      rw [if_pos hnear]
      exact exceptBind_eq_ok_iff.2 ⟨_, hrest, rfl⟩
    · have hwiden : widen offsetOf method ((form, start) :: items) = do
          return form :: (← widen offsetOf method items) := by
        cases form with
        | jump op target wide =>
          cases wide with
          | false => exact absurd ⟨op, target, rfl⟩ hjump
          | true => rw [widen]; simp
        | _ => rw [widen]; simp
      rw [hwiden]
      exact exceptBind_eq_ok_iff.2 ⟨_, hrest, rfl⟩

/-- The layout is settled as it is. -/
theorem Laid.settle (h : Laid pool listing label? length 0 listing.handles bs forms)
    (hfaithful : Faithful label? (Layout.of listing.positions forms).offsetOf) (method : String) :
    Layout.settle listing.positions method forms = .ok (Layout.of listing.positions forms) := by
  have hnear := h.near _ hfaithful
  rw [← @Layout.located_of listing.positions] at hnear
  rw [Layout.settle, widen_of_nearJumps method hnear, map_fst_located]
  exact if_neg (Nat.lt_irrefl _)

/-- The layout spells the bytes that were read. -/
theorem Laid.bytes (h : Laid pool listing label? length 0 listing.handles bs forms)
    (hfaithful : Faithful label? (Layout.of listing.positions forms).offsetOf) :
    (Layout.of listing.positions forms).bytes = .ok bs := by
  obtain ⟨chunks, hchunks, rfl⟩ := h.spelled _ hfaithful
  refine exceptBind_eq_ok_iff.2 ⟨chunks, ?_, rfl⟩
  rw [Layout.located_of, mapM_eq_ok_iff]
  exact hchunks

/-- The forms are chosen one after the other without adding to a pool. -/
theorem mapM_choose {l : Listing} {handles : List Handle} {p : Pool}
    (h : List.Forall₂ (Chosen pool l) handles forms) (hp : pool.Below p) :
    (handles.mapM fun h => Form.choose (l.get h) (l.rawForm? h)) p = (.ok forms, p) := by
  induction h with
  | nil => rfl
  | cons hfirst _ ih =>
    rw [List.mapM_cons]
    exact poolBind_of_eq_ok (hfirst p hp) (poolBind_of_eq_ok ih rfl)

end Assembled

end Unscramble.Binary
