import Unscramble.Proofs.Binary.Assembly
import Unscramble.Proofs.Binary.Layout

/-! # Outlines

The outline of a listing is what is left of it when handles are forgotten: its real instructions in
order, and for each label how many of them stand in front of it. An encoded listing keeps its
outline, because a label's offset tells how many instructions start before it.

Main definitions: `Listing.place?`, `Listing.outline`, `Body.ranges`. Main statements:
`place?_of_offsetOf`, `Assembled.place?_label`, `outline_of_spelled`. -/

namespace Unscramble

/-! ### Places -/

/-- How many real instructions stand in front of a handle, if it is linked. -/
def Listing.place? (l : Listing) (h : Handle) : Option Nat :=
  if h ∈ l.handles then some ((l.handles.takeWhile (· != h)).countP l.isReal) else none

/-- The real instructions in order, with places instead of labels. -/
def Listing.outline (l : Listing) : List (Instruction (Option Nat)) :=
  (l.handles.filter l.isReal).map fun h => (l.get h).map l.place?

/-- The protected ranges, with places instead of labels. -/
def Body.ranges (b : Body) : List (Guard (Option Nat)) :=
  b.guards.map (Guard.map b.listing.place?)

/-- Whether a range protects an instruction. -/
def Guard.covers (g : Guard (Option Nat)) : Bool :=
  match g.start, g.stop with
  | some start, some stop => start < stop
  | _, _ => false

/-- The outline of a listing has its real instructions, with labels told by their places. -/
theorem Listing.outline_eq (l : Listing) :
    l.outline = (l.instructions.filter Instruction.isReal).map (Instruction.map l.place?) := by
  rw [outline, instructions, List.filter_map, List.map_map]
  rfl

/-- The place of a handle by its position. -/
theorem Listing.place?_of_getElem? {l : Listing} (wf : l.WellFormed) {h : Handle} {p : Nat}
    (hp : l.handles[p]? = some h) : l.place? h = some ((l.handles.take p).countP l.isReal) := by
  obtain ⟨hlt, hget⟩ := List.getElem?_eq_some_iff.1 hp
  have hsplit : l.handles = l.handles.take p ++ h :: l.handles.drop (p + 1) := by
    rw [← hget, List.getElem_cons_drop, List.take_append_drop]
  have hfront : h ∉ l.handles.take p := by
    have hnodup := wf.nodup
    rw [hsplit, List.nodup_append] at hnodup
    intro hmem
    exact hnodup.2.2 h hmem h List.mem_cons_self rfl
  have htake : l.handles.takeWhile (· != h) = l.handles.take p := by
    have hpass : ∀ a ∈ l.handles.take p, (a != h) = true := by
      intro a ha
      have hne : a ≠ h := fun heq => hfront (heq ▸ ha)
      simpa using hne
    conv_lhs => rw [hsplit]
    rw [List.takeWhile_append_of_pos hpass]
    simp
  rw [place?, if_pos (List.mem_of_getElem? hp), htake]

/-- Labels that are renamed twice are renamed once by both. -/
theorem Instruction.map_map {L M N : Type} (f : L → M) (g : M → N) (insn : Instruction L) :
    (insn.map f).map g = insn.map (g ∘ f) := by
  cases insn <;> simp [Instruction.map]

namespace Binary

/-! ### Offsets of real instructions -/

/-- The form of a real instruction has bytes. -/
theorem Encodes.size_pos {q : Pool} {insn : Instruction Label} {form : Form}
    (h : Encodes q insn form) (hreal : insn.isReal = true) (start : Nat) : 0 < form.size start := by
  cases h with
  | marker hmarker =>
    rw [hmarker] at hreal
    cases hreal
  | fixed _ _ hread =>
    obtain ⟨raw, hread⟩ := hread (fun _ => 0) 0 0
    exact List.length_pos_iff.2 (ne_nil_of_reads_readInstruction hread)
  | @jump op target wide =>
    cases wide <;> simp [Form.size]
  | table =>
    rw [Form.size]
    omega
  | lookup =>
    rw [Form.size]
    omega

/-- The offsets of the real instructions of a list. -/
def realStarts (insns : List (Instruction Label)) (starts : List Nat) : List Nat :=
  ((insns.zip starts).filter fun p => p.1.isReal).map (·.2)

/-- Instructions are spelled at the places of the real ones. -/
theorem map_fst_spelled (off : Label → Nat) (insns : List (Instruction Label)) (starts : List Nat) :
    (spelled off insns starts).map (·.1) = realStarts insns starts := by
  rw [spelled, realStarts, List.map_map]
  rfl

/-- What is spelled are the real instructions, with labels told by their offsets. -/
theorem map_snd_spelled (off : Label → Nat) (insns : List (Instruction Label)) (starts : List Nat)
    (hlength : starts.length = insns.length) :
    (spelled off insns starts).map (·.2) =
      (insns.filter Instruction.isReal).map (Instruction.map off) := by
  have hinsns : (insns.zip starts).map (·.1) = insns := List.map_fst_zip (Nat.le_of_eq hlength.symm)
  conv_rhs => rw [← hinsns]
  rw [spelled, List.filter_map, List.map_map, List.map_map]
  rfl

section RealStarts

variable {q : Pool} {insns : List (Instruction Label)} {forms : List Form} {start : Nat}

/-- A real instruction has a place. -/
theorem realStarts_cons_of_real {insn : Instruction Label} (hreal : insn.isReal = true)
    (insns : List (Instruction Label)) (start : Nat) (starts : List Nat) :
    realStarts (insn :: insns) (start :: starts) = start :: realStarts insns starts := by
  rw [realStarts, List.zip_cons_cons, List.filter_cons_of_pos (by simpa using hreal)]
  rfl

/-- What is not real has none. -/
theorem realStarts_cons_of_not_real {insn : Instruction Label} (hreal : insn.isReal = false)
    (insns : List (Instruction Label)) (start : Nat) (starts : List Nat) :
    realStarts (insn :: insns) (start :: starts) = realStarts insns starts := by
  rw [realStarts, List.zip_cons_cons, List.filter_cons_of_neg (by simp [hreal])]
  rfl

/-- Real instructions start one behind the other, and before the end. -/
theorem realStarts_sorted (h : List.Forall₂ (Encodes q) insns forms) :
    (realStarts insns (startsFrom start forms)).Pairwise (· < ·) ∧
      ∀ o ∈ realStarts insns (startsFrom start forms), start ≤ o ∧ o < endFrom start forms := by
  -- On the forms, for every start: a marker takes no bytes, so only a real instruction moves the
  -- next one on.
  induction h generalizing start with
  | nil => exact ⟨.nil, by simp [realStarts]⟩
  | @cons insn form insns forms hfirst _ ih =>
    obtain ⟨hsorted, hbounds⟩ := @ih (start + form.size start)
    rw [startsFrom, endFrom]
    cases hreal : insn.isReal with
    | false =>
      rw [realStarts_cons_of_not_real hreal]
      refine ⟨hsorted, fun o ho => ?_⟩
      obtain ⟨hlow, hhigh⟩ := hbounds o ho
      exact ⟨by omega, hhigh⟩
    | true =>
      have hpos := hfirst.size_pos hreal start
      have hend := le_endFrom (start + form.size start) forms
      rw [realStarts_cons_of_real hreal]
      refine ⟨List.pairwise_cons.2 ⟨fun o ho => ?_, hsorted⟩, fun o ho => ?_⟩
      · have hlow := (hbounds o ho).1
        omega
      · rcases List.mem_cons.1 ho with rfl | ho
        · exact ⟨Nat.le_refl _, by omega⟩
        · obtain ⟨hlow, hhigh⟩ := hbounds o ho
          exact ⟨by omega, hhigh⟩

/-- The offset of a position tells how many real instructions stand in front of it. -/
theorem countP_realStarts (h : List.Forall₂ (Encodes q) insns forms) {p o : Nat}
    (ho : (startsFrom start forms)[p]? = some o) :
    (realStarts insns (startsFrom start forms)).countP (· < o) =
      (insns.take p).countP Instruction.isReal := by
  induction h generalizing start p with
  | nil => cases ho
  | @cons insn form insns forms hfirst hrest ih =>
    cases p with
    | zero =>
      rw [startsFrom] at ho
      cases ho
      -- No instruction starts before the first one.
      rw [List.take_zero, List.countP_nil, List.countP_eq_zero]
      intro o ho
      have hlow := (realStarts_sorted (.cons hfirst hrest)).2 o ho
      simpa using hlow.1
    | succ p =>
      rw [startsFrom, List.getElem?_cons_succ] at ho
      have hlow := (mem_startsFrom (List.mem_of_getElem? ho)).1
      rw [List.take_succ_cons, startsFrom]
      cases hreal : insn.isReal with
      | false =>
        rw [realStarts_cons_of_not_real hreal, ih ho, List.countP_cons_of_neg (by simp [hreal])]
      | true =>
        have hpos := hfirst.size_pos hreal start
        rw [realStarts_cons_of_real hreal, List.countP_cons_of_pos (by simp; omega), ih ho,
          List.countP_cons_of_pos hreal]

/-- The offset of a position is that of a real instruction or the end. -/
theorem start_mem_or_eq_end (h : List.Forall₂ (Encodes q) insns forms) {p o : Nat}
    (ho : (startsFrom start forms)[p]? = some o) :
    o ∈ realStarts insns (startsFrom start forms) ∨ o = endFrom start forms := by
  induction h generalizing start p with
  | nil => cases ho
  | @cons insn form insns forms hfirst hrest ih =>
    rw [startsFrom] at ho ⊢
    rw [endFrom]
    cases hreal : insn.isReal with
    | true =>
      rw [realStarts_cons_of_real hreal]
      cases p with
      | zero =>
        cases ho
        exact .inl List.mem_cons_self
      | succ p =>
        rcases ih ho with hmem | hend
        · exact .inl (List.mem_cons_of_mem _ hmem)
        · exact .inr hend
    | false =>
      -- What follows a marker starts where the marker stands.
      have hsize : form.size start = 0 := by
        rw [hfirst.eq_of_not_real hreal]
        rfl
      rw [realStarts_cons_of_not_real hreal, hsize, Nat.add_zero]
      rw [hsize, Nat.add_zero] at ho
      cases p with
      | succ p => exact ih ho
      | zero =>
        cases ho
        cases hrest with
        | nil => exact .inr rfl
        | cons hsecond hrest' => exact ih (p := 0) rfl

end RealStarts

/-! ### Places of labels -/

/-- A label that has an offset is linked, and its place is how many real instructions start before
this offset. -/
theorem place?_of_offsetOf {q : Pool} {l : Listing} (wf : l.WellFormed) {forms : List Form}
    (hencodes : List.Forall₂ (Encodes q) l.instructions forms) {label : Label} {o : Nat}
    (ho : (Layout.of l.positions forms).offsetOf label = .ok o) :
    l.place? label = some ((realStarts l.instructions (startsFrom 0 forms)).countP (· < o)) ∧
      (o ∈ realStarts l.instructions (startsFrom 0 forms) ∨ o = endFrom 0 forms) := by
  rw [Layout.offsetOf] at ho
  split at ho
  · next p hp =>
    have hhandle : l.handles[p]? = some label := (Listing.positionIn_positions wf).1 hp
    have hlt : p < forms.length := by
      rw [← hencodes.length_eq, Listing.instructions, List.length_map]
      exact (List.getElem?_eq_some_iff.1 hhandle).1
    have hget : (startsFrom 0 forms)[p]? = some o := by
      cases ho
      rw [Layout.offsetAt, Layout.of, offsets_eq, List.getElem?_toArray,
        List.getElem?_append_left (by rw [length_startsFrom]; exact hlt)]
      rw [List.getElem?_eq_getElem (by rw [length_startsFrom]; exact hlt)]
      rfl
    refine ⟨?_, start_mem_or_eq_end hencodes hget⟩
    rw [Listing.place?_of_getElem? wf hhandle, countP_realStarts hencodes hget,
      Listing.instructions, ← List.map_take, List.countP_map]
    rfl
  · cases ho

/-! ### Assembled listings -/

/-- The instruction of a handle is that of its node. -/
theorem get_of_node {l : Listing} {h : Handle} {node : Node} (hnode : l.nodes[h]? = some node) :
    l.get h = node.insn := by
  rw [Listing.get, hnode]

section Spine

variable {l : Listing} {label? : Nat → Option Label} {length lo hi : Nat}
  {pairs : List (Nat × Handle)} {handles marks : List Handle}

/-- What stands in front of an instruction is not real. -/
theorem Marks.not_real {label : Option Label} (h : Marks l.nodes label lo hi marks)
    (hlabel : ∀ k, label = some k → l.nodes[k]? = some ⟨.label, none⟩) :
    ∀ k ∈ marks, l.isReal k = false := by
  intro k hk
  rw [h.eq] at hk
  rcases List.mem_append.1 hk with hk | hk
  · rw [Listing.isReal, get_of_node (hlabel k (Option.mem_toList.1 hk))]
    rfl
  · obtain ⟨hlow, hhigh⟩ := List.mem_range'_1.1 hk
    have hle := h.le
    obtain ⟨n, hn⟩ := h.lines k hlow (by omega)
    rw [Listing.isReal, get_of_node hn]
    rfl

/-- The real instructions of a spine are those it was made from. -/
theorem Spine.filter_isReal (h : Spine l.nodes label? length lo hi pairs handles)
    (hlabel : ∀ o k, label? o = some k → l.nodes[k]? = some ⟨.label, none⟩)
    (hreal : ∀ p ∈ pairs, l.isReal p.2 = true) :
    handles.filter l.isReal = pairs.map (·.2) := by
  induction h with
  | nil hmarks =>
    rw [List.filter_eq_nil_iff.2]
    · rfl
    · intro k hk
      simp [hmarks.not_real (hlabel _) k hk]
  | @cons lo mid hi p rest marks handles hmarks _ ih =>
    have hnone : marks.filter l.isReal = [] := by
      rw [List.filter_eq_nil_iff]
      intro k hk
      simp [hmarks.not_real (hlabel _) k hk]
    rw [List.filter_append, hnone, List.nil_append,
      List.filter_cons_of_pos (hreal p List.mem_cons_self),
      ih fun p hp => hreal p (List.mem_cons_of_mem _ hp), List.map_cons]

/-- A label does not stand in front of another offset. -/
theorem Marks.not_mem_of_ne {o o' : Nat} {k : Label} (h : Marks l.nodes (label? o') lo hi marks)
    (hlabel : ∀ o k, label? o = some k → l.nodes[k]? = some ⟨.label, none⟩)
    (hinjective : ∀ o o' k, label? o = some k → label? o' = some k → o = o')
    (hk : label? o = some k) (hne : o ≠ o') : k ∉ marks := by
  intro hmem
  rw [h.eq] at hmem
  rcases List.mem_append.1 hmem with hmem | hmem
  · exact hne (hinjective o o' k hk (Option.mem_toList.1 hmem))
  · obtain ⟨hlow, hhigh⟩ := List.mem_range'_1.1 hmem
    have hle := h.le
    obtain ⟨n, hn⟩ := h.lines k hlow (by omega)
    rw [hlabel o k hk] at hn
    cases hn

/-- How many real instructions stand in front of a label is how many start before its offset. -/
theorem Spine.countP_takeWhile (h : Spine l.nodes label? length lo hi pairs handles)
    (hlabel : ∀ o k, label? o = some k → l.nodes[k]? = some ⟨.label, none⟩)
    (hinjective : ∀ o o' k, label? o = some k → label? o' = some k → o = o')
    (hreal : ∀ p ∈ pairs, l.isReal p.2 = true)
    (hsorted : (pairs.map (·.1)).Pairwise (· < ·)) (hend : ∀ p ∈ pairs, p.1 < length)
    {o : Nat} {k : Label} (hk : label? o = some k) (ho : o ∈ pairs.map (·.1) ∨ o = length) :
    k ∈ handles ∧
      (handles.takeWhile (· != k)).countP l.isReal = (pairs.map (·.1)).countP (· < o) := by
  induction h with
  | @nil lo hi marks hmarks =>
    have hlength : o = length := by simpa using ho
    rw [hmarks.eq, ← hlength, hk]
    simp
  | @cons lo mid hi p rest marks handles hmarks _ ih =>
    rw [List.map_cons, List.pairwise_cons] at hsorted
    by_cases heq : o = p.1
    · -- The label is the first of the marks.
      have hbefore : (p.1 :: rest.map (·.1)).countP (· < p.1) = 0 := by
        rw [List.countP_eq_zero]
        intro o' ho'
        rcases List.mem_cons.1 ho' with rfl | ho'
        · simp
        · have hlt := hsorted.1 o' ho'
          simpa using Nat.le_of_lt hlt
      rw [heq] at hk
      rw [hmarks.eq, hk, heq, List.map_cons, hbefore]
      simp
    · have hlater : o ∈ rest.map (·.1) ∨ o = length := by
        rcases ho with ho | ho
        · rcases List.mem_cons.1 ho with ho | ho
          · exact absurd ho heq
          · exact .inl ho
        · exact .inr ho
      have hlt : p.1 < o := by
        rcases hlater with hmem | rfl
        · exact hsorted.1 o hmem
        · exact hend p List.mem_cons_self
      obtain ⟨hmem, hcount⟩ := ih (fun p hp => hreal p (List.mem_cons_of_mem _ hp)) hsorted.2
        (fun p hp => hend p (List.mem_cons_of_mem _ hp)) hlater
      have hpass : ∀ a ∈ marks, (a != k) = true := by
        intro a ha
        have hne : a ≠ k := fun heq' =>
          hmarks.not_mem_of_ne hlabel hinjective hk heq (heq' ▸ ha)
        simpa using hne
      have hfirst := hreal p List.mem_cons_self
      have hother : (p.2 != k) = true := by
        have hne : p.2 ≠ k := by
          intro heq'
          rw [heq', Listing.isReal, get_of_node (hlabel o k hk)] at hfirst
          cases hfirst
        simpa using hne
      have hnone : marks.countP l.isReal = 0 := by
        rw [List.countP_eq_zero]
        intro a ha
        simp [hmarks.not_real (hlabel _) a ha]
      refine ⟨by simp [hmem], ?_⟩
      rw [List.takeWhile_append_of_pos hpass, List.takeWhile_cons, if_pos hother,
        List.countP_append, hnone, Nat.zero_add, List.countP_cons_of_pos hfirst, hcount,
        List.map_cons, List.countP_cons_of_pos (by simpa using hlt)]

end Spine

section Assembled

variable {length : Nat} {code : List Located} {listing : Listing} {label? : Nat → Option Label}
  {placed : List (Nat × Handle)}

/-- Instructions that are read one behind the other. -/
structure Ordered (length : Nat) (code : List Located) : Prop where
  /-- They are real ones. -/
  real : ∀ i ∈ code, i.insn.isReal = true
  /-- They start one behind the other. -/
  sorted : (code.map (·.offset)).Pairwise (· < ·)
  /-- They start before the end. -/
  before : ∀ i ∈ code, i.offset < length

/-- Instructions are placed at their offsets. -/
theorem Assembled.map_fst_placed (h : Assembled length code listing label? placed) :
    placed.map (·.1) = code.map (·.offset) := by
  have hfst : List.Forall₂ (fun a b => a = b) (code.map (·.offset)) (placed.map (·.1)) := by
    rw [List.forall₂_map_left_iff, List.forall₂_map_right_iff]
    exact h.nodes.imp fun i p hp => hp.1.symm
  rw [List.forall₂_eq_eq_eq] at hfst
  exact hfst.symm

/-- What is placed is real. -/
theorem Assembled.isReal (h : Assembled length code listing label? placed)
    (hordered : Ordered length code) : ∀ p ∈ placed, listing.isReal p.2 = true := by
  intro p hp
  obtain ⟨i, hi, -, hnode⟩ := exists_of_mem_right h.nodes hp
  rw [Listing.isReal, get_of_node hnode, Instruction.isReal_map]
  exact hordered.real i hi

/-- The place of the label of an offset is how many instructions start before it. -/
theorem Assembled.place?_label (h : Assembled length code listing label? placed)
    (hordered : Ordered length code) {o : Nat} {k : Label} (hk : label? o = some k) :
    listing.place? k = some ((code.map (·.offset)).countP (· < o)) := by
  obtain ⟨lo, hi, hspine, -⟩ := h.spine
  have hmap := h.map_fst_placed
  have hend : ∀ p ∈ placed, p.1 < length := by
    intro p hp
    obtain ⟨i, hi, hoffset, -⟩ := exists_of_mem_right h.nodes hp
    rw [hoffset]
    exact hordered.before i hi
  obtain ⟨hmem, hcount⟩ := hspine.countP_takeWhile h.label h.injective (h.isReal hordered)
    (by rw [hmap]; exact hordered.sorted) hend hk (by rw [hmap]; exact h.starts o k hk)
  rw [Listing.place?, if_pos hmem, hcount, hmap]

/-- The outline of an assembled listing is read off the located instructions. -/
theorem Assembled.outline (h : Assembled length code listing label? placed)
    (hordered : Ordered length code) :
    listing.outline = code.map fun i =>
      i.insn.map fun o => some ((code.map (·.offset)).countP (· < o)) := by
  obtain ⟨lo, hi, hspine, -⟩ := h.spine
  rw [Listing.outline, hspine.filter_isReal h.label (h.isReal hordered), List.map_map]
  have heach : List.Forall₂ (fun a b => a = b)
      (code.map fun i => i.insn.map fun o => some ((code.map (·.offset)).countP (· < o)))
      (placed.map ((fun k => (listing.get k).map listing.place?) ∘ fun p => p.2)) := by
    rw [List.forall₂_map_left_iff, List.forall₂_map_right_iff]
    refine forall₂_of_mem_left h.nodes ?_
    intro i hi p hp
    dsimp only [Function.comp]
    rw [get_of_node hp.2, Instruction.map_map]
    refine Instruction.map_congr fun t ht => ?_
    obtain ⟨k, hk⟩ := Option.isSome_iff_exists.1 (h.mentioned i hi t ht)
    rw [Function.comp, labelOr, hk, Option.getD_some, h.place?_label hordered hk]
  rw [List.forall₂_eq_eq_eq] at heach
  exact heach.symm

end Assembled

/-! ### Written and read again -/

section Written

variable {q : Pool} {l listing : Listing} {forms : List Form} {code : List Located}
  {label? : Nat → Option Label} {placed : List (Nat × Handle)}

/-- The instructions that a layout spells are read one behind the other. -/
theorem ordered_of_spelled {insns : List (Instruction Label)} {off : Label → Nat}
    (hencodes : List.Forall₂ (Encodes q) insns forms)
    (hcode : code.map (fun i => (i.offset, i.insn)) = spelled off insns (startsFrom 0 forms)) :
    code.map (·.offset) = realStarts insns (startsFrom 0 forms) ∧
      Ordered (endFrom 0 forms) code := by
  have hoffsets : code.map (·.offset) = realStarts insns (startsFrom 0 forms) := by
    rw [← map_fst_spelled off, ← hcode, List.map_map]
    rfl
  obtain ⟨hsorted, hbounds⟩ := @realStarts_sorted q insns forms 0 hencodes
  refine ⟨hoffsets, ?_, by rw [hoffsets]; exact hsorted, ?_⟩
  · intro i hi
    have hmem : (i.offset, i.insn) ∈ spelled off insns (startsFrom 0 forms) := by
      rw [← hcode]
      exact List.mem_map_of_mem hi
    obtain ⟨p, hp, heq⟩ := List.mem_map.1 hmem
    have hinsn : p.1.map off = i.insn := congrArg Prod.snd heq
    rw [← hinsn, Instruction.isReal_map]
    exact (List.mem_filter.1 hp).2
  · intro i hi
    refine (hbounds i.offset ?_).2
    rw [← hoffsets]
    exact List.mem_map_of_mem hi

/-- A listing that is read from the bytes of another one has the same outline. -/
theorem outline_of_spelled (wf : l.WellFormed)
    (hencodes : List.Forall₂ (Encodes q) l.instructions forms)
    (hoffsets : ∀ insn ∈ l.instructions, ∀ t ∈ insn.mentioned,
      ∃ o, (Layout.of l.positions forms).offsetOf t = .ok o)
    (hcode : code.map (fun i => (i.offset, i.insn)) =
      spelled (offsetOr (Layout.of l.positions forms).offsetOf) l.instructions
        (startsFrom 0 forms))
    (h : Assembled (endFrom 0 forms) code listing label? placed) :
    listing.outline = l.outline := by
  -- Offsets of the code correspond to places, since both count the real instructions in front.
  obtain ⟨hstarts, hordered⟩ := ordered_of_spelled hencodes hcode
  have hinsns : code.map (·.insn) = (l.instructions.filter Instruction.isReal).map
      (Instruction.map (offsetOr (Layout.of l.positions forms).offsetOf)) := by
    rw [← map_snd_spelled _ _ (startsFrom 0 forms) (by rw [length_startsFrom, hencodes.length_eq]),
      ← hcode, List.map_map]
    rfl
  have hread : listing.outline = (code.map (·.insn)).map
      (Instruction.map fun o => some ((code.map (·.offset)).countP (· < o))) := by
    rw [h.outline hordered, List.map_map]
    rfl
  rw [hread, hinsns, hstarts, Listing.outline_eq, List.map_map]
  refine List.map_congr_left fun insn hinsn => ?_
  rw [Function.comp, Instruction.map_map]
  refine Instruction.map_congr fun t ht => ?_
  obtain ⟨o, ho⟩ := hoffsets insn (List.mem_of_mem_filter hinsn) t ht
  rw [Function.comp, offsetOr_eq ho, (place?_of_offsetOf wf hencodes ho).1]

/-- Whatever starts before an offset starts before a greater one. -/
theorem countP_lt_mono (starts : List Nat) {a b : Nat} (h : a ≤ b) :
    starts.countP (· < a) ≤ starts.countP (· < b) := by
  refine List.countP_mono_left fun x _ hx => ?_
  have hlt : x < a := by simpa using hx
  simpa using Nat.lt_of_lt_of_le hlt h

/-- Of two offsets at which labels stand, the smaller one has fewer instructions in front of it. -/
theorem countP_lt_iff {starts : List Nat} {finish : Nat} (hbounds : ∀ o ∈ starts, o < finish)
    {o o' : Nat} (ho : o ∈ starts ∨ o = finish) (ho' : o' ∈ starts ∨ o' = finish) :
    starts.countP (· < o) < starts.countP (· < o') ↔ o < o' := by
  constructor
  · intro hlt
    by_contra hge
    have hcount := countP_lt_mono starts (Nat.not_lt.1 hge)
    omega
  · intro hlt
    have hmem : o ∈ starts := by
      rcases ho with ho | rfl
      · exact ho
      · rcases ho' with ho' | rfl
        · exact absurd (hbounds o' ho') (by omega)
        · exact absurd hlt (Nat.lt_irrefl _)
    -- The instruction at the smaller offset is counted for the greater one only.
    obtain ⟨front, back, rfl⟩ := List.append_of_mem hmem
    have hfront := countP_lt_mono front (Nat.le_of_lt hlt)
    have hback := countP_lt_mono back (Nat.le_of_lt hlt)
    rw [List.countP_append, List.countP_append, List.countP_cons_of_neg (by simp),
      List.countP_cons_of_pos (by simpa using hlt)]
    omega

end Written

end Binary

end Unscramble
