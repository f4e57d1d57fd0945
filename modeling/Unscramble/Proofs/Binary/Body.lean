import Unscramble.Binary.Body
import Unscramble.Proofs.Binary.Outline
import Unscramble.Proofs.Binary.Writing

/-! # Bodies are read back

The body of a method is read back with the same outline, the same stack and locals and the same
parts. Ranges that protect nothing are left out.

Main definitions: `BodyFits`, `SameBody`. Main statement: `writes_bodyBytes`. -/

namespace Unscramble.Binary

open Reader

variable {base : Pool}

/-! ### Ranges -/

/-- A range by the offsets of its labels. -/
def GuardAt (offsetOf : Label → Except Malformation Nat) (g : Guard Label) (g' : Guard Nat) :
    Prop :=
  offsetOf g.start = .ok g'.start ∧ offsetOf g.stop = .ok g'.stop ∧
    offsetOf g.handler = .ok g'.handler ∧ g.catches = g'.catches

/-- A count of 16 bits that is an offset inside a body. -/
theorem toNat_toUInt16_of_le {n : Nat} (h : n ≤ 65535) : n.toUInt16.toNat = n :=
  Nat.mod_eq_of_lt (by omega)

/-- The offsets of a range and its class are read back. -/
theorem reads_readGuard {q : Pool} {length : Nat} (g : Guard Nat) {catches : UInt16}
    (hstart : g.start ≤ length) (hstop : g.stop ≤ length) (hhandler : g.handler ≤ length)
    (hlength : length ≤ 65535)
    (hcatches : Reads (indexed? q.classAt) (word16 catches) g.catches) :
    Reads (readGuard q length)
      (count16 g.start ++ count16 g.stop ++ count16 g.handler ++ word16 catches) g := by
  have htail : Reads (do
      let a ← target length g.start
      let b ← target length g.stop
      let c ← target length g.handler
      return (⟨a, b, c, g.catches⟩ : Guard Nat)) [] g :=
    (reads_target hstart).bind_nil ((reads_target hstop).bind_nil
      ((reads_target hhandler).bind_pure fun c => (⟨g.start, g.stop, c, g.catches⟩ : Guard Nat)))
  rw [List.append_assoc, List.append_assoc]
  refine (reads_u16 g.start.toUInt16).bind ((reads_u16 g.stop.toUInt16).bind
    ((reads_u16 g.handler.toUInt16).bind (hcatches.bind_nil ?_)))
  rw [toNat_toUInt16_of_le (by omega), toNat_toUInt16_of_le (by omega),
    toNat_toUInt16_of_le (by omega)]
  exact htail

/-- A range is written by its offsets, unless it protects nothing. -/
def GuardWritten (l : Layout) (g : Guard Label) (chunks : List Bytes) (q : Pool) : Prop :=
  ∃ g', GuardAt l.offsetOf g g' ∧ List.Forall₂ (fun chunk g => ∀ length, g.start ≤ length →
    g.stop ≤ length → g.handler ≤ length → length ≤ 65535 → Reads (readGuard q length) chunk g)
    chunks ([g'].filter fun g => g.start < g.stop)

/-- A range is written with its places and the class that it catches. -/
theorem yields_guardBytes (l : Layout) (g : Guard Label) :
    Yields base (guardBytes l g) (GuardWritten l g) := by
  refine yields_settled.bind fun start => yields_settled.bind fun stop => ?_
  refine yields_settled.bind fun handler => ?_
  by_cases hempty : stop ≤ start
  · rw [if_pos hempty]
    refine yields_pure fun q hhandler hstop hstart => ?_
    refine ⟨⟨start, stop, handler, g.catches⟩, ⟨hstart, hstop, hhandler, rfl⟩, ?_⟩
    rw [List.filter_cons_of_neg (by simpa using hempty)]
    exact .nil
  · rw [if_neg hempty]
    refine (yields_indexOrZero Pool.yields_ofClass g.catches).bind_pure ?_
    intro catches q hcatches hhandler hstop hstart
    refine ⟨⟨start, stop, handler, g.catches⟩, ⟨hstart, hstop, hhandler, rfl⟩, ?_⟩
    rw [List.filter_cons_of_pos (by simpa using hempty)]
    refine .cons ?_ .nil
    intro length hle hle' hle'' hlength
    exact reads_readGuard ⟨start, stop, handler, g.catches⟩ hle hle' hle'' hlength hcatches

/-- The ranges that are written are those that protect something. -/
theorem exists_offsets_of_guardWritten {l : Layout} {guards : List (Guard Label)}
    {lists : List (List Bytes)} {q : Pool}
    (h : List.Forall₂ (fun g chunks => GuardWritten l g chunks q) guards lists) :
    ∃ offsets, List.Forall₂ (GuardAt l.offsetOf) guards offsets ∧
      List.Forall₂ (fun chunk g => ∀ length, g.start ≤ length → g.stop ≤ length →
        g.handler ≤ length → length ≤ 65535 → Reads (readGuard q length) chunk g)
        lists.flatten (offsets.filter fun g => g.start < g.stop) := by
  induction h with
  | nil => exact ⟨[], .nil, .nil⟩
  | cons hfirst _ ih =>
    obtain ⟨g', hat, hchunks⟩ := hfirst
    obtain ⟨offsets, hoffsets, hrest⟩ := ih
    refine ⟨g' :: offsets, .cons hat hoffsets, ?_⟩
    rw [List.flatten_cons, ← List.singleton_append, List.filter_append]
    exact List.rel_append hchunks hrest

/-- The ranges of a body are read back by their offsets. -/
theorem reads_guards {q : Pool} {length : Nat} {chunks : List Bytes} {offsets : List (Guard Nat)}
    (h : List.Forall₂ (fun chunk g => ∀ length, g.start ≤ length → g.stop ≤ length →
      g.handler ≤ length → length ≤ 65535 → Reads (readGuard q length) chunk g) chunks offsets)
    (hbound : ∀ g ∈ offsets, ∀ o ∈ g.labels, o ≤ length) (hlength : length ≤ 65535)
    (hn : offsets.length ≤ 65535) :
    Reads (counted (readGuard q length)) (partTable chunks) offsets := by
  have hreads : List.Forall₂ (Reads (readGuard q length)) chunks offsets := by
    refine (forall₂_of_mem_left h.flip ?_).flip
    intro g hg chunk hchunk
    have hlabels := hbound g hg
    exact hchunk length (hlabels _ (by simp [Guard.labels])) (hlabels _ (by simp [Guard.labels]))
      (hlabels _ (by simp [Guard.labels])) hlength
  rw [partTable, h.length_eq]
  exact reads_counted hreads hn

/-! ### Line tables -/

/-- A part is a line table that can be read. -/
def IsLineTable (a : Attribute) : Prop :=
  a.name = lineTable ∧ ∃ lines, readLines.on a.data = .ok lines

/-- Reads where one source line begins. -/
def lineReader : Reader (Nat × UInt16) := do
  let offset ← u16
  return (offset.toNat, ← u16)

/-- The line markers are written as a table that can be read. -/
theorem yields_linePart {lines : List (Nat × UInt16)} (hn : lines.length ≤ 65535) :
    Yields base (linePart lines) fun chunks q => ∃ parts, List.Forall₂ (Carries q) chunks parts ∧
      parts.length = (if lines.isEmpty then 0 else 1) ∧ ∀ a ∈ parts, IsLineTable a := by
  rw [linePart]
  split
  · exact yields_pure fun q => ⟨[], .nil, rfl, by simp⟩
  · have heach : ∀ line ∈ lines, Yields base
        (pure (count16 line.1 ++ word16 line.2) : PoolM Bytes) fun bs _ =>
          Reads lineReader bs (line.1.toUInt16.toNat, line.2) := by
      intro line _
      refine yields_pure fun q => ?_
      exact (reads_u16 line.1.toUInt16).bind ((reads_u16 line.2).bind_pure
        (Prod.mk line.1.toUInt16.toNat))
    refine (yields_part (yields_countedBytes heach) lineTable).mono ?_
    rintro chunks q ⟨data, ⟨entries, rfl, hentries⟩, hchunks⟩
    refine ⟨_, hchunks, rfl, ?_⟩
    intro a ha
    rw [List.mem_singleton.1 ha]
    have hvalues : List.Forall₂ (Reads lineReader) entries
        (lines.map fun line => (line.1.toUInt16.toNat, line.2)) :=
      List.forall₂_map_right_iff.2 hentries.flip
    have hread := reads_counted hvalues (by rw [List.length_map]; exact hn)
    rw [List.length_map] at hread
    exact ⟨rfl, _, on_eq_ok_of_reads hread⟩

/-- Line tables that can be read tell where lines begin. -/
theorem exists_linesOf {tables others : List Attribute} (htables : ∀ a ∈ tables, IsLineTable a)
    (hothers : ∀ a ∈ others, a.name ≠ lineTable) :
    ∃ lines, linesOf (tables ++ others) = .ok lines := by
  have hfilter : (tables ++ others).filter (fun a => a.name == lineTable) = tables := by
    have hall : tables.filter (fun a => a.name == lineTable) = tables :=
      List.filter_eq_self.2 fun a ha => by simp [(htables a ha).1]
    have hnone : others.filter (fun a => a.name == lineTable) = [] :=
      List.filter_eq_nil_iff.2 fun a ha => by simpa using hothers a ha
    rw [List.filter_append, hall, hnone, List.append_nil]
  have hread : ∃ lists, tables.mapM (fun a => readLines.on a.data) = .ok lists := by
    clear hfilter
    induction tables with
    | nil => exact ⟨[], rfl⟩
    | cons a tables ih =>
      obtain ⟨list, hlist⟩ := (htables a List.mem_cons_self).2
      obtain ⟨lists, hlists⟩ := ih fun b hb => htables b (List.mem_cons_of_mem _ hb)
      exact ⟨list :: lists, mapM_eq_ok_iff.2 (.cons hlist (mapM_eq_ok_iff.1 hlists))⟩
  obtain ⟨lists, hlists⟩ := hread
  refine ⟨lists.flatten, ?_⟩
  rw [linesOf, hfilter]
  exact exceptBind_eq_ok_iff.2 ⟨lists, hlists, rfl⟩

/-! ### Whole bodies -/

/-- Parts of a body that are not carried along. -/
def bodyPartNames : List String :=
  lineTable :: droppedParts

/-- Whether an instruction marks a source line. -/
def isLine : Instruction Label → Bool
  | .line _ => true
  | _ => false

/-- How many line markers a body has. -/
def lineCount (b : Body) : Nat :=
  b.listing.instructions.countP isLine

/-- How many parts a body is written with: one for its lines, if it has any, and those that are
carried along. -/
def bodyPartCount (b : Body) : Nat :=
  min (lineCount b) 1 + b.attributes.length

/-- A body that can be written above a given pool. -/
structure BodyFits (base : Pool) (b : Body) : Prop where
  /-- The listing is well formed. -/
  listing : b.listing.WellFormed
  /-- Each instruction is legal, and the encoding it was read from does not mislead. -/
  legal : ∀ h ∈ b.listing.handles, Legal base (b.listing.rawForm? h) (b.listing.get h)
  /-- The count of the ranges has 16 bits. -/
  guards : b.guards.length ≤ 65535
  /-- The count of the line markers has 16 bits. -/
  lines : lineCount b ≤ 65535
  /-- The count of the parts has 16 bits. -/
  parts : bodyPartCount b ≤ 65535
  /-- The parts that are carried along are not those that a reader understands. -/
  names : ∀ a ∈ b.attributes, a.name ∉ bodyPartNames

/-- A body says the same as another one, without the ranges that protect nothing. -/
structure SameBody (b b' : Body) : Prop where
  /-- The stack grows as deep. -/
  maxStack : b'.maxStack = b.maxStack
  /-- As many local slots are used. -/
  maxLocals : b'.maxLocals = b.maxLocals
  /-- The same parts are carried along. -/
  attributes : b'.attributes = b.attributes
  /-- The real instructions are the same, and labels stand at the same places. -/
  outline : b'.listing.outline = b.listing.outline
  /-- The labels of instructions are linked. -/
  linked : ∀ insn ∈ b.listing.outline, ∀ place ∈ insn.mentioned, place.isSome
  /-- The ranges that protect something are the same. -/
  ranges : b'.ranges = b.ranges.filter Guard.covers

/-- The parts of an encoded body are read as a body. -/
theorem reads_readBody {q : Pool} {code guardBytes partBytes : Bytes} {offsets : List (Guard Nat)}
    {parts : List Attribute} {lines : List (Nat × UInt16)} {located : List Located}
    {listing : Listing} {guards : List (Guard Label)} (maxStack maxLocals : UInt16)
    (hlength : code.length ≤ 65535)
    (hguards : Reads (counted (readGuard q code.length)) guardBytes offsets)
    (hparts : Reads (readAttributes q) partBytes parts) (hlines : linesOf parts = .ok lines)
    (hlocated : readInstructions q code = .ok located)
    (hassemble : assemble code.length offsets lines located = .ok (listing, guards)) :
    Reads (readBody q) (word16 maxStack ++ word16 maxLocals ++ count32 code.length ++ code ++
      guardBytes ++ partBytes)
      ⟨listing, guards, maxStack, maxLocals, parts.filter fun part =>
        part.name != lineTable && !droppedParts.contains part.name⟩ := by
  have hnat : code.length.toUInt32.toNat = code.length := Nat.mod_eq_of_lt (by omega)
  simp only [List.append_assoc]
  refine (reads_u16 maxStack).bind ((reads_u16 maxLocals).bind
    ((reads_u32 code.length.toUInt32).bind ?_))
  rw [hnat]
  refine (reads_bytes rfl).bind (hguards.bind (hparts.bind_nil ?_))
  exact (reads_require hlines).bind_nil ((reads_require hlocated).bind_nil
    ((reads_require hassemble).bind_pure fun answer => (⟨answer.1, answer.2, maxStack, maxLocals,
      parts.filter fun part =>
        part.name != lineTable && !droppedParts.contains part.name⟩ : Body)))

/-- No more elements have an image than satisfy what all that have one do. -/
theorem length_filterMap_le_countP {α β : Type} {f : α → Option β} {p : α → Bool}
    (h : ∀ a, (f a).isSome → p a = true) (xs : List α) :
    (xs.filterMap f).length ≤ xs.countP p := by
  induction xs with
  | nil => exact Nat.le_refl _
  | cons a xs ih =>
    rw [List.filterMap_cons, List.countP_cons]
    cases hf : f a with
    | none => exact Nat.le_add_right_of_le ih
    | some b =>
      have hp := h a (by rw [hf]; rfl)
      rw [hp]
      exact Nat.succ_le_succ ih

/-- Not more lines are written than there are markers. -/
theorem length_markedLines_le (l : Layout) (b : Body) :
    (markedLines l b.listing).length ≤ lineCount b := by
  have hfst : b.listing.instructions.zipIdx.map (·.1) = b.listing.instructions :=
    List.zipIdx_map_fst _ _
  have hcount : lineCount b = b.listing.instructions.zipIdx.countP fun p => isLine p.1 := by
    rw [lineCount]
    conv_lhs => rw [← hfst]
    rw [List.countP_map]
    rfl
  rw [hcount]
  refine length_filterMap_le_countP ?_ _
  rintro ⟨insn, position⟩ hp
  cases insn with
  | line n => rfl
  | _ => cases hp

/-- A label with an offset stands at the start of an instruction or at the end. -/
theorem offset_mem_or_eq_end {q : Pool} {l : Listing} {forms : List Form} (wf : l.WellFormed)
    (hencodes : List.Forall₂ (Encodes q) l.instructions forms) {located : List Located}
    (hstarts : located.map (·.offset) = realStarts l.instructions (startsFrom 0 forms))
    {label : Label} {o : Nat} (ho : (Layout.of l.positions forms).offsetOf label = .ok o) :
    o ≤ endFrom 0 forms ∧ (o ∈ located.map (·.offset) ∨ o = endFrom 0 forms) := by
  rw [hstarts]
  exact ⟨Layout.offsetOf_of_eq_ok ho, (place?_of_offsetOf wf hencodes ho).2⟩

/-- Renaming labels renames those that an instruction mentions. -/
theorem mentioned_map {L M : Type} (f : L → M) (insn : Instruction L) :
    (insn.map f).mentioned = insn.mentioned.map f := by
  cases insn <;> simp [Instruction.map, Instruction.mentioned]

/-- The labels of instructions that are read are offsets of labels. -/
theorem mentioned_of_spelled {offsetOf : Label → Except Malformation Nat}
    {insns : List (Instruction Label)} {starts : List Nat} {located : List Located}
    (hoffsets : ∀ insn ∈ insns, ∀ t ∈ insn.mentioned, ∃ o, offsetOf t = .ok o)
    (hspelled : located.map (fun i => (i.offset, i.insn)) =
      spelled (offsetOr offsetOf) insns starts) :
    ∀ i ∈ located, ∀ o ∈ i.insn.mentioned, ∃ label, offsetOf label = .ok o := by
  intro i hi o ho
  have hmem : (i.offset, i.insn) ∈ spelled (offsetOr offsetOf) insns starts := by
    rw [← hspelled]
    exact List.mem_map_of_mem hi
  obtain ⟨p, hp, heq⟩ := List.mem_map.1 hmem
  have hinsn : p.1.map (offsetOr offsetOf) = i.insn := congrArg Prod.snd heq
  rw [← hinsn, mentioned_map] at ho
  obtain ⟨t, ht, rfl⟩ := List.mem_map.1 ho
  obtain ⟨o, ho⟩ := hoffsets p.1 (List.of_mem_zip (List.mem_of_mem_filter hp)).1 t ht
  exact ⟨t, by rw [offsetOr_eq ho]; exact ho⟩

/-- A range by its offsets protects something if it does by its places. -/
theorem covers_iff {q : Pool} {l : Listing} {forms : List Form} (wf : l.WellFormed)
    (hencodes : List.Forall₂ (Encodes q) l.instructions forms) {g : Guard Label} {g' : Guard Nat}
    (h : GuardAt (Layout.of l.positions forms).offsetOf g g') :
    (g.map l.place?).covers = decide (g'.start < g'.stop) := by
  obtain ⟨hstart, hstop, -, -⟩ := h
  obtain ⟨hplace, hmem⟩ := place?_of_offsetOf wf hencodes hstart
  obtain ⟨hplace', hmem'⟩ := place?_of_offsetOf wf hencodes hstop
  have hbounds := fun o ho => ((@realStarts_sorted q _ forms 0 hencodes).2 o ho).2
  have hiff := countP_lt_iff hbounds hmem hmem'
  rw [Guard.covers, Guard.map, hplace, hplace']
  exact decide_eq_decide.2 hiff

/-- The ranges that are read are those that protected something. -/
theorem ranges_of_assembled {q : Pool} {l listing : Listing} {forms : List Form}
    (wf : l.WellFormed) (hencodes : List.Forall₂ (Encodes q) l.instructions forms)
    {located : List Located} {label? : Nat → Option Label} {placed : List (Nat × Handle)}
    (hstarts : located.map (·.offset) = realStarts l.instructions (startsFrom 0 forms))
    (hordered : Ordered (endFrom 0 forms) located)
    (hassembled : Assembled (endFrom 0 forms) located listing label? placed)
    {guards : List (Guard Label)} {offsets : List (Guard Nat)}
    (hguards : List.Forall₂ (GuardAt (Layout.of l.positions forms).offsetOf) guards offsets)
    (hsome : ∀ o ∈ (offsets.filter fun g => g.start < g.stop).flatMap Guard.labels,
      (label? o).isSome) :
    ((offsets.filter fun g => g.start < g.stop).map (Guard.map (labelOr label?))).map
        (Guard.map listing.place?) =
      (guards.map (Guard.map l.place?)).filter Guard.covers := by
  -- A label that was made for the offset of a label stands at the same place.
  have hlabel : ∀ label o, (Layout.of l.positions forms).offsetOf label = .ok o →
      (label? o).isSome → listing.place? (labelOr label? o) = l.place? label := by
    intro label o ho hsome
    obtain ⟨k, hk⟩ := Option.isSome_iff_exists.1 hsome
    rw [labelOr, hk, Option.getD_some, hassembled.place?_label hordered hk, hstarts,
      (place?_of_offsetOf wf hencodes ho).1]
  induction hguards with
  | nil => rfl
  | @cons g g' guards offsets hfirst hrest ih =>
    have hcovers := covers_iff wf hencodes hfirst
    rw [List.map_cons]
    by_cases hlt : g'.start < g'.stop
    · rw [List.filter_cons_of_pos (by simpa using hlt)] at hsome ⊢
      rw [List.filter_cons_of_pos (by rw [hcovers]; simpa using hlt), List.map_cons, List.map_cons,
        ih fun o ho => hsome o (by rw [List.flatMap_cons]; exact List.mem_append_right _ ho)]
      have hin : ∀ o ∈ g'.labels, (label? o).isSome := fun o ho =>
        hsome o (by rw [List.flatMap_cons]; exact List.mem_append_left _ ho)
      obtain ⟨hstart, hstop, hhandler, hcatches⟩ := hfirst
      congr 1
      simp only [Guard.map, hlabel _ _ hstart (hin _ (by simp [Guard.labels])),
        hlabel _ _ hstop (hin _ (by simp [Guard.labels])),
        hlabel _ _ hhandler (hin _ (by simp [Guard.labels])), hcatches]
    · rw [List.filter_cons_of_neg (by simpa using hlt)] at hsome ⊢
      rw [List.filter_cons_of_neg (by rw [hcovers]; simpa using hlt), ih hsome]

/-- The bytes of a settled layout are read and assembled to a listing with the same outline. -/
theorem exists_assemble {q : Pool} {l : Listing} {forms : List Form} {code : Bytes}
    (wf : l.WellFormed) (hencodes : List.Forall₂ (Encodes q) l.instructions forms)
    (hnear : NearJumps (Layout.of l.positions forms).offsetOf
      (Layout.of l.positions forms).located)
    (hcode : (Layout.of l.positions forms).bytes = .ok code) (hlength : endFrom 0 forms ≤ 65535)
    {guards : List (Guard Label)} {offsets : List (Guard Nat)}
    (hguards : List.Forall₂ (GuardAt (Layout.of l.positions forms).offsetOf) guards offsets)
    (lines : List (Nat × UInt16)) :
    code.length = endFrom 0 forms ∧ ∃ located listing guards',
      readInstructions q code = .ok located ∧
      assemble code.length (offsets.filter fun g => g.start < g.stop) lines located =
        .ok (listing, guards') ∧
      listing.outline = l.outline ∧
      (∀ insn ∈ l.outline, ∀ place ∈ insn.mentioned, place.isSome) ∧
      guards'.map (Guard.map listing.place?) =
        (guards.map (Guard.map l.place?)).filter Guard.covers := by
  obtain ⟨hend, located, hlocated, hspelled⟩ :=
    readInstructions_bytes hencodes hnear hcode hlength
  obtain ⟨hstarts, hordered⟩ := ordered_of_spelled hencodes hspelled
  obtain ⟨chunks, -, hchunks⟩ := bytes_of_eq_ok hcode
  have hoffsets := exists_offset_of_chunks hencodes hchunks
  -- Labels and ranges mention only starts of instructions or the end of the code, so assembling
  -- cannot fail.
  have hmentioned : ∀ i ∈ located, ∀ t ∈ i.insn.mentioned,
      t ≤ endFrom 0 forms ∧ (t ∈ located.map (·.offset) ∨ t = endFrom 0 forms) := by
    intro i hi t ht
    obtain ⟨label, hlabel⟩ := mentioned_of_spelled hoffsets hspelled i hi t ht
    exact offset_mem_or_eq_end wf hencodes hstarts hlabel
  have hranges : ∀ o ∈ (offsets.filter fun g => g.start < g.stop).flatMap Guard.labels,
      o ≤ endFrom 0 forms ∧ (o ∈ located.map (·.offset) ∨ o = endFrom 0 forms) := by
    intro o ho
    obtain ⟨g', hg', ho⟩ := List.mem_flatMap.1 ho
    obtain ⟨g, -, hstart, hstop, hhandler, -⟩ :=
      exists_of_mem_right hguards (List.mem_of_mem_filter hg')
    simp only [Guard.labels, List.mem_cons, List.not_mem_nil, or_false] at ho
    rcases ho with rfl | rfl | rfl
    · exact offset_mem_or_eq_end wf hencodes hstarts hstart
    · exact offset_mem_or_eq_end wf hencodes hstarts hstop
    · exact offset_mem_or_eq_end wf hencodes hstarts hhandler
  obtain ⟨listing, guards', hassemble⟩ := assemble_isOk lines hranges hmentioned
  obtain ⟨label?, placed, hassembled, rfl, hsome⟩ := assembled_of_assemble
    (fun o ho => (hranges o ho).1) (fun i hi t ht => (hmentioned i hi t ht).1) hassemble
  refine ⟨hend, located, listing, _, hlocated, by rw [hend]; exact hassemble, ?_, ?_, ?_⟩
  · exact outline_of_spelled wf hencodes hoffsets hspelled hassembled
  -- No place is missing in the outline, since an instruction mentions labels that have an offset.
  · intro insn hinsn place hplace
    rw [Listing.outline_eq] at hinsn
    obtain ⟨insn', hinsn', rfl⟩ := List.mem_map.1 hinsn
    rw [mentioned_map] at hplace
    obtain ⟨t, ht, rfl⟩ := List.mem_map.1 hplace
    obtain ⟨o, ho⟩ := hoffsets insn' (List.mem_of_mem_filter hinsn') t ht
    rw [(place?_of_offsetOf wf hencodes ho).1]
    rfl
  · exact ranges_of_assembled wf hencodes hstarts hordered hassembled hguards hsome

/-- The forms of all instructions spell them. -/
theorem yields_forms {b : Body} (h : BodyFits base b) :
    Yields base
      (b.listing.handles.mapM fun h => Form.choose (b.listing.get h) (b.listing.rawForm? h))
      fun forms q => List.Forall₂ (Encodes q) b.listing.instructions forms := by
  refine (yields_mapM fun k hk => yields_choose (h.legal k hk)).mono ?_
  intro forms q hforms
  rw [Listing.instructions, List.forall₂_map_left_iff]
  exact hforms

/-- Wider forms encode the same instructions. -/
theorem forall₂_encodes_widened {q : Pool} {insns : List (Instruction Label)}
    {forms forms' : List Form} (h : List.Forall₂ (Encodes q) insns forms)
    (hwidened : List.Forall₂ Widened forms forms') : List.Forall₂ (Encodes q) insns forms' := by
  induction h generalizing forms' with
  | nil =>
    cases hwidened
    exact .nil
  | cons hfirst _ ih =>
    obtain ⟨form', rest, hform', hrest, rfl⟩ := List.forall₂_cons_left_iff.1 hwidened
    exact .cons (hfirst.widened hform') (ih hrest)

/-- The offsets of ranges do not lie behind the end. -/
theorem guardAt_le {positions : Array (Option Nat)} {forms : List Form}
    {guards : List (Guard Label)} {offsets : List (Guard Nat)}
    (h : List.Forall₂ (GuardAt (Layout.of positions forms).offsetOf) guards offsets) :
    ∀ g ∈ offsets, ∀ o ∈ g.labels, o ≤ endFrom 0 forms := by
  intro g' hg' o ho
  obtain ⟨g, -, hstart, hstop, hhandler, -⟩ := exists_of_mem_right h hg'
  simp only [Guard.labels, List.mem_cons, List.not_mem_nil, or_false] at ho
  rcases ho with rfl | rfl | rfl
  · exact Layout.offsetOf_of_eq_ok hstart
  · exact Layout.offsetOf_of_eq_ok hstop
  · exact Layout.offsetOf_of_eq_ok hhandler

/-- The parts that are written are not too many. -/
theorem length_parts_le {b : Body} (h : BodyFits base b) {l : Layout} {tables : List Attribute}
    (hcount : tables.length = if (markedLines l b.listing).isEmpty then 0 else 1) :
    (tables ++ b.attributes).length ≤ 65535 := by
  have hparts := h.parts
  have hle := length_markedLines_le l b
  rw [bodyPartCount] at hparts
  rw [List.length_append, hcount]
  split
  · omega
  · next hne =>
    have hpos : 0 < (markedLines l b.listing).length := by
      rw [List.length_pos_iff]
      simpa using hne
    omega

/-- The parts that are read as parts of the body are those that were carried along. -/
theorem filter_parts {tables others : List Attribute} (htables : ∀ a ∈ tables, IsLineTable a)
    (hothers : ∀ a ∈ others, a.name ∉ bodyPartNames) :
    (tables ++ others).filter (fun part =>
      part.name != lineTable && !droppedParts.contains part.name) = others := by
  rw [List.filter_append, List.filter_eq_nil_iff.2, List.nil_append, List.filter_eq_self]
  · intro a ha
    have hname := hothers a ha
    rw [bodyPartNames, List.mem_cons, not_or] at hname
    simpa using hname
  · intro a ha
    simp [(htables a ha).1]

/-- A body is read back. -/
theorem writes_bodyBytes {b : Body} (h : BodyFits base b) (method : String) :
    Writes base (bodyBytes method b) readBody (SameBody b) := by
  refine (yields_forms h).bind fun forms => yields_settled.bind fun l => ?_
  by_cases hlarge : 65535 < l.length
  · rw [if_pos hlarge]
    exact yields_throw
  · rw [if_neg hlarge]
    refine yields_settled.bind fun code => ?_
    refine (yields_mapM fun g _ => yields_guardBytes l g).bind fun lists => ?_
    have hlines := Nat.le_trans (length_markedLines_le l b) h.lines
    refine (yields_linePart hlines).bind fun lineChunks => ?_
    refine (yields_carriedParts b.attributes).bind_pure ?_
    -- What the steps of the writer yield comes back in reverse, the last step first.
    rintro carried q hcarried ⟨tables, htables, hcount, hreadable⟩ hlists hcode hsettle hforms hshort
    obtain ⟨forms', rfl, hwidened, hnear⟩ := settle_eq_ok hsettle
    obtain ⟨offsets, hoffsets, hguards⟩ := exists_offsets_of_guardWritten hlists
    have hencodes := forall₂_encodes_widened hforms hwidened
    have hlength : endFrom 0 forms' ≤ 65535 := by
      rw [Layout.length_of] at hlarge
      omega
    -- The numbers of lines are among the parts that are carried over, whatever other parts there
    -- are.
    obtain ⟨allLines, hallLines⟩ := exists_linesOf hreadable fun a ha hname =>
      h.names a ha (hname ▸ List.mem_cons_self)
    obtain ⟨hend, located, listing, guards', hlocated, hassemble, houtline, hlinked, hranges⟩ :=
      exists_assemble h.listing hencodes hnear hcode hlength hoffsets allLines
    have hbound : ∀ g ∈ offsets.filter (fun g => g.start < g.stop), ∀ o ∈ g.labels,
        o ≤ code.length := by
      intro g hg o ho
      rw [hend]
      exact guardAt_le hoffsets g (List.mem_of_mem_filter hg) o ho
    have hguardCount : (offsets.filter fun g => g.start < g.stop).length ≤ 65535 := by
      have hle := List.length_filter_le (fun g : Guard Nat => g.start < g.stop) offsets
      have hguardCount := h.guards
      have hsame := hoffsets.length_eq
      omega
    have hreadGuards := reads_guards hguards hbound (by omega) hguardCount
    have hreadParts := reads_partTable (List.rel_append htables hcarried)
      (length_parts_le h hcount) hshort.right
    refine ⟨_, ?_, reads_readBody b.maxStack b.maxLocals (by omega) hreadGuards hreadParts hallLines
      hlocated hassemble⟩
    exact ⟨rfl, rfl, filter_parts hreadable h.names, houtline, hlinked, hranges⟩

end Unscramble.Binary
