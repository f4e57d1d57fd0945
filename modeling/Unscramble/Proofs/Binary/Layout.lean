import Unscramble.Binary.Layout
import Unscramble.Proofs.Binary.Form

/-! # Laid out instructions are read back

Where a form stands is the sum of the sizes in front of it. In a layout that is settled every
displacement fits, so what a form spells at its offset is read as the instruction, with offsets in
place of labels.

Main definitions: `offsetOr`, `startsFrom`. Main statements: `Encodes.reads`,
`settle_eq_ok`, `readInstructions_bytes`. -/

namespace Unscramble.Binary

open Reader

/-! ### Displacements -/

section Displacement

variable {offsetOf : Label → Except Malformation Nat} {length start : Nat}

/-- The offset of a label, 0 if it has none. -/
def offsetOr (offsetOf : Label → Except Malformation Nat) (label : Label) : Nat :=
  match offsetOf label with
  | .ok offset => offset
  | .error _ => 0

/-- The offset of a label that has one. -/
theorem offsetOr_eq {label : Label} {offset : Nat} (h : offsetOf label = .ok offset) :
    offsetOr offsetOf label = offset := by
  rw [offsetOr, h]

/-- A displacement is written for a label that has an offset, as the way to there. -/
theorem displacement_eq_ok_iff {label : Label} {bs : Bytes} :
    Form.displacement offsetOf start label = .ok bs ↔
      ∃ offset : Nat, offsetOf label = .ok offset ∧ bs = signed32 (offset - (start : Int)) := by
  rw [Form.displacement, exceptBind_eq_ok_iff]
  constructor
  · rintro ⟨offset, hoffset, h⟩
    cases h
    exact ⟨offset, hoffset, rfl⟩
  · rintro ⟨offset, hoffset, rfl⟩
    exact ⟨offset, hoffset, rfl⟩

/-- An offset inside a body is taken as it is. -/
theorem reads_target {offset : Nat} (h : offset ≤ length) :
    Reads (target length offset) [] offset := by
  have hinside : 0 ≤ (offset : Int) ∧ (offset : Int) ≤ length := by omega
  rw [target, if_pos hinside]
  exact reads_pure offset

/-- A 32-bit displacement in a body that is not too large leads to its target. -/
theorem reads_farTarget {offset : Nat} (hoffset : offset ≤ length) (hstart : start ≤ length)
    (hlength : length ≤ 65535) :
    Reads (farTarget length start) (signed32 (offset - (start : Int))) offset := by
  have hvalue : (Int32.ofInt (offset - (start : Int))).toInt = offset - (start : Int) :=
    Int32.toInt_ofInt_of_le (by omega) (by omega)
  have hsum : (start : Int) + (Int32.ofInt (offset - (start : Int))).toInt = offset := by
    rw [hvalue]
    omega
  refine (reads_i32 (Int32.ofInt (offset - (start : Int)))).bind_nil ?_
  rw [hsum]
  exact reads_target hoffset

/-- A signed number of 32 bits is written as the number with its bits. -/
theorem signed32_toInt (n : Int32) : signed32 n.toInt = word32 n.toUInt32 := by
  rw [signed32, Int32.ofInt_toInt]

/-- Every displacement of a list leads to its target. -/
theorem forall₂_reads_farTarget {labels : List Label} {chunks : List Bytes}
    (h : labels.mapM (Form.displacement offsetOf start) = .ok chunks)
    (hbound : ∀ label offset, offsetOf label = .ok offset → offset ≤ length)
    (hstart : start ≤ length) (hlength : length ≤ 65535) :
    List.Forall₂ (Reads (farTarget length start)) chunks (labels.map (offsetOr offsetOf)) := by
  rw [List.forall₂_map_right_iff]
  refine (mapM_eq_ok_iff.1 h).flip.imp ?_
  intro bs label hlabel
  obtain ⟨offset, hoffset, rfl⟩ := displacement_eq_ok_iff.1 hlabel
  rw [offsetOr_eq hoffset]
  exact reads_farTarget (hbound label offset hoffset) hstart hlength

/-! ### Forms at an offset -/

/-- A jump of 16 bits is read back if its displacement fits. -/
theorem reads_narrow {q : Pool} {op : Opcode} {offset : Nat} (hop : leads op = true)
    (hnear : isNear (offset - (start : Int)) = true) (hoffset : offset ≤ length) :
    Reads (readInstruction q length start) (op.byte :: signed16 (offset - (start : Int)))
      (.jump op offset, ⟨op, false, none⟩) := by
  obtain ⟨hwide, hpool, hplain, hbipush, hsipush, hnewarray, htakes, hload, hstore, hiinc⟩ :=
    (operandFacts op).jump hop
  rw [takesSlot] at htakes
  have hjump : (op.isConditional || op == .goto || op == .jsr) = true := hop
  have hbounds : -32768 ≤ offset - (start : Int) ∧ offset - (start : Int) ≤ 32767 := by
    simpa [isNear] using hnear
  have hvalue : (Int16.ofInt (offset - (start : Int))).toInt = offset - (start : Int) :=
    Int16.toInt_ofInt_of_le (by omega) (by omega)
  have hsum : (start : Int) + (Int16.ofInt (offset - (start : Int))).toInt = offset := by
    rw [hvalue]
    omega
  refine reads_of_operands op hwide hpool ?_
  simp only [readOperands, hplain, hbipush, hsipush, hnewarray, htakes, hload, hstore, hiinc,
    hjump, Bool.false_eq_true, if_false, if_true]
  refine (reads_i16 (Int16.ofInt (offset - (start : Int)))).bind_nil ?_
  rw [hsum]
  exact (reads_target hoffset).bind_pure (Instruction.jump op)

/-- A jump of 32 bits is read back. -/
theorem reads_far {q : Pool} {op : Opcode} {offset : Nat} (hop : op = .goto ∨ op = .jsr)
    (hoffset : offset ≤ length) (hstart : start ≤ length) (hlength : length ≤ 65535) :
    ∃ raw, Reads (readInstruction q length start)
      ((if op == .goto then Opcode.gotoW else Opcode.jsrW).byte ::
        signed32 (offset - (start : Int))) (.jump op offset, raw) := by
  have hfar := reads_farTarget hoffset hstart hlength
  rcases hop with rfl | rfl
  · exact ⟨_, reads_of_operands .gotoW rfl rfl (hfar.bind_pure (Instruction.jump .goto))⟩
  · exact ⟨_, reads_of_operands .jsrW rfl rfl (hfar.bind_pure (Instruction.jump .jsr))⟩

/-- A table switch is read back. -/
theorem reads_table {q : Pool} {low high : Int32} {otherwise : Nat} {targets : List Nat}
    {chunks : List Bytes} (hcount : (targets.length : Int) = high.toInt - low.toInt + 1)
    (hle : low ≤ high)
    (hfirst : Reads (farTarget length start) (signed32 (otherwise - (start : Int))) otherwise)
    (hrest : List.Forall₂ (Reads (farTarget length start)) chunks targets) :
    Reads (readInstruction q length start)
      (Form.switchHead .tableswitch start ++ signed32 (otherwise - (start : Int)) ++
        signed32 low.toInt ++ signed32 high.toInt ++ chunks.flatten)
      (.tableSwitch low high otherwise targets, ⟨.tableswitch, false, none⟩) := by
  have hmany : (high.toInt - low.toInt + 1).toNat = targets.length := by omega
  have hbounds : ¬high < low := Int32.not_lt.2 hle
  simp only [List.append_assoc, signed32_toInt]
  refine reads_of_operands .tableswitch rfl rfl ?_
  refine (reads_bytes (List.length_replicate)).bind ?_
  refine hfirst.bind ((reads_i32 low).bind ((reads_i32 high).bind ?_))
  rw [if_neg hbounds, hmany]
  exact (reads_many hrest).bind_pure (Instruction.tableSwitch low high otherwise)

/-- A lookup switch is read back. -/
theorem reads_lookup {q : Pool} {otherwise : Nat} {keyed : List (Int32 × Nat)}
    {chunks : List Bytes} (hcount : keyed.length ≤ 65535)
    (hfirst : Reads (farTarget length start) (signed32 (otherwise - (start : Int))) otherwise)
    (hrest : List.Forall₂ (Reads (do
      let key ← i32
      return (key, ← farTarget length start))) chunks keyed) :
    Reads (readInstruction q length start)
      (Form.switchHead .lookupswitch start ++ signed32 (otherwise - (start : Int)) ++
        count32 keyed.length ++ chunks.flatten)
      (.lookupSwitch otherwise keyed, ⟨.lookupswitch, false, none⟩) := by
  -- The count is read as a signed number; below the limit it is the number that was written.
  have hvalue : keyed.length.toUInt32.toInt32.toInt = keyed.length := by
    have hbmod : keyed.length.toUInt32.toInt32.toInt =
        (keyed.length.toUInt32.toNat : Int).bmod (2 ^ 32) := BitVec.toInt_eq_toNat_bmod _
    have hnat : keyed.length.toUInt32.toNat = keyed.length := Nat.mod_eq_of_lt (by omega)
    rw [hnat, Int.bmod_def] at hbmod
    omega
  have hsign : ¬keyed.length.toUInt32.toInt32 < 0 := by
    rw [Int32.lt_iff_toInt_lt, hvalue]
    exact not_lt.2 (Int.natCast_nonneg _)
  simp only [List.append_assoc]
  refine reads_of_operands .lookupswitch rfl rfl ?_
  refine (reads_bytes (List.length_replicate)).bind ?_
  refine hfirst.bind ((reads_i32 keyed.length.toUInt32.toInt32).bind ?_)
  rw [if_neg hsign, hvalue, Int.toNat_natCast]
  exact (reads_many hrest).bind_pure (Instruction.lookupSwitch otherwise)

/-- Chunks of one length. -/
theorem length_flatten_of_forall₂ {α : Type} {items : List α} {chunks : List Bytes} {n : Nat}
    (h : List.Forall₂ (fun _ bs => bs.length = n) items chunks) :
    chunks.flatten.length = n * items.length := by
  induction h with
  | nil => rfl
  | cons hfirst _ ih =>
    rw [List.flatten_cons, List.length_append, hfirst, ih, List.length_cons, Nat.mul_succ,
      Nat.add_comm]

/-- A form spells as many bytes as its size. -/
theorem length_bytes {form : Form} {chunk : Bytes} (h : form.bytes offsetOf start = .ok chunk) :
    chunk.length = form.size start := by
  cases form with
  | fixed bs =>
    cases h
    rfl
  | jump op target wide =>
    cases wide with
    | false =>
      obtain ⟨offset, -, h⟩ := exceptBind_eq_ok_iff.1 h
      cases h
      simp [Form.size]
    | true =>
      obtain ⟨bs, hbs, h⟩ := exceptBind_eq_ok_iff.1 h
      obtain ⟨offset, -, rfl⟩ := displacement_eq_ok_iff.1 hbs
      cases h
      simp [Form.size]
  | table low high otherwise targets =>
    obtain ⟨bs, hbs, h⟩ := exceptBind_eq_ok_iff.1 h
    obtain ⟨offset, -, rfl⟩ := displacement_eq_ok_iff.1 hbs
    obtain ⟨chunks, hchunks, h⟩ := exceptBind_eq_ok_iff.1 h
    cases h
    have hrest : List.Forall₂ (fun _ bs => bs.length = 4) targets chunks := by
      refine (mapM_eq_ok_iff.1 hchunks).imp ?_
      intro label bs hlabel
      obtain ⟨offset, -, rfl⟩ := displacement_eq_ok_iff.1 hlabel
      exact length_signed32 _
    simp [Form.size, Form.switchHead, length_flatten_of_forall₂ hrest]
    omega
  | lookup otherwise keyed =>
    obtain ⟨bs, hbs, h⟩ := exceptBind_eq_ok_iff.1 h
    obtain ⟨offset, -, rfl⟩ := displacement_eq_ok_iff.1 hbs
    obtain ⟨chunks, hchunks, h⟩ := exceptBind_eq_ok_iff.1 h
    cases h
    have hrest : List.Forall₂ (fun _ bs => bs.length = 8) keyed chunks := by
      refine (mapM_eq_ok_iff.1 hchunks).imp ?_
      intro c bs hc
      obtain ⟨word, hword, hc⟩ := exceptBind_eq_ok_iff.1 hc
      obtain ⟨offset, -, rfl⟩ := displacement_eq_ok_iff.1 hword
      cases hc
      simp
    simp [Form.size, Form.switchHead, length_flatten_of_forall₂ hrest]
    omega

/-- What a form spells at its offset is read as the instruction. -/
theorem Encodes.reads {q : Pool} {insn : Instruction Label} {form : Form} (h : Encodes q insn form)
    (hreal : insn.isReal = true) {chunk : Bytes} (hchunk : form.bytes offsetOf start = .ok chunk)
    (hnear : ∀ op target offset, form = .jump op target false → offsetOf target = .ok offset →
      isNear (offset - (start : Int)) = true)
    (hbound : ∀ label offset, offsetOf label = .ok offset → offset ≤ length)
    (hend : start + chunk.length ≤ length) (hlength : length ≤ 65535) :
    ∃ raw, Reads (readInstruction q length start) chunk (insn.map (offsetOr offsetOf), raw) := by
  have hstart : start ≤ length := by omega
  have hsize := length_bytes hchunk
  -- The bytes tell which offsets were found, and each kind of form has its reader; markers have no
  -- bytes to read.
  cases h with
  | marker hmarker =>
    rw [hmarker] at hreal
    cases hreal
  | fixed _ _ hfixed =>
    cases hchunk
    exact hfixed (offsetOr offsetOf) length start
  | @jump op target wide hop hwide =>
    cases wide with
    | false =>
      obtain ⟨offset, hoffset, hbytes⟩ := exceptBind_eq_ok_iff.1 hchunk
      cases hbytes
      rw [Instruction.map, offsetOr_eq hoffset]
      exact ⟨_, reads_narrow hop (hnear op target offset rfl hoffset)
        (hbound target offset hoffset)⟩
    | true =>
      obtain ⟨bs, hbs, hbytes⟩ := exceptBind_eq_ok_iff.1 hchunk
      obtain ⟨offset, hoffset, rfl⟩ := displacement_eq_ok_iff.1 hbs
      cases hbytes
      rw [Instruction.map, offsetOr_eq hoffset]
      exact reads_far (hwide rfl) (hbound target offset hoffset) hstart hlength
  | @table low high otherwise targets hcount hle =>
    obtain ⟨bs, hbs, hbytes⟩ := exceptBind_eq_ok_iff.1 hchunk
    obtain ⟨offset, hoffset, rfl⟩ := displacement_eq_ok_iff.1 hbs
    obtain ⟨chunks, hchunks, hbytes⟩ := exceptBind_eq_ok_iff.1 hbytes
    cases hbytes
    rw [Instruction.map, offsetOr_eq hoffset]
    refine ⟨_, reads_table (by rw [List.length_map]; exact hcount) hle ?_ ?_⟩
    · exact reads_farTarget (hbound otherwise offset hoffset) hstart hlength
    · exact forall₂_reads_farTarget hchunks hbound hstart hlength
  -- The cases are pairs of a key and a target, so their reader is put together here.
  | lookup otherwise keyed =>
    obtain ⟨bs, hbs, hbytes⟩ := exceptBind_eq_ok_iff.1 hchunk
    obtain ⟨offset, hoffset, rfl⟩ := displacement_eq_ok_iff.1 hbs
    obtain ⟨chunks, hchunks, hbytes⟩ := exceptBind_eq_ok_iff.1 hbytes
    cases hbytes
    rw [Instruction.map, offsetOr_eq hoffset]
    have hkeyed : List.Forall₂ (Reads (do
        let key ← i32
        return (key, ← farTarget length start))) chunks
        (keyed.map fun c => (c.1, offsetOr offsetOf c.2)) := by
      rw [List.forall₂_map_right_iff]
      refine (mapM_eq_ok_iff.1 hchunks).flip.imp ?_
      intro bs c hc
      obtain ⟨word, hword, hc⟩ := exceptBind_eq_ok_iff.1 hc
      obtain ⟨offset, hoffset, rfl⟩ := displacement_eq_ok_iff.1 hword
      cases hc
      rw [offsetOr_eq hoffset, signed32_toInt]
      exact (reads_i32 c.1).bind
        ((reads_farTarget (hbound c.2 offset hoffset) hstart hlength).bind_pure (Prod.mk c.1))
    have hfirst := reads_farTarget (hbound otherwise offset hoffset) hstart hlength
    have hcount : keyed.length ≤ 65535 := by
      rw [Form.size] at hsize
      omega
    have hread := reads_lookup (q := q) (by rw [List.length_map]; exact hcount) hfirst hkeyed
    rw [List.length_map] at hread
    exact ⟨_, hread⟩

end Displacement

/-! ### Offsets -/

/-- The offset of each form from `start` on. -/
def startsFrom (start : Nat) : List Form → List Nat
  | [] => []
  | form :: rest => start :: startsFrom (start + form.size start) rest

/-- The offset behind the last form. -/
def endFrom (start : Nat) : List Form → Nat
  | [] => start
  | form :: rest => endFrom (start + form.size start) rest

/-- Offsets are those where the forms start, behind those found before, and the one where they end.
-/
theorem offsetsFrom_eq (start : Nat) (done : List Nat) (forms : List Form) :
    offsetsFrom start done forms =
      done.reverse ++ (startsFrom start forms ++ [endFrom start forms]) := by
  induction forms generalizing start done with
  | nil => simp [offsetsFrom, startsFrom, endFrom]
  | cons form rest ih => simp [offsetsFrom, startsFrom, endFrom, ih]

/-- The offsets of forms are those where they start and the one where they end. -/
theorem offsets_eq (forms : List Form) : offsets forms = startsFrom 0 forms ++ [endFrom 0 forms] :=
  offsetsFrom_eq 0 [] forms

/-- Each form starts somewhere. -/
@[simp] theorem length_startsFrom (start : Nat) (forms : List Form) :
    (startsFrom start forms).length = forms.length := by
  induction forms generalizing start with
  | nil => rfl
  | cons form rest ih => rw [startsFrom, List.length_cons, List.length_cons, ih]

/-- Forms end where they start, or behind. -/
theorem le_endFrom (start : Nat) (forms : List Form) : start ≤ endFrom start forms := by
  induction forms generalizing start with
  | nil => exact Nat.le_refl start
  | cons form rest ih => exact Nat.le_trans (Nat.le_add_right _ _) (ih _)

/-- Offsets do not decrease, and none lies behind the end. -/
theorem mem_startsFrom {start offset : Nat} {forms : List Form}
    (h : offset ∈ startsFrom start forms) : start ≤ offset ∧ offset ≤ endFrom start forms := by
  induction forms generalizing start with
  | nil => cases h
  | cons form rest ih =>
    rcases List.mem_cons.1 h with rfl | h
    · exact ⟨Nat.le_refl _, le_endFrom _ (form :: rest)⟩
    · obtain ⟨hlow, hhigh⟩ := ih h
      exact ⟨Nat.le_trans (Nat.le_add_right _ _) hlow, hhigh⟩

namespace Layout

variable {positions : Array (Option Nat)} {forms : List Form} {method : String}

/-- A layout is as long as its forms take. -/
theorem length_of : (Layout.of positions forms).length = endFrom 0 forms := by
  rw [Layout.length, Layout.of, offsets_eq]
  simp

/-- The forms of a layout stand where they start. -/
theorem located_of : (Layout.of positions forms).located = forms.zip (startsFrom 0 forms) := by
  rw [Layout.located, Layout.of, offsets_eq, List.toList_toArray]
  have hlength : forms.length = (startsFrom 0 forms).length := (length_startsFrom 0 forms).symm
  have hzip : (forms ++ []).zip (startsFrom 0 forms ++ [endFrom 0 forms]) =
      forms.zip (startsFrom 0 forms) ++ [].zip [endFrom 0 forms] := List.zip_append hlength
  rw [List.append_nil] at hzip
  simpa using hzip

/-- A label stands at an offset of the layout. -/
theorem offsetOf_of_eq_ok {label : Label} {offset : Nat}
    (h : (Layout.of positions forms).offsetOf label = .ok offset) :
    offset ≤ endFrom 0 forms := by
  rw [Layout.offsetOf] at h
  split at h
  · next position _ =>
    cases h
    rw [Layout.offsetAt, Layout.of, offsets_eq, List.getElem?_toArray]
    cases hget : (startsFrom 0 forms ++ [endFrom 0 forms])[position]? with
    | none => exact Nat.zero_le _
    | some offset =>
      rcases List.mem_append.1 (List.mem_of_getElem? hget) with hmem | hmem
      · exact (mem_startsFrom hmem).2
      · rw [List.mem_singleton.1 hmem]
        exact Nat.le_refl _
  · cases h

end Layout

/-! ### Settling -/

/-- A jump may have become wide if it can be. -/
def Widened (form form' : Form) : Prop :=
  form' = form ∨ ∃ op target, form = .jump op target false ∧ form' = .jump op target true ∧
    (op = .goto ∨ op = .jsr)

/-- A wider form encodes the same instruction. -/
theorem Encodes.widened {q : Pool} {insn : Instruction Label} {form form' : Form}
    (h : Encodes q insn form) (hwidened : Widened form form') : Encodes q insn form' := by
  rcases hwidened with rfl | ⟨op, target, rfl, rfl, hop⟩
  · exact h
  · cases h with
    | jump hleads _ => exact .jump hleads fun _ => hop

/-- A form wider than one that is wider than another one is wider than that one. -/
theorem Widened.trans {a b c : Form} (h : Widened a b) (h' : Widened b c) : Widened a c := by
  rcases h with rfl | ⟨op, target, rfl, rfl, hop⟩
  · exact h'
  · rcases h' with rfl | ⟨op', target', heq, -, -⟩
    · exact .inr ⟨op, target, rfl, rfl, hop⟩
    · cases heq

/-- The jumps of 16 bits among located forms lead to offsets that are near enough. -/
def NearJumps (offsetOf : Label → Except Malformation Nat) (items : List (Form × Nat)) : Prop :=
  ∀ item ∈ items, ∀ op target, item.1 = .jump op target false →
    ∃ offset : Nat, offsetOf target = .ok offset ∧ isNear (offset - (item.2 : Int)) = true

/-- What is no jump of 16 bits is not widened. -/
theorem widen_cons_of_ne (offsetOf : Label → Except Malformation Nat) (method : String)
    (start : Nat) (items : List (Form × Nat)) {form : Form}
    (hform : ∀ op target, form ≠ .jump op target false) :
    widen offsetOf method ((form, start) :: items) = do
      return form :: (← widen offsetOf method items) := by
  cases form with
  | jump op target wide =>
    cases wide with
    | false => exact absurd rfl (hform op target)
    | true => rw [widen]; simp
  | _ => rw [widen]; simp

/-- Widening turns some jumps of 16 bits into wide ones; if their number stays, they are all near
enough and nothing changes. -/
theorem widen_spec {offsetOf : Label → Except Malformation Nat} {method : String}
    {items : List (Form × Nat)} {widened : List Form}
    (h : widen offsetOf method items = .ok widened) :
    List.Forall₂ Widened (items.map (·.1)) widened ∧
      narrowJumps widened ≤ narrowJumps (items.map (·.1)) ∧
      (narrowJumps (items.map (·.1)) ≤ narrowJumps widened → NearJumps offsetOf items) := by
  induction items generalizing widened with
  | nil =>
    cases h
    exact ⟨.nil, Nat.le_refl _, fun _ item hitem => absurd hitem (List.not_mem_nil)⟩
  | cons item items ih =>
    obtain ⟨form, start⟩ := item
    by_cases hjump : ∃ op target, form = .jump op target false
    · obtain ⟨op, target, rfl⟩ := hjump
      rw [widen] at h
      obtain ⟨offset, hoffset, h⟩ := exceptBind_eq_ok_iff.1 h
      split at h
      · next hnear =>
        obtain ⟨rest, hrest, h⟩ := exceptBind_eq_ok_iff.1 h
        cases h
        obtain ⟨hwidened, hle, hall⟩ := ih hrest
        refine ⟨.cons (.inl rfl) hwidened, Nat.succ_le_succ hle, ?_⟩
        intro hcount item hitem op' target' hform
        rcases List.mem_cons.1 hitem with rfl | hitem
        · cases hform
          exact ⟨offset, hoffset, hnear⟩
        · exact hall (Nat.le_of_succ_le_succ hcount) item hitem op' target' hform
      · split at h
        · next hop =>
          obtain ⟨rest, hrest, h⟩ := exceptBind_eq_ok_iff.1 h
          cases h
          obtain ⟨hwidened, hle, -⟩ := ih hrest
          have hcan : op = .goto ∨ op = .jsr := by simpa using hop
          refine ⟨.cons (.inr ⟨op, target, rfl, rfl, hcan⟩) hwidened, Nat.le_succ_of_le hle, ?_⟩
          -- A jump became wide, so there are fewer of 16 bits now.
          intro hcount
          change narrowJumps (items.map (·.1)) + 1 ≤ narrowJumps rest at hcount
          omega
        · cases h
    · have hwiden := widen_cons_of_ne offsetOf method start items
        fun op target hform => hjump ⟨op, target, hform⟩
      have hnarrow : ∀ rest, narrowJumps (form :: rest) = narrowJumps rest := by
        intro rest
        cases form with
        | jump op target wide =>
          cases wide with
          | false => exact absurd ⟨op, target, rfl⟩ hjump
          | true => rfl
        | _ => rfl
      rw [hwiden] at h
      obtain ⟨rest, hrest, h⟩ := exceptBind_eq_ok_iff.1 h
      cases h
      obtain ⟨hwidened, hle, hall⟩ := ih hrest
      rw [List.map_cons, hnarrow, hnarrow]
      refine ⟨.cons (.inl rfl) hwidened, hle, ?_⟩
      intro hcount item hitem op' target' hform
      rcases List.mem_cons.1 hitem with rfl | hitem
      · exact absurd ⟨op', target', hform⟩ hjump
      · exact hall hcount item hitem op' target' hform

/-- The forms of a layout are those that it is made of. -/
theorem map_fst_located (positions : Array (Option Nat)) (forms : List Form) :
    (Layout.of positions forms).located.map (·.1) = forms := by
  rw [Layout.located_of]
  exact List.map_fst_zip (Nat.le_of_eq (length_startsFrom 0 forms).symm)

/-- Forms are as wide as they are. -/
theorem forall₂_widened_refl (forms : List Form) : List.Forall₂ Widened forms forms :=
  List.forall₂_same.2 fun _ _ => .inl rfl

/-- Forms wider than ones that are wider than others are wider than those. -/
theorem forall₂_widened_trans {a b c : List Form} (h : List.Forall₂ Widened a b)
    (h' : List.Forall₂ Widened b c) : List.Forall₂ Widened a c := by
  induction h generalizing c with
  | nil => exact h'
  | cons hfirst _ ih =>
    obtain ⟨d, ds, hd, hds, rfl⟩ := List.forall₂_cons_left_iff.1 h'
    exact .cons (hfirst.trans hd) (ih hds)

/-- A layout that is settled is that of the forms with some jumps widened, and all its other jumps
are near enough. -/
theorem settle_eq_ok {positions : Array (Option Nat)} {method : String} {forms : List Form}
    {l : Layout} (h : Layout.settle positions method forms = .ok l) :
    ∃ forms', l = Layout.of positions forms' ∧ List.Forall₂ Widened forms forms' ∧
      NearJumps l.offsetOf l.located := by
  -- Every round that goes on has fewer jumps of 16 bits than the one before.
  induction hcount : narrowJumps forms using Nat.strong_induction_on generalizing forms with
  | _ count ih =>
    rw [Layout.settle] at h
    split at h
    · cases h
    · next widened hwiden =>
      obtain ⟨hwidened, -, hnear⟩ := widen_spec hwiden
      rw [map_fst_located] at hwidened hnear
      split at h
      · next hless =>
        obtain ⟨forms', hl, hforms, hjumps⟩ := ih _ (hcount ▸ hless) h rfl
        exact ⟨forms', hl, forall₂_widened_trans hwidened hforms, hjumps⟩
      · next hnotLess =>
        cases h
        exact ⟨forms, rfl, forall₂_widened_refl forms, hnear (Nat.not_lt.1 hnotLess)⟩

/-! ### Whole bodies -/

/-- Labels and line markers take no bytes. -/
theorem Encodes.eq_of_not_real {q : Pool} {insn : Instruction Label} {form : Form}
    (h : Encodes q insn form) (hreal : insn.isReal = false) : form = .fixed [] := by
  cases h with
  | marker => rfl
  | fixed hreal' =>
    rw [hreal] at hreal'
    cases hreal'
  | jump => cases hreal
  | table => cases hreal
  | lookup => cases hreal

/-- The real instructions of a list with their offsets, and with offsets in place of labels. -/
def spelled (off : Label → Nat) (insns : List (Instruction Label)) (starts : List Nat) :
    List (Nat × Instruction Nat) :=
  ((insns.zip starts).filter fun p => p.1.isReal).map fun p => (p.2, p.1.map off)

/-- An instruction that is read takes a byte at least. -/
theorem ne_nil_of_reads_readInstruction {q : Pool} {length start : Nat} {bs : Bytes}
    {answer : Instruction Nat × RawForm} (h : Reads (readInstruction q length start) bs answer) :
    bs ≠ [] := by
  rintro rfl
  have hempty := h [] 0
  cases hempty

/-- Instructions that stand one after the other are read one after the other. -/
theorem readFrom_eq {q : Pool} {length : Nat} {offsetOf : Label → Except Malformation Nat}
    {insns : List (Instruction Label)} {forms : List Form} {chunks : List Bytes} {start : Nat}
    (hencodes : List.Forall₂ (Encodes q) insns forms)
    (hchunks : List.Forall₂ (fun item chunk => item.1.bytes offsetOf item.2 = .ok chunk)
      (forms.zip (startsFrom start forms)) chunks)
    (hnear : NearJumps offsetOf (forms.zip (startsFrom start forms)))
    (hbound : ∀ label offset, offsetOf label = .ok offset → offset ≤ length)
    (hend : endFrom start forms ≤ length) (hlength : length ≤ 65535)
    (done : List Located) (bound : Nat) (hleft : chunks.flatten.length ≤ bound) :
    ∃ code : List Located,
      readFrom q length done bound ⟨chunks.flatten, start⟩ =
        .ok (done.reverse ++ code, ⟨[], start + chunks.flatten.length⟩) ∧
      code.map (fun i => (i.offset, i.insn)) =
        spelled (offsetOr offsetOf) insns (startsFrom start forms) := by
  induction hencodes generalizing chunks start done bound with
  | nil =>
    cases hchunks
    refine ⟨[], ?_, rfl⟩
    rw [List.append_nil]
    cases bound <;> rfl
  | @cons insn form insns forms hfirst _ ih =>
    rw [startsFrom, List.zip_cons_cons] at hchunks hnear
    obtain ⟨chunk, rest, hchunk, hrest, rfl⟩ := List.forall₂_cons_left_iff.1 hchunks
    dsimp only at hchunk
    have hsize := length_bytes hchunk
    have hnear' : NearJumps offsetOf (forms.zip (startsFrom (start + form.size start) forms)) :=
      fun item hitem => hnear item (List.mem_cons_of_mem _ hitem)
    rw [endFrom] at hend
    rw [List.flatten_cons, List.length_append] at hleft ⊢
    cases hreal : insn.isReal with
    | false =>
      -- A marker has no bytes, so reading goes on where it stands.
      have hform := hfirst.eq_of_not_real hreal
      subst hform
      cases hchunk
      obtain ⟨code, hcode, hspelled⟩ := ih hrest hnear' hend done bound (by simpa using hleft)
      refine ⟨code, ?_, ?_⟩
      · simpa [Form.size] using hcode
      · rw [hspelled, spelled, spelled, startsFrom, List.zip_cons_cons,
          List.filter_cons_of_neg (by simp [hreal])]
    | true =>
      have hfits : start + chunk.length ≤ length := by
        have hle := le_endFrom (start + form.size start) forms
        omega
      have hjump : ∀ op target offset, form = .jump op target false →
          offsetOf target = .ok offset → isNear (offset - (start : Int)) = true := by
        intro op target offset hform hoffset
        obtain ⟨o, ho, hnear⟩ := hnear _ List.mem_cons_self op target hform
        rw [hoffset] at ho
        cases ho
        exact hnear
      obtain ⟨raw, hread⟩ := hfirst.reads hreal hchunk hjump hbound hfits hlength
      obtain ⟨b, chunk', rfl⟩ := List.exists_cons_of_ne_nil (ne_nil_of_reads_readInstruction hread)
      cases bound with
      | zero => simp at hleft
      | succ bound =>
        rw [List.length_cons] at hleft hsize
        obtain ⟨code, hcode, hspelled⟩ := ih hrest hnear' hend
          (⟨start, insn.map (offsetOr offsetOf), raw⟩ :: done) bound (by omega)
        refine ⟨⟨start, insn.map (offsetOr offsetOf), raw⟩ :: code, ?_, ?_⟩
        · have hstep : readFrom q length done (bound + 1) ⟨b :: chunk' ++ rest.flatten, start⟩ =
              readFrom q length (⟨start, insn.map (offsetOr offsetOf), raw⟩ :: done) bound
                ⟨rest.flatten, start + (b :: chunk').length⟩ := by
            have hfirstRead := hread rest.flatten start
            change ((readInstruction q length start) _).bind _ = _
            rw [hfirstRead]
            rfl
          rw [hstep, List.length_cons, hsize, hcode, List.reverse_cons, List.append_assoc,
            List.singleton_append, Nat.add_assoc]
        · rw [List.map_cons, hspelled, spelled, spelled, startsFrom, List.zip_cons_cons,
            List.filter_cons_of_pos (by simp [hreal]), List.map_cons]

/-- The chunks of forms reach to the end. -/
theorem length_flatten_chunks {offsetOf : Label → Except Malformation Nat} {forms : List Form}
    {chunks : List Bytes} {start : Nat}
    (h : List.Forall₂ (fun item chunk => item.1.bytes offsetOf item.2 = .ok chunk)
      (forms.zip (startsFrom start forms)) chunks) :
    start + chunks.flatten.length = endFrom start forms := by
  induction forms generalizing start chunks with
  | nil =>
    cases h
    rfl
  | cons form forms ih =>
    rw [startsFrom, List.zip_cons_cons] at h
    obtain ⟨chunk, rest, hchunk, hrest, rfl⟩ := List.forall₂_cons_left_iff.1 h
    have hsize : chunk.length = form.size start := length_bytes hchunk
    rw [endFrom, ← ih hrest, List.flatten_cons, List.length_append, hsize, Nat.add_assoc]

/-- The bytes of a layout are the chunks of its forms. -/
theorem bytes_of_eq_ok {positions : Array (Option Nat)} {forms : List Form} {code : Bytes}
    (h : (Layout.of positions forms).bytes = .ok code) : ∃ chunks, code = chunks.flatten ∧
      List.Forall₂ (fun item chunk =>
        item.1.bytes (Layout.of positions forms).offsetOf item.2 = .ok chunk)
        (forms.zip (startsFrom 0 forms)) chunks := by
  obtain ⟨chunks, hchunks, h⟩ := exceptBind_eq_ok_iff.1 h
  cases h
  rw [Layout.located_of] at hchunks
  exact ⟨chunks, rfl, mapM_eq_ok_iff.1 hchunks⟩

/-- A form has bytes only if the labels of its instruction have offsets. -/
theorem Encodes.exists_offset {q : Pool} {insn : Instruction Label} {form : Form}
    (h : Encodes q insn form) {offsetOf : Label → Except Malformation Nat} {start : Nat}
    {chunk : Bytes} (hchunk : form.bytes offsetOf start = .ok chunk) :
    ∀ t ∈ insn.mentioned, ∃ o, offsetOf t = .ok o := by
  intro t ht
  -- Whatever asks for an offset has got one, since the bytes would have failed otherwise.
  cases h with
  | marker hmarker =>
    cases insn with
    | label => cases ht
    | line => cases ht
    | _ => cases hmarker
  | fixed _ hmentioned =>
    rw [hmentioned] at ht
    cases ht
  | @jump op target wide =>
    rw [List.mem_singleton.1 ht]
    cases wide with
    | false =>
      obtain ⟨o, ho, -⟩ := exceptBind_eq_ok_iff.1 hchunk
      exact ⟨o, ho⟩
    | true =>
      obtain ⟨bs, hbs, -⟩ := exceptBind_eq_ok_iff.1 hchunk
      obtain ⟨o, ho, -⟩ := displacement_eq_ok_iff.1 hbs
      exact ⟨o, ho⟩
  | table =>
    obtain ⟨bs, hbs, hchunk⟩ := exceptBind_eq_ok_iff.1 hchunk
    obtain ⟨chunks, hchunks, -⟩ := exceptBind_eq_ok_iff.1 hchunk
    rcases List.mem_cons.1 ht with rfl | ht
    · obtain ⟨o, ho, -⟩ := displacement_eq_ok_iff.1 hbs
      exact ⟨o, ho⟩
    · obtain ⟨bs, -, hbs⟩ := exists_of_mem_left (mapM_eq_ok_iff.1 hchunks) ht
      obtain ⟨o, ho, -⟩ := displacement_eq_ok_iff.1 hbs
      exact ⟨o, ho⟩
  | lookup =>
    obtain ⟨bs, hbs, hchunk⟩ := exceptBind_eq_ok_iff.1 hchunk
    obtain ⟨chunks, hchunks, -⟩ := exceptBind_eq_ok_iff.1 hchunk
    rcases List.mem_cons.1 ht with rfl | ht
    · obtain ⟨o, ho, -⟩ := displacement_eq_ok_iff.1 hbs
      exact ⟨o, ho⟩
    · obtain ⟨c, hc, rfl⟩ := List.mem_map.1 ht
      obtain ⟨bs, -, hbs⟩ := exists_of_mem_left (mapM_eq_ok_iff.1 hchunks) hc
      obtain ⟨word, hword, -⟩ := exceptBind_eq_ok_iff.1 hbs
      obtain ⟨o, ho, -⟩ := displacement_eq_ok_iff.1 hword
      exact ⟨o, ho⟩

/-- The labels of instructions that have bytes have offsets. -/
theorem exists_offset_of_chunks {q : Pool} {offsetOf : Label → Except Malformation Nat}
    {insns : List (Instruction Label)} {forms : List Form} {chunks : List Bytes} {start : Nat}
    (hencodes : List.Forall₂ (Encodes q) insns forms)
    (hchunks : List.Forall₂ (fun item chunk => item.1.bytes offsetOf item.2 = .ok chunk)
      (forms.zip (startsFrom start forms)) chunks) :
    ∀ insn ∈ insns, ∀ t ∈ insn.mentioned, ∃ o, offsetOf t = .ok o := by
  induction hencodes generalizing chunks start with
  | nil => simp
  | @cons insn form insns forms hfirst _ ih =>
    rw [startsFrom, List.zip_cons_cons] at hchunks
    obtain ⟨chunk, rest, hchunk, hrest, rfl⟩ := List.forall₂_cons_left_iff.1 hchunks
    intro insn' hinsn'
    rcases List.mem_cons.1 hinsn' with rfl | hinsn'
    · exact hfirst.exists_offset hchunk
    · exact ih hrest insn' hinsn'

/-- The bytes of a layout are read as the instructions that its forms spell. -/
theorem readInstructions_bytes {q : Pool} {positions : Array (Option Nat)} {forms : List Form}
    {insns : List (Instruction Label)} {code : Bytes}
    (hencodes : List.Forall₂ (Encodes q) insns forms)
    (hnear : NearJumps (Layout.of positions forms).offsetOf (Layout.of positions forms).located)
    (hcode : (Layout.of positions forms).bytes = .ok code) (hlength : endFrom 0 forms ≤ 65535) :
    code.length = endFrom 0 forms ∧ ∃ located, readInstructions q code = .ok located ∧
      located.map (fun i => (i.offset, i.insn)) =
        spelled (offsetOr (Layout.of positions forms).offsetOf) insns (startsFrom 0 forms) := by
  obtain ⟨chunks, rfl, hchunks⟩ := bytes_of_eq_ok hcode
  have hend : chunks.flatten.length = endFrom 0 forms := by
    rw [← length_flatten_chunks hchunks, Nat.zero_add]
  rw [Layout.located_of] at hnear
  refine ⟨hend, ?_⟩
  obtain ⟨located, hread, hspelled⟩ := readFrom_eq hencodes hchunks hnear
    (fun label offset h => Layout.offsetOf_of_eq_ok h) (Nat.le_refl _) hlength []
    chunks.flatten.length (Nat.le_refl _)
  refine ⟨located, ?_, hspelled⟩
  rw [readInstructions, Reader.on]
  change (·.1) <$> readFrom q chunks.flatten.length [] chunks.flatten.length ⟨chunks.flatten, 0⟩ = _
  rw [hend] at hread ⊢
  rw [hread]
  rfl

end Unscramble.Binary
