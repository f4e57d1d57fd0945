import Unscramble.Proofs.Binary.Layout
import Unscramble.Proofs.Binary.Taking

/-! # Instructions are written as they were read

An instruction remembers the form it was read in. As long as the instruction is regular, the form
that is chosen for it is that form again, the pool does not grow, and at its old offset it spells the
bytes it was read from. Irregular are references to entries of another kind, numbers that are none,
and bytes that a reader passes over but that are not those a writer puts there.

Main definitions: `Regular`, `Recovers`, `Rewritten`. Main statement: `takes_readInstruction`. -/

namespace Unscramble

/-- Whether a constant is one of the floating-point values that are not numbers. -/
def Constant.IsNan : Constant → Prop
  | .float bits => Decimal.single.magnitude bits.toNat = .nan
  | .double bits => Decimal.double.magnitude bits.toNat = .nan
  | _ => False

/-- A number has the same value as itself. -/
theorem Constant.sameNumber_self {f : Decimal.Format} {a : Nat} (h : f.magnitude a ≠ .nan) :
    Constant.sameNumber f a a = true := by
  rw [Constant.sameNumber]
  split
  · next hnan => exact absurd hnan h
  · rfl
  · exact beq_self_eq_true a

/-- A constant agrees with itself unless it is not a number. -/
theorem Constant.agrees_self {c : Constant} (h : ¬c.IsNan) : c.agrees c = true := by
  cases c with
  | float bits => exact Constant.sameNumber_self h
  | double bits => exact Constant.sameNumber_self h
  | _ => exact beq_self_eq_true _

namespace Binary

open Reader

/-! ### Small numbers -/

/-- A byte is the last byte of the number it stands for. -/
theorem toUInt8_toInt32_toInt8 (n : Int8) : n.toInt32.toUInt32.toUInt8 = n.toUInt8 := by
  have hlow := n.le_toInt
  have hhigh := n.toInt_lt
  have hsame := toInt32_toInt8 (n := n.toInt32) (by rw [Int8.toInt_toInt32]; omega)
    (by rw [Int8.toInt_toInt32]; omega)
  have hinj := congrArg Int32.toInt8 hsame
  rw [Int8.toInt8_toInt32, Int8.toInt8_toInt32] at hinj
  exact congrArg Int8.toUInt8 hinj

/-- Two bytes are the last two bytes of the number they stand for. -/
theorem toUInt16_toInt32_toInt16 (n : Int16) : n.toInt32.toUInt32.toUInt16 = n.toUInt16 := by
  have hlow := n.le_toInt
  have hhigh := n.toInt_lt
  have hsame := toInt32_toInt16 (n := n.toInt32) (by rw [Int16.toInt_toInt32]; omega)
    (by rw [Int16.toInt_toInt32]; omega)
  have hinj := congrArg Int32.toInt16 hsame
  rw [Int16.toInt16_toInt32, Int16.toInt16_toInt32] at hinj
  exact congrArg Int16.toUInt16 hinj

/-- A byte is the last byte of the amount it stands for. -/
theorem toUInt8_toInt16_toInt8 (n : Int8) : n.toInt16.toUInt16.toUInt8 = n.toUInt8 := by
  have hlow := n.le_toInt
  have hhigh := n.toInt_lt
  have hsame := toInt16_toInt8 (n := n.toInt16) (by rw [Int8.toInt_toInt16]; omega)
    (by rw [Int8.toInt_toInt16]; omega)
  have hinj := congrArg Int16.toInt8 hsame
  rw [Int8.toInt8_toInt16, Int8.toInt8_toInt16] at hinj
  exact congrArg Int8.toUInt8 hinj

/-- A slot in one byte is small. -/
theorem toUInt16_le (n : UInt8) : n.toUInt16 ≤ 0xff := by
  have hlt : n.toNat < 256 := n.toNat_lt
  rw [UInt16.le_iff_toNat_le, UInt8.toNat_toUInt16]
  exact Nat.le_of_lt_succ hlt

/-- The first two bytes of some operands as an index. -/
def index16 (operands : Bytes) : UInt16 :=
  (natOfBytes (operands.take 2)).toUInt16

/-- An index is read back from its two bytes. -/
theorem index16_word16 (i : UInt16) (rest : Bytes) : index16 (word16 i ++ rest) = i := by
  have htake : (word16 i ++ rest).take 2 = word16 i := List.take_left' (length_word16 i)
  rw [index16, htake, word16, natOfBytes_bytesOfNat i.toNat_lt]
  exact UInt16.ofNat_toNat

/-! ### Regular instructions -/

/-- The index that a push of a constant refers to. -/
def pushedIndex (op : Opcode) (operands : Bytes) : UInt16 :=
  if op == .ldc then (operands.headD 0).toUInt16 else index16 operands

/-- An instruction is regular, given its opcode and the bytes behind it: what it refers to is of the
kind that the opcode tells, and bytes that a reader passes over are those that a writer puts there. -/
structure Regular (pool : Pool) (start : Nat) (op : Opcode) (operands : Bytes) : Prop where
  /-- A field access refers to a field. -/
  field : Opcode.between .getstatic .putfield op = true →
    ∀ m kind, pool.memberAt (index16 operands) = .ok (m, kind) → kind = .field
  /-- A call refers to a method. -/
  invoke : Opcode.between .invokevirtual .invokeinterface op = true →
    ∀ m kind, pool.memberAt (index16 operands) = .ok (m, kind) → kind ≠ .field
  /-- A call through an interface counts the receiver and the slots of its arguments, and ends with a
  zero. -/
  count : op = .invokeinterface → ∀ m kind, pool.memberAt (index16 operands) = .ok (m, kind) →
    (operands.drop 2).take 2 = [(1 + Descriptor.argumentSlots m.descriptor).toUInt8, 0]
  /-- A call of a call site ends with two zeros. -/
  reserved : op = .invokedynamic → (operands.drop 2).take 2 = [0, 0]
  /-- A constant that takes two slots has an opcode of its own. -/
  wide : op = .ldc ∨ op = .ldcW ∨ op = .ldc2W →
    ∀ c, pool.constantAt (pushedIndex op operands) = .ok c → c.isWide = (op == .ldc2W)
  /-- A constant is not one of the values that are not numbers. -/
  number : op = .ldc ∨ op = .ldcW ∨ op = .ldc2W →
    ∀ c, pool.constantAt (pushedIndex op operands) = .ok c → ¬c.IsNan
  /-- The operands of a switch are aligned with zeros. -/
  padding : op = .tableswitch ∨ op = .lookupswitch →
    operands.take (switchPadding start) = List.replicate (switchPadding start) 0

/-- The instruction at the front of some bytes is regular. -/
def RegularAt (pool : Pool) (start : Nat) (bs : Bytes) : Prop :=
  ∀ op operands, bs = Opcode.byte op :: operands → Regular pool start op operands

/-- An instruction that was read is written in the form it had: the form is chosen without adding to
the pool, and at its offset it spells the bytes that were read, if every label has the offset it was
made for. -/
def Recovers (pool : Pool) (start : Nat) (insn : Instruction Nat) (raw : RawForm) (bs : Bytes) :
    Prop :=
  ∀ label : Nat → Label, ∃ form,
    (∀ p, pool.Below p → Form.choose (insn.map label) (some raw) p = (.ok form, p)) ∧
    form.size start = bs.length ∧
    ∀ offsetOf, (∀ t ∈ insn.mentioned, offsetOf (label t) = .ok t) →
      form.bytes offsetOf start = .ok bs ∧ NearJumps offsetOf [(form, start)]

/-- What is known of an instruction that was read from some bytes. -/
structure Rewritten (pool : Pool) (length start : Nat) (answer : Instruction Nat × RawForm)
    (bs : Bytes) : Prop where
  /-- An instruction has an opcode. -/
  ne_nil : bs ≠ []
  /-- It is neither a label nor a line marker. -/
  real : answer.1.isReal = true
  /-- Labels are offsets of the body. -/
  bound : ∀ t ∈ answer.1.mentioned, t ≤ length
  /-- A regular instruction is written as it was read. -/
  recovers : ∀ rest, RegularAt pool start (bs ++ rest) → Recovers pool start answer.1 answer.2 bs

section Rewritten

variable {pool : Pool} {length start : Nat} {op : Opcode} {raw : RawForm} {bs : Bytes}

/-- A form that is no jump of 16 bits does not lead too far. -/
theorem nearJumps_of_ne {offsetOf : Label → Except Malformation Nat} {form : Form}
    (h : ∀ op target, form ≠ .jump op target false) : NearJumps offsetOf [(form, start)] := by
  intro item hitem op target hform
  rw [List.mem_singleton.1 hitem] at hform
  exact absurd hform (h op target)

/-- An instruction whose bytes do not depend on offsets is recovered if they are chosen again. -/
theorem rewritten_of_fixed {insn : Instruction Nat} (hreal : insn.isReal = true)
    (hmentioned : insn.mentioned = [])
    (h : ∀ rest, Regular pool start op (bs ++ rest) → ∀ label p, pool.Below p →
      Form.choose (insn.map label) (some raw) p = (.ok (.fixed (op.byte :: bs)), p)) :
    Rewritten pool length start (insn, raw) (op.byte :: bs) := by
  refine ⟨List.cons_ne_nil _ _, hreal, by simp [hmentioned], ?_⟩
  intro rest hregular label
  refine ⟨.fixed (op.byte :: bs), h rest (hregular op _ rfl) label, rfl, ?_⟩
  intro offsetOf _
  exact ⟨rfl, nearJumps_of_ne (by simp)⟩

/-- An instruction that does not refer to the pool is recovered if its bytes are chosen again. -/
theorem rewritten_of_pure {insn : Instruction Nat} {chosen : Bytes} (hreal : insn.isReal = true)
    (hmentioned : insn.mentioned = []) (hchosen : chosen = op.byte :: bs)
    (h : ∀ label, Form.choose (insn.map label) (some raw) = pure (.fixed chosen)) :
    Rewritten pool length start (insn, raw) (op.byte :: bs) := by
  refine rewritten_of_fixed hreal hmentioned ?_
  intro rest _ label p _
  rw [h label, hchosen]
  rfl

/-! ### Instructions without references -/

/-- The slot of a load or store in one byte. -/
theorem slotBytes_normal (op : Opcode) (n : UInt8) :
    slotBytes op n.toUInt16 (some ⟨op, false, none⟩) = [op.byte, n] := by
  have hform : slotForm op n.toUInt16 (some ⟨op, false, none⟩) = .normal := by
    have hsmall : (op == op && decide (n.toUInt16 ≤ 0xff)) = true := by
      rw [beq_self_eq_true, Bool.true_and, decide_eq_true_eq]
      exact toUInt16_le n
    rw [slotForm, Bool.false_and, if_neg Bool.false_ne_true, if_pos hsmall]
  rw [slotBytes, hform, UInt8.toUInt8_toUInt16]

/-- The slot of a load or store in two bytes. -/
theorem slotBytes_wide (op : Opcode) (n : UInt16) :
    slotBytes op n (some ⟨op, true, none⟩) = Opcode.wide.byte :: op.byte :: word16 n := by
  have hform : slotForm op n (some ⟨op, true, none⟩) = .wide := by
    rw [slotForm, Bool.true_and, if_pos (beq_self_eq_true op)]
  rw [slotBytes, hform]
  rfl

/-- A short load stands for a load whose short form it is. -/
theorem slotBytes_shortLoad (op : Opcode) (h : Opcode.between .iload0 .aload3 op = true) :
    slotBytes ⟨Opcode.iload.byte + (op.byte - Opcode.iload0.byte) / 4⟩
      ((op.byte - Opcode.iload0.byte) % 4).toUInt16 (some ⟨op, false, none⟩) = [op.byte] := by
  revert op
  apply forall_opcode
  decide +kernel

/-- A short store stands for a store whose short form it is. -/
theorem slotBytes_shortStore (op : Opcode) (h : Opcode.between .istore0 .astore3 op = true) :
    slotBytes ⟨Opcode.istore.byte + (op.byte - Opcode.istore0.byte) / 4⟩
      ((op.byte - Opcode.istore0.byte) % 4).toUInt16 (some ⟨op, false, none⟩) = [op.byte] := by
  revert op
  apply forall_opcode
  decide +kernel

/-- An increment in one byte each. -/
theorem incrementBytes_normal (n : UInt8) (k : Int8) :
    incrementBytes n.toUInt16 k.toInt16 (some ⟨.iinc, false, none⟩) =
      [Opcode.iinc.byte, n, k.toUInt8] := by
  have hslot : ¬0xff < n.toUInt16 := UInt16.not_lt.2 (toUInt16_le n)
  have hlow : ¬k.toInt16 < -128 := by
    have hle := k.le_toInt
    rw [Int16.lt_iff_toInt_lt, Int8.toInt_toInt16]
    exact Int.not_lt.2 hle
  have hhigh : ¬127 < k.toInt16 := by
    have hlt := k.toInt_lt
    rw [Int16.lt_iff_toInt_lt, Int8.toInt_toInt16]
    exact Int.not_lt.2 (Int.le_of_lt_add_one hlt)
  rw [incrementBytes, if_neg (by simp [hslot, hlow, hhigh]), UInt8.toUInt8_toUInt16,
    toUInt8_toInt16_toInt8]

/-! ### Jumps and switches -/

/-- An offset that was taken lies in the body. -/
theorem takes_target {offset : Int} :
    Takes (target length offset) fun t bs => bs = [] ∧ (t : Int) = offset ∧ t ≤ length := by
  rw [target]
  split
  · next h =>
    refine takes_pure ⟨rfl, ?_, ?_⟩
    · exact Int.toNat_of_nonneg h.1
    · omega
  · exact takes_fail

/-- The 32 bits that lead to an offset are those of the displacement to it. -/
theorem takes_farTarget :
    Takes (farTarget length start) fun t bs => bs = signed32 (t - (start : Int)) ∧ t ≤ length := by
  refine takes_i32.bind fun d => takes_target.mono ?_
  rintro t bs ⟨rfl, ht, hle⟩ front rfl
  have hd : (t : Int) - start = d.toInt := by omega
  rw [hd, signed32_toInt, List.append_nil]
  exact ⟨rfl, hle⟩

/-- A signed number of 16 bits is written as the number with its bits. -/
theorem signed16_toInt (n : Int16) : signed16 n.toInt = word16 n.toUInt16 := by
  rw [signed16, Int16.ofInt_toInt]

/-- The 16 bits that lead to an offset are those of the displacement to it. -/
theorem takes_nearTarget :
    Takes (do target length (start + (← i16).toInt)) fun t bs =>
      bs = signed16 (t - (start : Int)) ∧ isNear (t - (start : Int)) = true ∧ t ≤ length := by
  refine takes_i16.bind fun d => takes_target.mono ?_
  rintro t bs ⟨rfl, ht, hle⟩ front rfl
  have hd : (t : Int) - start = d.toInt := by omega
  have hlow := d.le_toInt
  have hhigh := d.toInt_lt
  have hnear : isNear d.toInt = true := by
    rw [isNear, Bool.and_eq_true, decide_eq_true_eq, decide_eq_true_eq]
    omega
  rw [hd, signed16_toInt, List.append_nil]
  exact ⟨rfl, hnear, hle⟩

/-- The displacement of a label is the way to its offset. -/
theorem displacement_of_offset (start : Nat) {label : Nat → Label}
    {offsetOf : Label → Except Malformation Nat} {t : Nat} (h : offsetOf (label t) = .ok t) :
    Form.displacement offsetOf start (label t) = .ok (signed32 (t - (start : Int))) :=
  displacement_eq_ok_iff.2 ⟨t, h, rfl⟩

/-- A jump of 16 bits is written with 16 bits. -/
theorem rewritten_narrow {t : Nat} (hop : leads op = true)
    (hnear : isNear (t - (start : Int)) = true) (ht : t ≤ length) :
    Rewritten pool length start (.jump op t, ⟨op, false, none⟩)
      (op.byte :: signed16 (t - (start : Int))) := by
  have hfar : (op == .gotoW || op == .jsrW) = false := by
    revert op
    apply forall_opcode
    decide +kernel
  refine ⟨List.cons_ne_nil _ _, rfl, by simpa [Instruction.mentioned] using ht, ?_⟩
  intro rest _ label
  refine ⟨.jump op (label t) false, ?_, ?_, ?_⟩
  · intro p _
    rw [Instruction.map, Form.choose, Option.any_some, hfar]
    rfl
  · simp [Form.size]
  · intro offsetOf hoffsets
    have hoffset : offsetOf (label t) = .ok t := hoffsets t (by simp [Instruction.mentioned])
    refine ⟨exceptBind_eq_ok_iff.2 ⟨t, hoffset, rfl⟩, ?_⟩
    intro item hitem op' target hform
    rw [List.mem_singleton.1 hitem] at hform ⊢
    cases hform
    exact ⟨t, hoffset, hnear⟩

/-- A jump of 32 bits is written with 32 bits. -/
theorem rewritten_far {near far : Opcode} {t : Nat}
    (h : near = .goto ∧ far = .gotoW ∨ near = .jsr ∧ far = .jsrW) (ht : t ≤ length) :
    Rewritten pool length start (.jump near t, ⟨far, false, none⟩)
      (far.byte :: signed32 (t - (start : Int))) := by
  have hfar : (far == .gotoW || far == .jsrW) = true := by
    rcases h with ⟨-, rfl⟩ | ⟨-, rfl⟩ <;> rfl
  have hopcode : (if near == .goto then Opcode.gotoW else Opcode.jsrW) = far := by
    rcases h with ⟨rfl, rfl⟩ | ⟨rfl, rfl⟩ <;> rfl
  refine ⟨List.cons_ne_nil _ _, rfl, by simpa [Instruction.mentioned] using ht, ?_⟩
  intro rest _ label
  refine ⟨.jump near (label t) true, ?_, ?_, ?_⟩
  · intro p _
    rw [Instruction.map, Form.choose, Option.any_some, hfar]
    rfl
  · simp [Form.size]
  · intro offsetOf hoffsets
    have hoffset : offsetOf (label t) = .ok t := hoffsets t (by simp [Instruction.mentioned])
    constructor
    · rw [Form.bytes, hopcode]
      exact exceptBind_eq_ok_iff.2 ⟨_, displacement_of_offset start hoffset, rfl⟩
    · exact nearJumps_of_ne (by simp)

/-- Zeros that align the operands of a regular switch. -/
theorem padding_eq {pad operands rest : Bytes} (hpad : pad.length = switchPadding start)
    (hop : op = .tableswitch ∨ op = .lookupswitch)
    (hregular : RegularAt pool start (op.byte :: (pad ++ operands) ++ rest)) :
    op.byte :: pad = Form.switchHead op start := by
  have hzeros := (hregular op (pad ++ operands ++ rest) rfl).padding hop
  rw [List.append_assoc, List.take_left' hpad] at hzeros
  rw [hzeros, Form.switchHead]

/-- The displacements to some offsets. -/
theorem mapM_displacement {label : Nat → Label} {offsetOf : Label → Except Malformation Nat}
    {targets : List Nat} {chunks : List Bytes}
    (hchunks : List.Forall₂ (fun (t : Nat) bs => bs = signed32 (t - (start : Int)) ∧ t ≤ length)
      targets chunks)
    (hoffsets : ∀ t ∈ targets, offsetOf (label t) = .ok t) :
    (targets.map label).mapM (Form.displacement offsetOf start) = .ok chunks := by
  rw [mapM_eq_ok_iff, List.forall₂_map_left_iff]
  refine forall₂_of_mem_left hchunks ?_
  rintro t ht bs ⟨rfl, -⟩
  exact displacement_of_offset start (hoffsets t ht)

/-- A table switch is written as it was read. -/
theorem rewritten_table {low high : Int32} {otherwise : Nat} {targets : List Nat} {pad : Bytes}
    {chunks : List Bytes} (hpad : pad.length = switchPadding start) (hotherwise : otherwise ≤ length)
    (hchunks : List.Forall₂ (fun (t : Nat) bs => bs = signed32 (t - (start : Int)) ∧ t ≤ length)
      targets chunks) :
    Rewritten pool length start (.tableSwitch low high otherwise targets, ⟨.tableswitch, false, none⟩)
      (Opcode.tableswitch.byte :: (pad ++ (signed32 (otherwise - (start : Int)) ++
        (word32 low.toUInt32 ++ (word32 high.toUInt32 ++ chunks.flatten))))) := by
  have hfour : List.Forall₂ (fun _ bs => bs.length = 4) targets chunks := by
    refine hchunks.imp ?_
    rintro t bs ⟨rfl, -⟩
    exact length_signed32 _
  -- Targets are in range whatever is written; that the bytes agree needs the padding to be zeros.
  refine ⟨List.cons_ne_nil _ _, rfl, ?_, ?_⟩
  · intro t ht
    rcases List.mem_cons.1 ht with rfl | ht
    · exact hotherwise
    · obtain ⟨bs, -, hbs⟩ := exists_of_mem_left hchunks ht
      exact hbs.2
  intro rest hregular label
  have hhead := padding_eq hpad (.inl rfl) hregular
  refine ⟨.table low high (label otherwise) (targets.map label), fun p _ => rfl, ?_, ?_⟩
  · simp [Form.size, length_flatten_of_forall₂ hfour, hpad]
    omega
  · intro offsetOf hoffsets
    constructor
    · have hfirst := displacement_of_offset start (hoffsets otherwise List.mem_cons_self)
      have hrest := mapM_displacement hchunks fun t ht => hoffsets t (List.mem_cons_of_mem _ ht)
      rw [Form.bytes]
      refine exceptBind_eq_ok_iff.2 ⟨_, hfirst, exceptBind_eq_ok_iff.2 ⟨_, hrest, ?_⟩⟩
      rw [← hhead, signed32_toInt, signed32_toInt]
      simp only [List.cons_append, List.append_assoc]
      rfl
    · exact nearJumps_of_ne (by simp)

/-- A number that is not negative is the count of as many items. -/
theorem toUInt32_toNat {n : Int32} (h : ¬n < 0) : n.toInt.toNat.toUInt32 = n.toUInt32 := by
  have hnonneg : 0 ≤ n.toInt := by
    rw [Int32.lt_iff_toInt_lt] at h
    exact Int.not_lt.1 h
  have hn : n.toInt = (n.toUInt32.toNat : Int).bmod (2 ^ 32) := BitVec.toInt_eq_toNat_bmod _
  have hlt := n.toUInt32.toNat_lt
  rw [Int.bmod_def] at hn
  have hsame : n.toInt.toNat = n.toUInt32.toNat := by omega
  rw [hsame]
  exact UInt32.ofNat_toNat

/-- A lookup switch is written as it was read. -/
theorem rewritten_lookup {otherwise : Nat} {keyed : List (Int32 × Nat)} {pad : Bytes}
    {chunks : List Bytes} (hpad : pad.length = switchPadding start) (hotherwise : otherwise ≤ length)
    (hchunks : List.Forall₂ (fun (c : Int32 × Nat) bs =>
      bs = word32 c.1.toUInt32 ++ signed32 (c.2 - (start : Int)) ∧ c.2 ≤ length) keyed chunks) :
    Rewritten pool length start (.lookupSwitch otherwise keyed, ⟨.lookupswitch, false, none⟩)
      (Opcode.lookupswitch.byte :: (pad ++ (signed32 (otherwise - (start : Int)) ++
        (count32 keyed.length ++ chunks.flatten)))) := by
  have height : List.Forall₂ (fun _ bs => bs.length = 8) keyed chunks := by
    refine hchunks.imp ?_
    rintro c bs ⟨rfl, -⟩
    simp
  -- Targets are in range whatever is written; that the bytes agree needs the padding to be zeros.
  refine ⟨List.cons_ne_nil _ _, rfl, ?_, ?_⟩
  · intro t ht
    rcases List.mem_cons.1 ht with rfl | ht
    · exact hotherwise
    · obtain ⟨c, hc, rfl⟩ := List.mem_map.1 ht
      obtain ⟨bs, -, hbs⟩ := exists_of_mem_left hchunks hc
      exact hbs.2
  intro rest hregular label
  have hhead := padding_eq hpad (.inr rfl) hregular
  refine ⟨.lookup (label otherwise) (keyed.map fun (k, t) => (k, label t)), fun p _ => rfl, ?_, ?_⟩
  · simp [Form.size, length_flatten_of_forall₂ height, hpad]
    omega
  · intro offsetOf hoffsets
    constructor
    · have hfirst := displacement_of_offset start (hoffsets otherwise List.mem_cons_self)
      have hrest : (keyed.map fun (k, t) => (k, label t)).mapM (fun c => do
          return signed32 c.1.toInt ++ (← Form.displacement offsetOf start c.2)) = .ok chunks := by
        rw [mapM_eq_ok_iff, List.forall₂_map_left_iff]
        refine forall₂_of_mem_left hchunks ?_
        rintro c hc bs ⟨rfl, -⟩
        have hoffset : offsetOf (label c.2) = .ok c.2 :=
          hoffsets c.2 (List.mem_cons_of_mem _ (List.mem_map_of_mem hc))
        rw [← signed32_toInt]
        exact exceptBind_eq_ok_iff.2 ⟨_, displacement_of_offset start hoffset, rfl⟩
      rw [Form.bytes]
      refine exceptBind_eq_ok_iff.2 ⟨_, hfirst, exceptBind_eq_ok_iff.2 ⟨_, hrest, ?_⟩⟩
      rw [← hhead, List.length_map]
      simp only [List.cons_append, List.append_assoc]
      rfl
    · exact nearJumps_of_ne (by simp)

/-- What is known of the operands of an instruction, given its opcode. -/
def OperandsRewritten (pool : Pool) (length start : Nat) (op : Opcode) (insn : Instruction Nat)
    (bs : Bytes) : Prop :=
  Rewritten pool length start (insn, ⟨op, false, none⟩) (op.byte :: bs)

/-- A switch with a table takes bytes that it is written with again. -/
theorem takes_readTableSwitch :
    Takes (readTableSwitch length start) (OperandsRewritten pool length start .tableswitch) := by
  refine (takes_bytes _).bind fun pad => takes_farTarget.bind fun otherwise => ?_
  refine takes_i32.bind fun low => takes_i32.bind fun high => ?_
  split
  · exact takes_fail
  · refine (takes_many takes_farTarget _).bind_pure ?_
    rintro targets bs ⟨chunks, rfl, -, hchunks⟩ _ rfl _ rfl _ ⟨rfl, hotherwise⟩ _ ⟨rfl, hpad⟩
    exact rewritten_table hpad hotherwise hchunks

/-- A switch with keys takes bytes that it is written with again. -/
theorem takes_readLookupSwitch :
    Takes (readLookupSwitch length start) (OperandsRewritten pool length start .lookupswitch) := by
  have hcase : Takes (do
      let key ← i32
      return (key, ← farTarget length start)) fun (c : Int32 × Nat) bs =>
        bs = word32 c.1.toUInt32 ++ signed32 (c.2 - (start : Int)) ∧ c.2 ≤ length := by
    refine takes_i32.bind fun key => takes_farTarget.bind_pure ?_
    rintro t bs ⟨rfl, ht⟩ _ rfl
    exact ⟨rfl, ht⟩
  refine (takes_bytes _).bind fun pad => takes_farTarget.bind fun otherwise => ?_
  refine takes_i32.bind fun count => ?_
  split
  · exact takes_fail
  · next hcount =>
    refine (takes_many hcase _).bind_pure ?_
    rintro keyed bs ⟨chunks, rfl, hlength, hchunks⟩ _ rfl _ ⟨rfl, hotherwise⟩ _ ⟨rfl, hpad⟩
    have hcount32 : word32 count.toUInt32 = count32 keyed.length := by
      rw [count32, hlength, toUInt32_toNat hcount]
    rw [hcount32]
    exact rewritten_lookup hpad hotherwise hchunks

/-- An instruction whose encoding its opcode determines is written as it was read. -/
theorem takes_readOperands (pool : Pool) (length start : Nat) (op : Opcode) :
    Takes (readOperands length start op) (OperandsRewritten pool length start op) := by
  -- One case for each branch of the reader, in its order.
  rw [readOperands]
  refine Takes.ite (fun _ => ?plain) fun _ => Takes.ite (fun hop => ?bipush) fun _ =>
    Takes.ite (fun hop => ?sipush) fun _ => Takes.ite (fun hop => ?newarray) fun _ =>
    Takes.ite (fun _ => ?slot) fun _ => Takes.ite (fun hop => ?shortLoad) fun _ =>
    Takes.ite (fun hop => ?shortStore) fun _ => Takes.ite (fun hop => ?increment) fun _ =>
    Takes.ite (fun hop => ?jump) fun _ => Takes.ite (fun hop => ?farGoto) fun _ =>
    Takes.ite (fun hop => ?farJsr) fun _ => Takes.ite (fun hop => ?table) fun _ =>
    Takes.ite (fun hop => ?lookup) fun _ => takes_fail
  case plain => exact takes_pure (rewritten_of_pure rfl rfl rfl fun _ => rfl)
  case bipush =>
    obtain rfl := beq_iff_eq.1 hop
    refine takes_i8.bind_pure ?_
    rintro n _ rfl
    exact rewritten_of_pure rfl rfl (congrArg (fun b => [_, b]) (toUInt8_toInt32_toInt8 n)) fun _ => rfl
  case sipush =>
    obtain rfl := beq_iff_eq.1 hop
    refine takes_i16.bind_pure ?_
    rintro n _ rfl
    exact rewritten_of_pure rfl rfl (congrArg (fun k => _ :: word16 k) (toUInt16_toInt32_toInt16 n))
      fun _ => rfl
  case newarray =>
    obtain rfl := beq_iff_eq.1 hop
    refine takes_u8.bind_pure ?_
    rintro n _ rfl
    exact rewritten_of_pure rfl rfl (congrArg (fun b => [_, b]) (UInt8.toUInt8_toUInt32 n)) fun _ => rfl
  case slot =>
    refine takes_u8.bind_pure ?_
    rintro n _ rfl
    exact rewritten_of_pure rfl rfl (slotBytes_normal op n) fun _ => rfl
  case shortLoad =>
    exact takes_pure (rewritten_of_pure rfl rfl (slotBytes_shortLoad op hop) fun _ => rfl)
  case shortStore =>
    exact takes_pure (rewritten_of_pure rfl rfl (slotBytes_shortStore op hop) fun _ => rfl)
  case increment =>
    obtain rfl := beq_iff_eq.1 hop
    refine takes_u8.bind fun n => takes_i8.bind_pure ?_
    rintro k _ rfl _ rfl
    exact rewritten_of_pure rfl rfl (incrementBytes_normal n k) fun _ => rfl
  case jump =>
    rw [← bind_assoc]
    refine takes_nearTarget.bind_pure ?_
    rintro t _ ⟨rfl, hnear, ht⟩
    exact rewritten_narrow hop hnear ht
  case farGoto =>
    obtain rfl := beq_iff_eq.1 hop
    refine takes_farTarget.bind_pure ?_
    rintro t _ ⟨rfl, ht⟩
    exact rewritten_far (.inl ⟨rfl, rfl⟩) ht
  case farJsr =>
    obtain rfl := beq_iff_eq.1 hop
    refine takes_farTarget.bind_pure ?_
    rintro t _ ⟨rfl, ht⟩
    exact rewritten_far (.inr ⟨rfl, rfl⟩) ht
  case table =>
    obtain rfl := beq_iff_eq.1 hop
    exact takes_readTableSwitch
  case lookup =>
    obtain rfl := beq_iff_eq.1 hop
    exact takes_readLookupSwitch

/-- An instruction with 16-bit operands is written as it was read. -/
theorem takes_readWide (pool : Pool) (length start : Nat) :
    Takes (readWide start) fun answer bs =>
      Rewritten pool length start answer (Opcode.wide.byte :: bs) := by
  refine takes_u8.bind fun b => Takes.ite (fun hop => ?_) fun _ => Takes.ite (fun _ => ?_) fun _ =>
    takes_fail
  · have hb : b = Opcode.iinc.byte := congrArg Opcode.byte (beq_iff_eq.1 hop)
    subst hb
    refine takes_u16.bind fun n => takes_i16.bind_pure ?_
    rintro k _ rfl _ rfl _ rfl
    exact rewritten_of_pure rfl rfl rfl fun _ => rfl
  · refine takes_u16.bind_pure ?_
    rintro n _ rfl _ rfl
    exact rewritten_of_pure rfl rfl (slotBytes_wide ⟨b⟩ n) fun _ => rfl

/-! ### References to the pool -/

/-- An index that still holds what it is needed for is taken again. -/
theorem reuse_of_holds {holds : Pool → UInt16 → Bool} {add : PoolM UInt16} {p : Pool} {i : UInt16}
    (h : holds p i = true) :
    reuse (some ⟨op, false, some i⟩) holds add p = (.ok i, p) := by
  rw [reuse]
  change (if holds p i = true then pure i else add : PoolM UInt16) p = _
  rw [if_pos h]
  rfl

/-- The test for an answer holds of it. -/
theorem answers_self {α : Type} [BEq α] [LawfulBEq α] {a : α} {answer : Except Malformation α}
    (h : answer = .ok a) : answers a answer = true := by
  rw [h]
  exact beq_self_eq_true a

/-- The index of a class that it was read with is used again. -/
theorem classIndex_of_classAt {p : Pool} {name : String} {i : UInt16}
    (hp : pool.Below p) (hi : pool.classAt i = .ok name) :
    classIndex (some ⟨op, false, some i⟩) name p = (.ok i, p) :=
  reuse_of_holds (answers_self (hp.classAt hi))

/-- The index of a member that it was read with is used again. -/
theorem memberIndex_of_memberAt {p : Pool} {m : Member} {kind : MemberKind} {i : UInt16}
    (hp : pool.Below p) (hi : pool.memberAt i = .ok (m, kind)) :
    memberIndex (some ⟨op, false, some i⟩) m kind p = (.ok i, p) :=
  reuse_of_holds (answers_self (hp.memberAt hi))

/-- What is known of an instruction that refers to the pool, given its opcode. -/
def ReferenceRewritten (pool : Pool) (length start : Nat) (op : Opcode)
    (answer : Instruction Nat × UInt16) (bs : Bytes) : Prop :=
  Rewritten pool length start (answer.1, ⟨op, false, some answer.2⟩) (op.byte :: bs)

/-- A constant that is not one of the values that are not numbers is pushed through its index. -/
theorem pushBytes_of_constantAt (op : Opcode) {p : Pool} {c : Constant} {i : UInt16} (hp : pool.Below p)
    (hi : pool.constantAt i = .ok c) (hc : ¬c.IsNan) :
    pushBytes (some ⟨op, false, some i⟩) c p =
      (.ok (if c.isWide then Opcode.ldc2W.byte :: word16 i
        else if i ≤ 0xff && !(op == .ldcW) then [Opcode.ldc.byte, i.toUInt8]
        else Opcode.ldcW.byte :: word16 i), p) := by
  have hholds : holdsConstant c p i = true := by
    rw [holdsConstant, hp.constantAt hi]
    exact Constant.agrees_self hc
  refine poolBind_of_eq_ok (reuse_of_holds hholds) ?_
  rw [Option.any_some]
  split
  · rfl
  · split
    · rfl
    · rfl

/-- A push of a constant is written as it was read. -/
theorem rewritten_push {c : Constant} {i : UInt16} (hi : pool.constantAt i = .ok c)
    (hop : (op = .ldc ∧ ∃ b : UInt8, i = b.toUInt16 ∧ bs = [b]) ∨
      (op = .ldcW ∨ op = .ldc2W) ∧ bs = word16 i) :
    ReferenceRewritten pool length start op (.push c, i) bs := by
  refine rewritten_of_fixed rfl rfl ?_
  intro rest hregular label p hp
  have hpushes : op = .ldc ∨ op = .ldcW ∨ op = .ldc2W := by tauto
  have hindex : pushedIndex op (bs ++ rest) = i ∧
      (if op == .ldc2W then Opcode.ldc2W.byte :: word16 i
        else if i ≤ 0xff && !(op == .ldcW) then [Opcode.ldc.byte, i.toUInt8]
        else Opcode.ldcW.byte :: word16 i) = op.byte :: bs := by
    rcases hop with ⟨rfl, b, rfl, rfl⟩ | ⟨rfl | rfl, rfl⟩
    · have hsmall : (decide (b.toUInt16 ≤ 0xff) && !(Opcode.ldc == Opcode.ldcW)) = true := by
        rw [Bool.and_eq_true, decide_eq_true_eq]
        exact ⟨toUInt16_le b, rfl⟩
      rw [if_neg (by decide), if_pos hsmall, UInt8.toUInt8_toUInt16]
      exact ⟨rfl, rfl⟩
    · rw [if_neg (by decide), if_neg (by simp)]
      exact ⟨index16_word16 i rest, rfl⟩
    · exact ⟨index16_word16 i rest, rfl⟩
  have hc : pool.constantAt (pushedIndex op (bs ++ rest)) = .ok c := hindex.1.symm ▸ hi
  have hpush := pushBytes_of_constantAt op hp hi (hregular.number hpushes c hc)
  rw [hregular.wide hpushes c hc, hindex.2] at hpush
  exact poolBind_of_eq_ok hpush rfl

/-- A field access is written as it was read. -/
theorem rewritten_field {m : Member} {kind : MemberKind} {i : UInt16}
    (hop : Opcode.between .getstatic .putfield op = true) (hi : pool.memberAt i = .ok (m, kind)) :
    ReferenceRewritten pool length start op (.field op m, i) (word16 i) := by
  refine rewritten_of_fixed rfl rfl ?_
  intro rest hregular label p hp
  have hm : pool.memberAt (index16 (word16 i ++ rest)) = .ok (m, kind) :=
    (index16_word16 i rest).symm ▸ hi
  rw [hregular.field hop m kind hm] at hi
  exact poolBind_of_eq_ok (memberIndex_of_memberAt hp hi) rfl

/-- A call is written as it was read. -/
theorem rewritten_invoke {m : Member} {kind : MemberKind} {i : UInt16} {reserved : Bytes}
    (hop : Opcode.between .invokevirtual .invokeinterface op = true)
    (hi : pool.memberAt i = .ok (m, kind))
    (hreserved : reserved.length = if op == .invokeinterface then 2 else 0) :
    ReferenceRewritten pool length start op (.invoke op m (kind == .interfaceMethod), i)
      (word16 i ++ reserved) := by
  refine rewritten_of_fixed rfl rfl ?_
  intro rest hregular label p hp
  -- The kind of the member that is read is the kind that is written, since the opcode and the entry
  -- agree.
  rw [List.append_assoc] at hregular
  have hm : pool.memberAt (index16 (word16 i ++ (reserved ++ rest))) = .ok (m, kind) :=
    (index16_word16 i _).symm ▸ hi
  have hkind : (if (kind == .interfaceMethod) = true then MemberKind.interfaceMethod else .method) =
      kind := by
    have hne := hregular.invoke hop m kind hm
    cases kind with
    | field => exact absurd rfl hne
    | method => rfl
    | interfaceMethod => rfl
  have hindex : memberIndex (some ⟨op, false, some i⟩) m
      (if (kind == .interfaceMethod) = true then .interfaceMethod else .method) p = (.ok i, p) := by
    rw [hkind]
    exact memberIndex_of_memberAt hp hi
  refine poolBind_of_eq_ok (poolBind_of_eq_ok hindex (b := op.byte :: (word16 i ++ reserved)) ?_) rfl
  -- Only a call through an interface has bytes behind its index, and these are the count of its
  -- slots.
  by_cases hinterface : op = .invokeinterface
  · subst hinterface
    have hcount := hregular.count rfl m kind hm
    have hdrop : ((word16 i ++ (reserved ++ rest)).drop 2).take 2 = reserved := by
      rw [List.drop_left' (length_word16 i)]
      exact List.take_left' hreserved
    rw [hdrop] at hcount
    rw [hcount]
    rfl
  · have hnot : (op == .invokeinterface) = false := by simpa using hinterface
    rw [hnot] at hreserved ⊢
    rw [List.eq_nil_of_length_eq_zero hreserved, List.append_nil]
    rfl

/-- A call of a call site is written as it was read. -/
theorem rewritten_invokeDynamic {call : DynamicCall} {i : UInt16} {reserved : Bytes}
    (hi : pool.dynamicAt i = .ok call) (hreserved : reserved.length = 2) :
    ReferenceRewritten pool length start .invokedynamic (.invokeDynamic call, i)
      (word16 i ++ reserved) := by
  refine rewritten_of_fixed rfl rfl ?_
  intro rest hregular label p hp
  rw [List.append_assoc] at hregular
  have hzeros := hregular.reserved rfl
  rw [List.drop_left' (length_word16 i), List.take_left' hreserved] at hzeros
  rw [hzeros]
  have hholds : (fun (p : Pool) i => answers call (p.dynamicAt i)) p i = true :=
    answers_self (hp.dynamicAt hi)
  exact poolBind_of_eq_ok (reuse_of_holds hholds) rfl

/-- An instruction that refers to the pool is written as it was read. -/
theorem takes_readReference (pool : Pool) (length start : Nat) (op : Opcode) :
    Takes (readReference pool op) (ReferenceRewritten pool length start op) := by
  rw [readReference]
  -- One case for each branch of the reader, in its order.
  refine Takes.ite (fun hop => ?ldc) fun _ => takes_u16.bind fun i =>
    Takes.ite (fun hop => ?push) fun _ => Takes.ite (fun hop => ?field) fun _ =>
    Takes.ite (fun hop => ?invokeDynamic) fun _ => Takes.ite (fun hop => ?newArrays) fun _ =>
    Takes.ite (fun hop => ?invoke) fun _ => ?ofClass
  case ldc =>
    obtain rfl := beq_iff_eq.1 hop
    refine (takes_u8.bind_pure ?_ : Takes (UInt8.toUInt16 <$> u8) fun i bs =>
      ∃ b : UInt8, i = b.toUInt16 ∧ bs = [b]).bind fun i => takes_require.bind_pure ?_
    · rintro b _ rfl
      exact ⟨b, rfl, rfl⟩
    · rintro c _ ⟨rfl, hc⟩ front hfront
      rw [List.append_nil]
      exact rewritten_push hc (.inl ⟨rfl, hfront⟩)
  case push =>
    refine takes_require.bind_pure ?_
    rintro c _ ⟨rfl, hc⟩ _ rfl
    rw [List.append_nil]
    exact rewritten_push hc (.inr ⟨by simp_all, rfl⟩)
  case field =>
    refine takes_require.bind_pure ?_
    rintro ⟨m, kind⟩ _ ⟨rfl, hm⟩ _ rfl
    rw [List.append_nil]
    exact rewritten_field hop hm
  case invokeDynamic =>
    obtain rfl := beq_iff_eq.1 hop
    refine (takes_bytes 2).bind fun reserved => takes_require.bind_pure ?_
    rintro call _ ⟨rfl, hcall⟩ _ ⟨rfl, hreserved⟩ _ rfl
    rw [List.append_nil]
    exact rewritten_invokeDynamic hcall hreserved
  case newArrays =>
    obtain rfl := beq_iff_eq.1 hop
    refine takes_require.bind fun name => takes_u8.bind_pure ?_
    rintro dims _ rfl _ ⟨rfl, hname⟩ _ rfl
    refine rewritten_of_fixed rfl rfl ?_
    intro rest _ label p hp
    exact poolBind_of_eq_ok (classIndex_of_classAt hp hname) rfl
  case invoke =>
    refine (takes_bytes _).bind fun reserved => takes_require.bind fun answer => takes_pure ?_
    rintro _ ⟨rfl, hm⟩ _ ⟨rfl, hreserved⟩ _ rfl
    rw [List.append_nil, List.append_nil]
    exact rewritten_invoke hop hm hreserved
  case ofClass =>
    refine takes_require.bind_pure ?_
    rintro name _ ⟨rfl, hname⟩ _ rfl
    rw [List.append_nil]
    refine rewritten_of_fixed rfl rfl ?_
    intro rest _ label p hp
    exact poolBind_of_eq_ok (classIndex_of_classAt hp hname) rfl

/-- Every instruction is written as it was read. -/
theorem takes_readInstruction :
    Takes (readInstruction pool length start) (Rewritten pool length start) := by
  refine takes_u8.bind fun b => Takes.ite (fun hop => ?_) fun _ => Takes.ite (fun _ => ?_) fun _ => ?_
  · have hb : b = Opcode.wide.byte := congrArg Opcode.byte (beq_iff_eq.1 hop)
    subst hb
    refine (takes_readWide pool length start).mono ?_
    rintro answer bs hwritten _ rfl
    exact hwritten
  · refine (takes_readReference pool length start ⟨b⟩).bind_pure ?_
    rintro answer bs hwritten _ rfl
    exact hwritten
  · refine (takes_readOperands pool length start ⟨b⟩).bind_pure ?_
    rintro insn bs hwritten _ rfl
    exact hwritten

end Rewritten

end Binary

end Unscramble
