import Unscramble.Binary.Form
import Unscramble.Proofs.Binary.Writing

/-! # Encoded instructions are read back

The form that is chosen for an instruction spells it: bytes that do not depend on offsets are read
as the instruction, with every greater pool. A form that a jump or switch waits with is the
instruction itself.

Main definitions: `Legal`, `Encodes`. Main statements: `yields_choose`, `Encodes.reads`. -/

namespace Unscramble.Binary

open Reader

/-! ### Small numbers -/

/-- A slot of 8 bits survives in one byte. -/
theorem toUInt16_toUInt8 {n : UInt16} (h : n ≤ 0xff) : n.toUInt8.toUInt16 = n := by
  apply UInt16.toNat_inj.1
  have hle : n.toNat ≤ 255 := h
  rw [UInt8.toNat_toUInt16, UInt16.toNat_toUInt8]
  omega

/-- A number from 0 to 255 survives in one byte. -/
theorem toInt32_toUInt8 {n : Int32} (h : 0 ≤ n.toInt) (h' : n.toInt ≤ 255) :
    n.toUInt32.toUInt8.toUInt32.toInt32 = n := by
  apply Int32.toInt_inj.1
  have hn : n.toInt = (n.toUInt32.toNat : Int).bmod (2 ^ 32) := BitVec.toInt_eq_toNat_bmod _
  have hread : n.toUInt32.toUInt8.toUInt32.toInt32.toInt =
      (n.toUInt32.toUInt8.toUInt32.toNat : Int).bmod (2 ^ 32) := BitVec.toInt_eq_toNat_bmod _
  have hlt := n.toUInt32.toNat_lt
  rw [UInt8.toNat_toUInt32, UInt32.toNat_toUInt8, Int.bmod_def] at hread
  rw [Int.bmod_def] at hn
  omega

/-- A number of 8 bits survives in one byte. -/
theorem toInt32_toInt8 {n : Int32} (h : -128 ≤ n.toInt) (h' : n.toInt ≤ 127) :
    n.toUInt32.toUInt8.toInt8.toInt32 = n := by
  apply Int32.toInt_inj.1
  have hn : n.toInt = (n.toUInt32.toNat : Int).bmod (2 ^ 32) := BitVec.toInt_eq_toNat_bmod _
  have hread : n.toUInt32.toUInt8.toInt8.toInt = (n.toUInt32.toUInt8.toNat : Int).bmod (2 ^ 8) :=
    BitVec.toInt_eq_toNat_bmod _
  have hlt := n.toUInt32.toNat_lt
  rw [UInt32.toNat_toUInt8, Int.bmod_def] at hread
  rw [Int.bmod_def] at hn
  rw [Int8.toInt_toInt32]
  omega

/-- A number of 16 bits survives in two bytes. -/
theorem toInt32_toInt16 {n : Int32} (h : -32768 ≤ n.toInt) (h' : n.toInt ≤ 32767) :
    n.toUInt32.toUInt16.toInt16.toInt32 = n := by
  apply Int32.toInt_inj.1
  have hn : n.toInt = (n.toUInt32.toNat : Int).bmod (2 ^ 32) := BitVec.toInt_eq_toNat_bmod _
  have hread : n.toUInt32.toUInt16.toInt16.toInt =
      (n.toUInt32.toUInt16.toNat : Int).bmod (2 ^ 16) := BitVec.toInt_eq_toNat_bmod _
  have hlt := n.toUInt32.toNat_lt
  rw [UInt32.toNat_toUInt16, Int.bmod_def] at hread
  rw [Int.bmod_def] at hn
  rw [Int16.toInt_toInt32]
  omega

/-- An amount of 8 bits survives in one byte. -/
theorem toInt16_toInt8 {n : Int16} (h : -128 ≤ n.toInt) (h' : n.toInt ≤ 127) :
    n.toUInt16.toUInt8.toInt8.toInt16 = n := by
  apply Int16.toInt_inj.1
  have hn : n.toInt = (n.toUInt16.toNat : Int).bmod (2 ^ 16) := BitVec.toInt_eq_toNat_bmod _
  have hread : n.toUInt16.toUInt8.toInt8.toInt = (n.toUInt16.toUInt8.toNat : Int).bmod (2 ^ 8) :=
    BitVec.toInt_eq_toNat_bmod _
  have hlt := n.toUInt16.toNat_lt
  rw [UInt16.toNat_toUInt8, Int.bmod_def] at hread
  rw [Int.bmod_def] at hn
  rw [Int8.toInt_toInt16]
  omega

/-! ### Opcodes -/

/-- What holds of all bytes holds of all opcodes. -/
theorem forall_opcode {P : Opcode → Prop} (h : ∀ n : Fin 256, P ⟨UInt8.ofFin n⟩) (op : Opcode) :
    P op :=
  h op.byte.toFin

/-- The opcodes of loads, stores and returns from subroutines. -/
def takesSlot (op : Opcode) : Bool :=
  op.isLoad || op.isStore || op == .ret

/-- The opcodes of branches, jumps and subroutine calls. -/
def leads (op : Opcode) : Bool :=
  op.isConditional || op == .goto || op == .jsr

/-- The opcodes of instructions that name a class. -/
def namesClass (op : Opcode) : Bool :=
  op == .new || op == .anewarray || op == .checkcast || op == .instanceof

/-- What tells the ways apart in which the operands behind an opcode are read. -/
structure OperandFacts (op : Opcode) : Prop where
  /-- An instruction of one byte has no prefix and does not refer to the pool. -/
  plain : isPlain op = true → (op == .wide) = false ∧ refersToPool op = false
  /-- Where the operand of a load or store is read. -/
  slot : takesSlot op = true → (op == .wide) = false ∧ refersToPool op = false ∧
    isPlain op = false ∧ (op == .bipush) = false ∧ (op == .sipush) = false ∧
    (op == .newarray) = false ∧ (op == .iinc) = false
  /-- Where the target of a jump is read. -/
  jump : leads op = true → (op == .wide) = false ∧ refersToPool op = false ∧ isPlain op = false ∧
    (op == .bipush) = false ∧ (op == .sipush) = false ∧ (op == .newarray) = false ∧
    takesSlot op = false ∧ Opcode.between .iload0 .aload3 op = false ∧
    Opcode.between .istore0 .astore3 op = false ∧ (op == .iinc) = false
  /-- Where the class of an instruction is read. -/
  ofClass : namesClass op = true → (op == .wide) = false ∧ refersToPool op = true ∧
    (op == .ldc) = false ∧ (op == .ldcW) = false ∧ (op == .ldc2W) = false ∧
    Opcode.between .getstatic .putfield op = false ∧ (op == .invokedynamic) = false ∧
    (op == .multianewarray) = false ∧ Opcode.between .invokevirtual .invokeinterface op = false
  /-- Where the member of a field access is read. -/
  field : Opcode.between .getstatic .putfield op = true → (op == .wide) = false ∧
    refersToPool op = true ∧ (op == .ldc) = false ∧ (op == .ldcW) = false ∧ (op == .ldc2W) = false
  /-- Where the member of a call is read. -/
  invoke : Opcode.between .invokevirtual .invokeinterface op = true → (op == .wide) = false ∧
    refersToPool op = true ∧ (op == .ldc) = false ∧ (op == .ldcW) = false ∧ (op == .ldc2W) = false ∧
    Opcode.between .getstatic .putfield op = false ∧ (op == .invokedynamic) = false ∧
    (op == .multianewarray) = false

/-- What the instruction set says of each opcode holds of its tables. -/
theorem operandFacts : ∀ op, OperandFacts op :=
  forall_opcode fun n =>
    { plain := by revert n; decide +kernel
      slot := by revert n; decide +kernel
      jump := by revert n; decide +kernel
      ofClass := by revert n; decide +kernel
      field := by revert n; decide +kernel
      invoke := by revert n; decide +kernel }

/-- The short form of a load or store stands for it. -/
theorem facts_of_compact (op : Opcode) (h : (op.isLoad || op.isStore) = true) (n : Fin 4) :
    let slot := UInt16.ofNat n
    let short := compactOpcode op slot
    (short == .wide) = false ∧ refersToPool short = false ∧ isPlain short = false ∧
      (short == .bipush) = false ∧ (short == .sipush) = false ∧ (short == .newarray) = false ∧
      takesSlot short = false ∧
      (Opcode.between .iload0 .aload3 short = true ∧
          expandShort .iload .iload0 short = .slot op slot ∨
        Opcode.between .iload0 .aload3 short = false ∧
          Opcode.between .istore0 .astore3 short = true ∧
          expandShort .istore .istore0 short = .slot op slot) := by
  revert op n
  apply forall_opcode
  decide +kernel

/-! ### Where operands are read -/

section Reads

variable {q : Pool} {length start : Nat} {op : Opcode} {insn : Instruction Nat} {bs : Bytes}

/-- An instruction whose encoding is determined by its opcode. -/
theorem reads_of_operands (op : Opcode) (hwide : (op == .wide) = false) (hpool : refersToPool op = false)
    (h : Reads (readOperands length start op) bs insn) :
    Reads (readInstruction q length start) (op.byte :: bs) (insn, ⟨op, false, none⟩) := by
  refine (reads_u8 op.byte).bind ?_
  simp only [hwide, hpool, Bool.false_eq_true, if_false]
  exact h.bind_pure fun insn => (insn, (⟨op, false, none⟩ : RawForm))

/-- An instruction that refers to the pool. -/
theorem reads_of_reference (op : Opcode) (hwide : (op == .wide) = false) (hpool : refersToPool op = true)
    {i : UInt16} (h : Reads (readReference q op) bs (insn, i)) :
    Reads (readInstruction q length start) (op.byte :: bs) (insn, ⟨op, false, some i⟩) := by
  refine (reads_u8 op.byte).bind ?_
  simp only [hwide, hpool, Bool.false_eq_true, if_false, if_true]
  exact h.bind_pure fun answer => (answer.1, (⟨op, false, some answer.2⟩ : RawForm))

/-- An instruction with 16-bit operands. -/
theorem reads_of_wide {answer : Instruction Nat × RawForm} (h : Reads (readWide start) bs answer) :
    Reads (readInstruction q length start) (Opcode.wide.byte :: bs) answer :=
  (reads_u8 Opcode.wide.byte).bind h

/-- A plain instruction is read back from its byte. -/
theorem reads_plain (h : isPlain op = true) :
    Reads (readInstruction q length start) [op.byte] (.plain op, ⟨op, false, none⟩) := by
  obtain ⟨hwide, hpool⟩ := (operandFacts op).plain h
  refine reads_of_operands _ hwide hpool ?_
  rw [readOperands, if_pos h]
  exact reads_pure _

/-- A push of a small number is read back. -/
theorem reads_immediate {n : Int32}
    (h : op = .bipush ∧ -128 ≤ n.toInt ∧ n.toInt ≤ 127 ∨
      op = .sipush ∧ -32768 ≤ n.toInt ∧ n.toInt ≤ 32767 ∨
      op = .newarray ∧ 0 ≤ n.toInt ∧ n.toInt ≤ 255) :
    Reads (readInstruction q length start) (immediateBytes op n)
      (.immediate op n, ⟨op, false, none⟩) := by
  rcases h with ⟨rfl, hlow, hhigh⟩ | ⟨rfl, hlow, hhigh⟩ | ⟨rfl, hlow, hhigh⟩
  · refine reads_of_operands _ rfl rfl ?_
    have hread := (reads_i8 n.toUInt32.toUInt8.toInt8).bind_pure fun k =>
      (Instruction.immediate Opcode.bipush k.toInt32 : Instruction Nat)
    rw [toInt32_toInt8 hlow hhigh] at hread
    exact hread
  · refine reads_of_operands _ rfl rfl ?_
    have hread := (reads_i16 n.toUInt32.toUInt16.toInt16).bind_pure fun k =>
      (Instruction.immediate Opcode.sipush k.toInt32 : Instruction Nat)
    rw [toInt32_toInt16 hlow hhigh] at hread
    exact hread
  · refine reads_of_operands _ rfl rfl ?_
    have hread := (reads_u8 n.toUInt32.toUInt8).bind_pure fun k =>
      (Instruction.immediate Opcode.newarray k.toUInt32.toInt32 : Instruction Nat)
    rw [toInt32_toUInt8 hlow hhigh] at hread
    exact hread

/-- A slot is read back from the opcode. -/
theorem reads_compact {slot : UInt16} (h : (op.isLoad || op.isStore) = true) (hslot : slot ≤ 3) :
    Reads (readInstruction q length start) [(compactOpcode op slot).byte]
      (.slot op slot, ⟨compactOpcode op slot, false, none⟩) := by
  have hfin : slot = UInt16.ofNat slot.toNat := (UInt16.ofNat_toNat).symm
  have hlt : slot.toNat < 4 := Nat.lt_succ_of_le hslot
  have hfacts := facts_of_compact op h ⟨slot.toNat, hlt⟩
  dsimp only at hfacts
  rw [← hfin] at hfacts
  obtain ⟨hwide, hpool, hplain, hbipush, hsipush, hnewarray, htakes, hcases⟩ := hfacts
  rw [takesSlot] at htakes
  refine reads_of_operands _ hwide hpool ?_
  rcases hcases with ⟨hload, hexpand⟩ | ⟨hload, hstore, hexpand⟩
  · simp only [readOperands, hplain, hbipush, hsipush, hnewarray, htakes, hload,
      Bool.false_eq_true, if_false, if_true, hexpand]
    exact reads_pure _
  · simp only [readOperands, hplain, hbipush, hsipush, hnewarray, htakes, hload, hstore,
      Bool.false_eq_true, if_false, if_true, hexpand]
    exact reads_pure _

/-- A form can hold a slot. -/
def SlotFits (op : Opcode) (slot : UInt16) : SlotForm → Prop
  | .compact => (op.isLoad || op.isStore) = true ∧ slot ≤ 3
  | .normal => slot ≤ 0xff
  | .wide => True

/-- The shortest form for a slot fits it. -/
theorem shortestSlotForm_fits {slot : UInt16} (h : takesSlot op = true) :
    SlotFits op slot (shortestSlotForm op slot) := by
  rw [shortestSlotForm, allowsCompact]
  split
  · next hcompact =>
    have hboth : op ≠ .ret ∧ slot ≤ 3 := by simpa using hcompact
    have hne : (op == .ret) = false := by simpa using hboth.1
    rw [takesSlot, hne, Bool.or_false] at h
    exact ⟨h, hboth.2⟩
  · split
    · next hbyte => exact hbyte
    · trivial

/-- The form that is chosen can hold the slot. -/
theorem slotForm_fits (slot : UInt16) (h : takesSlot op = true) (raw : Option RawForm) :
    SlotFits op slot (slotForm op slot raw) := by
  cases raw with
  | none => exact shortestSlotForm_fits h
  | some raw =>
    rw [slotForm]
    split
    · trivial
    · split
      · next hnormal =>
        have hboth : raw.op = op ∧ slot ≤ 0xff := by simpa using hnormal
        exact hboth.2
      · exact shortestSlotForm_fits h

/-- A slot is read back whatever form it has. -/
theorem reads_slot {slot : UInt16} (h : takesSlot op = true) (raw : Option RawForm) :
    ∃ raw', Reads (readInstruction q length start) (slotBytes op slot raw)
      (.slot op slot, raw') := by
  obtain ⟨hwide, hpool, hplain, hbipush, hsipush, hnewarray, hiinc⟩ := (operandFacts op).slot h
  have hfits := slotForm_fits slot h raw
  have htakes : (op.isLoad || op.isStore || op == .ret) = true := h
  rw [slotBytes]
  -- A slot is written in its opcode, as one byte, or as two behind the prefix.
  cases hform : slotForm op slot raw with
  | compact =>
    rw [hform] at hfits
    exact ⟨_, reads_compact hfits.1 hfits.2⟩
  | normal =>
    rw [hform] at hfits
    refine ⟨_, reads_of_operands _ hwide hpool ?_⟩
    simp only [readOperands, hplain, hbipush, hsipush, hnewarray, htakes, Bool.false_eq_true,
      if_false, if_true]
    have hread := (reads_u8 slot.toUInt8).bind_pure fun k =>
      (Instruction.slot op k.toUInt16 : Instruction Nat)
    rw [toUInt16_toUInt8 hfits] at hread
    exact hread
  | wide =>
    refine ⟨⟨op, true, none⟩, reads_of_wide ((reads_u8 op.byte).bind ?_)⟩
    simp only [hiinc, htakes, Bool.false_eq_true, if_false, if_true]
    exact (reads_u16 slot).bind_pure fun k =>
      ((Instruction.slot op k : Instruction Nat), (⟨op, true, none⟩ : RawForm))

/-- An increment is read back whatever form it has. -/
theorem reads_increment (slot : UInt16) (amount : Int16) (raw : Option RawForm) :
    ∃ raw', Reads (readInstruction q length start) (incrementBytes slot amount raw)
      (.increment slot amount, raw') := by
  rw [incrementBytes]
  split
  · refine ⟨⟨.iinc, true, none⟩, reads_of_wide ((reads_u8 Opcode.iinc.byte).bind ?_)⟩
    exact (reads_u16 slot).bind ((reads_i16 amount).bind_pure fun k =>
      ((Instruction.increment slot k : Instruction Nat), (⟨.iinc, true, none⟩ : RawForm)))
  · next hnarrow =>
    have hfits : slot ≤ 0xff ∧ -128 ≤ amount.toInt ∧ amount.toInt ≤ 127 := by
      simp only [Bool.or_eq_true, decide_eq_true_eq, not_or] at hnarrow
      obtain ⟨⟨⟨-, hslot⟩, hlow⟩, hhigh⟩ := hnarrow
      refine ⟨UInt16.not_lt.1 hslot, ?_, ?_⟩
      · exact Int16.le_iff_toInt_le.1 (Int16.not_lt.1 hlow)
      · exact Int16.le_iff_toInt_le.1 (Int16.not_lt.1 hhigh)
    refine ⟨⟨.iinc, false, none⟩, reads_of_operands .iinc rfl rfl ?_⟩
    have hamount := (reads_i8 amount.toUInt16.toUInt8.toInt8).bind_pure fun k =>
      (Instruction.increment slot.toUInt8.toUInt16 k.toInt16 : Instruction Nat)
    rw [toInt16_toInt8 hfits.2.1 hfits.2.2] at hamount
    rw [toUInt16_toUInt8 hfits.1] at hamount
    refine (reads_u8 slot.toUInt8).bind ?_
    rw [toUInt16_toUInt8 hfits.1]
    exact hamount

/-- A push of a constant is read back from its index. -/
theorem reads_push {c : Constant} {i : UInt16} (hi : q.constantAt i = .ok c) :
    (∃ raw, Reads (readInstruction q length start) (Opcode.ldc2W.byte :: word16 i) (.push c, raw)) ∧
      (∃ raw, Reads (readInstruction q length start) (Opcode.ldcW.byte :: word16 i) (.push c, raw)) ∧
      (i ≤ 0xff → ∃ raw, Reads (readInstruction q length start) [Opcode.ldc.byte, i.toUInt8]
        (.push c, raw)) := by
  have hpush : Reads (do return (Instruction.push (← require (q.constantAt i)), i))
      [] ((Instruction.push c : Instruction Nat), i) :=
    (reads_require hi).bind_pure fun c => ((Instruction.push c : Instruction Nat), i)
  refine ⟨⟨_, reads_of_reference .ldc2W rfl rfl (i := i) ?_⟩,
    ⟨_, reads_of_reference .ldcW rfl rfl (i := i) ?_⟩,
    fun hbyte => ⟨_, reads_of_reference .ldc rfl rfl (i := i) ?_⟩⟩
  · exact (reads_u16 i).bind_nil hpush
  · exact (reads_u16 i).bind_nil hpush
  · have hindex := (reads_u8 i.toUInt8).map UInt8.toUInt16
    rw [toUInt16_toUInt8 hbyte] at hindex
    exact hindex.bind_nil hpush

/-- An instruction with a class is read back where the class stands. -/
theorem reads_ofClass {name : String} {i : UInt16} (hop : namesClass op = true)
    (hi : q.classAt i = .ok name) :
    Reads (readInstruction q length start) (op.byte :: word16 i)
      (.ofClass op name, ⟨op, false, some i⟩) := by
  obtain ⟨hwide, hpool, hldc, hldcW, hldc2W, hfield, hdynamic, harrays, hinvoke⟩ :=
    (operandFacts op).ofClass hop
  refine reads_of_reference op hwide hpool ?_
  simp only [readReference, hldc, hldcW, hldc2W, hfield, hdynamic, harrays, hinvoke,
    Bool.false_eq_true, Bool.or_self, if_false]
  exact (reads_u16 i).bind_nil ((reads_require hi).bind_pure fun name =>
    ((Instruction.ofClass op name : Instruction Nat), i))

/-- An access to a field is read back where the field stands. -/
theorem reads_field {m : Member} {kind : MemberKind} {i : UInt16}
    (hop : Opcode.between .getstatic .putfield op = true) (hi : q.memberAt i = .ok (m, kind)) :
    Reads (readInstruction q length start) (op.byte :: word16 i)
      (.field op m, ⟨op, false, some i⟩) := by
  obtain ⟨hwide, hpool, hldc, hldcW, hldc2W⟩ := (operandFacts op).field hop
  refine reads_of_reference op hwide hpool ?_
  simp only [readReference, hldc, hldcW, hldc2W, hop, Bool.false_eq_true, Bool.or_self, if_false,
    if_true]
  exact (reads_u16 i).bind_nil ((reads_require hi).bind_pure fun answer =>
    ((Instruction.field op answer.1 : Instruction Nat), i))

/-- A call is read back; behind one through an interface stand two bytes that are passed over. -/
theorem reads_invoke {m : Member} {kind : MemberKind} {i : UInt16}
    (hop : Opcode.between .invokevirtual .invokeinterface op = true)
    (hi : q.memberAt i = .ok (m, kind)) (reserved : Bytes)
    (hreserved : reserved.length = if op == .invokeinterface then 2 else 0) :
    Reads (readInstruction q length start) (op.byte :: (word16 i ++ reserved))
      (.invoke op m (kind == .interfaceMethod), ⟨op, false, some i⟩) := by
  obtain ⟨hwide, hpool, hldc, hldcW, hldc2W, hfield, hdynamic, harrays⟩ :=
    (operandFacts op).invoke hop
  refine reads_of_reference op hwide hpool ?_
  simp only [readReference, hldc, hldcW, hldc2W, hfield, hdynamic, harrays, hop,
    Bool.false_eq_true, Bool.or_self, if_false, if_true]
  refine (reads_u16 i).bind ((reads_bytes hreserved).bind_nil ?_)
  exact (reads_require hi).bind_pure fun answer =>
    ((Instruction.invoke op answer.1 (answer.2 == .interfaceMethod) : Instruction Nat), i)

/-- A dynamic call is read back where it stands, whatever the two bytes behind it are. -/
theorem reads_invokeDynamic {call : DynamicCall} {i : UInt16} (hi : q.dynamicAt i = .ok call)
    (reserved : Bytes) (hreserved : reserved.length = 2) :
    Reads (readInstruction q length start) (Opcode.invokedynamic.byte :: (word16 i ++ reserved))
      (.invokeDynamic call, ⟨.invokedynamic, false, some i⟩) := by
  refine reads_of_reference .invokedynamic rfl rfl ?_
  refine (reads_u16 i).bind ((reads_bytes hreserved).bind_nil ?_)
  exact (reads_require hi).bind_pure fun call =>
    ((Instruction.invokeDynamic call : Instruction Nat), i)

/-- An instruction for arrays of several dimensions is read back where the class stands. -/
theorem reads_newArrays {name : String} {i : UInt16} (hi : q.classAt i = .ok name)
    (dims : UInt8) :
    Reads (readInstruction q length start) (Opcode.multianewarray.byte :: (word16 i ++ [dims]))
      (.newArrays name dims, ⟨.multianewarray, false, some i⟩) := by
  refine reads_of_reference .multianewarray rfl rfl ?_
  have hname : Reads (do
      let name ← require (q.classAt i)
      return (Instruction.newArrays name (← u8), i)) ([] ++ [dims])
      ((Instruction.newArrays name dims : Instruction Nat), i) :=
    (reads_require hi).bind ((reads_u8 dims).bind_pure fun dims =>
      ((Instruction.newArrays name dims : Instruction Nat), i))
  exact (reads_u16 i).bind hname

end Reads

/-! ### Legal instructions -/

/-- A constant is one of the two zeros of a floating-point format. -/
def IsZero : Constant → Prop
  | .float bits => Decimal.single.magnitude bits.toNat = .zero
  | .double bits => Decimal.double.magnitude bits.toNat = .zero
  | _ => False

/-- Two numbers that are compared as equal have the same bits, unless they are zeros. -/
theorem eq_of_sameNumber {f : Decimal.Format} {a b : Nat}
    (h : Constant.sameNumber f a b = true) (hb : f.magnitude b ≠ .zero) : a = b := by
  rw [Constant.sameNumber] at h
  split at h
  · cases h
  · next hzero => exact absurd hzero hb
  · exact beq_iff_eq.1 h

/-- Constants that agree are the same, unless they are zeros. -/
theorem eq_of_agrees {a c : Constant} (h : a.agrees c = true) (hc : ¬IsZero c) : a = c := by
  unfold Constant.agrees at h
  split at h
  · rw [UInt32.toNat_inj.1 (eq_of_sameNumber h hc)]
  · rw [UInt64.toNat_inj.1 (eq_of_sameNumber h hc)]
  · exact beq_iff_eq.1 h

/-- An instruction can be written above a given pool, given how it was encoded: its opcode belongs
to it, its operand fits, and the encoding that it was read from does not mislead. -/
def Legal (base : Pool) (raw : Option RawForm) : Instruction Label → Prop
  | .label | .line _ | .increment _ _ | .invokeDynamic _ | .newArrays _ _ | .lookupSwitch _ _ =>
    True
  | .plain op => isPlain op = true
  | .immediate op n =>
    op = .bipush ∧ -128 ≤ n.toInt ∧ n.toInt ≤ 127 ∨
      op = .sipush ∧ -32768 ≤ n.toInt ∧ n.toInt ≤ 32767 ∨
      op = .newarray ∧ 0 ≤ n.toInt ∧ n.toInt ≤ 255
  | .slot op _ => takesSlot op = true
  | .jump op _ =>
    leads op = true ∧ ∀ r, raw = some r → r.op = .gotoW ∨ r.op = .jsrW → op = .goto ∨ op = .jsr
  | .push c =>
    Pool.FitsHandle c ∧
      (IsZero c → ∀ i, raw.bind (·.poolIndex) = some i → base.constantAt i = .ok c)
  | .ofClass op _ => namesClass op = true
  | .field op _ => Opcode.between .getstatic .putfield op = true
  | .invoke op _ _ => Opcode.between .invokevirtual .invokeinterface op = true
  | .tableSwitch low high _ targets => (targets.length : Int) = high.toInt - low.toInt + 1 ∧ low ≤ high

/-! ### Chosen forms -/

/-- A form spells an instruction. -/
inductive Encodes (q : Pool) : Instruction Label → Form → Prop
  /-- A label or line marker has no bytes. -/
  | marker {insn : Instruction Label} (h : insn.isReal = false) : Encodes q insn (.fixed [])
  /-- Bytes that do not depend on offsets. -/
  | fixed {insn : Instruction Label} {bs : Bytes} (hreal : insn.isReal = true)
      (hmentioned : insn.mentioned = []) (h : ∀ (f : Label → Nat) (length start : Nat),
        ∃ raw, Reads (readInstruction q length start) bs (insn.map f, raw)) :
      Encodes q insn (.fixed bs)
  /-- A jump, which is wide only if it can be. -/
  | jump {op : Opcode} {target : Label} {wide : Bool} (h : leads op = true)
      (hwide : wide = true → op = .goto ∨ op = .jsr) :
      Encodes q (.jump op target) (.jump op target wide)
  /-- A table switch with as many targets as keys. -/
  | table {low high : Int32} {otherwise : Label} {targets : List Label}
      (h : (targets.length : Int) = high.toInt - low.toInt + 1) (hle : low ≤ high) :
      Encodes q (.tableSwitch low high otherwise targets) (.table low high otherwise targets)
  /-- A lookup switch. -/
  | lookup (otherwise : Label) (cases : List (Int32 × Label)) :
      Encodes q (.lookupSwitch otherwise cases) (.lookup otherwise cases)

section Choose

variable {base : Pool}

/-- An index is taken again if it still holds what it is needed for, and otherwise added. -/
theorem yields_reuse {raw : Option RawForm} {holds : Pool → UInt16 → Bool} {add : PoolM UInt16}
    {post : UInt16 → Pool → Prop} (hadd : Yields base add post)
    (hholds : ∀ p q i, raw.bind (·.poolIndex) = some i → base.Below p → p.Below q →
      holds p i = true → post i q) :
    Yields base (reuse raw holds add) post := by
  intro p a p' hp hbase h
  cases hraw : raw.bind (·.poolIndex) with
  | none =>
    rw [reuse, hraw] at h
    exact hadd p a p' hp hbase h
  | some i =>
    rw [reuse, hraw] at h
    change (if holds p i = true then pure i else add : PoolM UInt16) p = _ at h
    by_cases hi : holds p i = true
    · rw [if_pos hi] at h
      cases h
      exact ⟨hp, Pool.Below.refl p, fun q hq => hholds p q a hraw hbase hq hi⟩
    · rw [if_neg hi] at h
      exact hadd p a p' hp hbase h

/-- The test for an answer finds it. -/
theorem eq_ok_of_answers {α : Type} [BEq α] [LawfulBEq α] {expected : α}
    {answer : Except Malformation α} (h : answers expected answer = true) :
    answer = .ok expected := by
  cases answer with
  | error e => cases h
  | ok a => rw [beq_iff_eq.1 (show (a == expected) = true from h)]

/-- The index of a class is one where it stands. -/
theorem yields_classIndex (raw : Option RawForm) (name : String) :
    Yields base (classIndex raw name) fun i q => q.classAt i = .ok name := by
  refine yields_reuse ((Pool.yields_ofClass name).mono fun i q hi => hi.2) ?_
  intro p q i _ _ hq hi
  exact hq.classAt (eq_ok_of_answers hi)

/-- The index of a member is one where it stands. -/
theorem yields_memberIndex (raw : Option RawForm) (m : Member) (kind : MemberKind) :
    Yields base (memberIndex raw m kind) fun i q => q.memberAt i = .ok (m, kind) := by
  refine yields_reuse ((Pool.yields_member m kind).mono fun i q hi => hi.2) ?_
  intro p q i _ _ hq hi
  exact hq.memberAt (eq_ok_of_answers hi)

/-- The index of a constant that is pushed answers this constant, not only one that agrees. -/
theorem yields_pushIndex {raw : Option RawForm} {c : Constant} (hc : Pool.FitsHandle c)
    (hzero : IsZero c → ∀ i, raw.bind (·.poolIndex) = some i → base.constantAt i = .ok c) :
    Yields base (reuse raw (holdsConstant c) (Pool.constant c)) fun i q =>
      q.constantAt i = .ok c := by
  refine yields_reuse ((Pool.yields_constant hc).mono fun i q hi => hi.2) ?_
  intro p q i hraw hbase hq hi
  by_cases hz : IsZero c
  · exact (hbase.trans hq).constantAt (hzero hz i hraw)
  · rw [holdsConstant] at hi
    split at hi
    · next other hother =>
      rw [← eq_of_agrees hi hz]
      exact hq.constantAt hother
    · cases hi

/-- A push of a constant is read back as one. -/
theorem yields_pushBytes {raw : Option RawForm} {c : Constant} (hc : Pool.FitsHandle c)
    (hzero : IsZero c → ∀ i, raw.bind (·.poolIndex) = some i → base.constantAt i = .ok c) :
    Yields base (pushBytes raw c) fun bs q => ∀ length start,
      ∃ raw, Reads (readInstruction q length start) bs (.push c, raw) := by
  refine (yields_pushIndex hc hzero).bind fun i => ?_
  split
  · exact yields_pure fun q hi length start => (reads_push hi).1
  · split
    · next hshort =>
      have hbyte : i ≤ 0xff := by
        rw [Bool.and_eq_true, decide_eq_true_eq] at hshort
        exact hshort.1
      exact yields_pure fun q hi length start => (reads_push hi).2.2 hbyte
    · exact yields_pure fun q hi length start => (reads_push hi).2.1

/-- A call is read back as one. -/
theorem yields_invokeBytes {op : Opcode} (raw : Option RawForm) (m : Member) (viaInterface : Bool)
    (hop : Opcode.between .invokevirtual .invokeinterface op = true) :
    Yields base (invokeBytes raw op m viaInterface) fun bs q => ∀ length start,
      ∃ raw, Reads (readInstruction q length start) bs (.invoke op m viaInterface, raw) := by
  have hkind : ((if viaInterface = true then MemberKind.interfaceMethod else .method) ==
      .interfaceMethod) = viaInterface := by
    cases viaInterface <;> rfl
  refine (yields_memberIndex raw m _).bind fun i => ?_
  split
  · next hinterface =>
    refine yields_pure fun q hi length start => ⟨⟨op, false, some i⟩, ?_⟩
    rw [← hkind]
    exact reads_invoke hop hi _ (by simp [hinterface])
  · next hplain =>
    refine yields_pure fun q hi length start => ⟨⟨op, false, some i⟩, ?_⟩
    rw [← hkind]
    exact reads_invoke hop hi [] (by simp [hplain])

/-- The form that is chosen for an instruction spells it. -/
theorem yields_choose {insn : Instruction Label} {raw : Option RawForm}
    (h : Legal base raw insn) :
    Yields base (Form.choose insn raw) fun form q => Encodes q insn form := by
  -- Where the pool is asked for an entry, what the form spells is known for later pools only.
  cases insn with
  | label => exact yields_pure fun q => .marker rfl
  | line n => exact yields_pure fun q => .marker rfl
  | plain op => exact yields_pure fun q => .fixed rfl rfl fun f length start => ⟨_, reads_plain h⟩
  | immediate op n =>
    exact yields_pure fun q => .fixed rfl rfl fun f length start => ⟨_, reads_immediate h⟩
  | slot op n => exact yields_pure fun q => .fixed rfl rfl fun f length start => reads_slot h raw
  | increment n k =>
    exact yields_pure fun q => .fixed rfl rfl fun f length start => reads_increment n k raw
  | jump op target =>
    refine yields_pure fun q => .jump h.1 ?_
    intro hwide
    cases raw with
    | none => cases hwide
    | some r =>
      have hop : r.op = .gotoW ∨ r.op = .jsrW := by simpa using hwide
      exact h.2 r rfl hop
  | push c =>
    refine (yields_pushBytes h.1 h.2).bind_pure ?_
    intro bs q hread
    exact .fixed rfl rfl fun f length start => hread length start
  | ofClass op name =>
    refine (yields_classIndex raw name).bind_pure ?_
    intro i q hi
    exact .fixed rfl rfl fun f length start => ⟨_, reads_ofClass h hi⟩
  | field op m =>
    refine (yields_memberIndex raw m .field).bind_pure ?_
    intro i q hi
    exact .fixed rfl rfl fun f length start => ⟨_, reads_field h hi⟩
  | invoke op m viaInterface =>
    refine (yields_invokeBytes raw m viaInterface h).bind_pure ?_
    intro bs q hread
    exact .fixed rfl rfl fun f length start => hread length start
  | invokeDynamic call =>
    have hindex : Yields base
        (reuse raw (fun p i => answers call (p.dynamicAt i)) (Pool.invokeDynamic call))
        fun i q => q.dynamicAt i = .ok call := by
      refine yields_reuse ((Pool.yields_invokeDynamic call).mono fun i q hi => hi.2) ?_
      intro p q i _ _ hq hi
      exact hq.dynamicAt (eq_ok_of_answers hi)
    refine hindex.bind_pure ?_
    intro i q hi
    exact .fixed rfl rfl fun f length start => ⟨_, reads_invokeDynamic hi [0, 0] rfl⟩
  | newArrays name dims =>
    refine (yields_classIndex raw name).bind_pure ?_
    intro i q hi
    exact .fixed rfl rfl fun f length start => ⟨_, reads_newArrays hi dims⟩
  | tableSwitch low high otherwise targets => exact yields_pure fun q => .table h.1 h.2
  | lookupSwitch otherwise cases => exact yields_pure fun q => .lookup otherwise cases

end Choose

end Unscramble.Binary
