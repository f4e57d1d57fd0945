import Unscramble.Binary.InstructionReader

/-! # Encoded forms

How an instruction is going to be encoded. Most instructions have their bytes at once; those that
lead elsewhere have to wait until all offsets are known. An instruction that was read from a class
file keeps the form it had there as long as that form still describes it, and so does an index into
the pool.

Main definitions: `Form`, `Form.choose`, `Form.size`, `Form.bytes`. -/

namespace Unscramble.Binary

/-- The encoded form of an instruction. -/
inductive Form where
  /-- Bytes that do not depend on offsets. Labels and line markers have none. -/
  | fixed (bytes : Bytes)
  /-- A jump with a displacement of 16 bits, or of 32 if it is wide. -/
  | jump (op : Opcode) (target : Label) (wide : Bool)
  /-- A table switch. -/
  | table (low high : Int32) (otherwise : Label) (targets : List Label)
  /-- A lookup switch. -/
  | lookup (otherwise : Label) (cases : List (Int32 × Label))
deriving Repr, Inhabited

/-- How the slot of a load or store is encoded. -/
inductive SlotForm where
  /-- In the opcode. -/
  | compact
  /-- In one byte. -/
  | normal
  /-- In two bytes. -/
  | wide
deriving DecidableEq, Repr, Inhabited

/-- The opcode that holds one of the first four slots. -/
def compactOpcode (op : Opcode) (slot : UInt16) : Opcode :=
  let slot := if slot ≤ 3 then slot.toUInt8 else 3
  if op.isLoad then ⟨Opcode.iload0.byte + (op.byte - Opcode.iload.byte) * 4 + slot⟩
  else if op.isStore then ⟨Opcode.istore0.byte + (op.byte - Opcode.istore.byte) * 4 + slot⟩
  else op

/-- Whether a slot can be encoded in the opcode. -/
def allowsCompact (op : Opcode) (slot : UInt16) : Bool :=
  op != .ret && slot ≤ 3

/-- The shortest encoding of a slot. -/
def shortestSlotForm (op : Opcode) (slot : UInt16) : SlotForm :=
  if allowsCompact op slot then .compact else if slot ≤ 0xff then .normal else .wide

/-- The encoding of a slot: the one it was read from if that can hold it, or the shortest one. -/
def slotForm (op : Opcode) (slot : UInt16) : Option RawForm → SlotForm
  | none => shortestSlotForm op slot
  | some raw =>
    if raw.wide && raw.op == op then .wide
    else if raw.op == op && slot ≤ 0xff then .normal
    else shortestSlotForm op slot

/-- The bytes of a load, a store or a return from a subroutine. -/
def slotBytes (op : Opcode) (slot : UInt16) (raw : Option RawForm) : Bytes :=
  match slotForm op slot raw with
  | .compact => [(compactOpcode op slot).byte]
  | .normal => [op.byte, slot.toUInt8]
  | .wide => [Opcode.wide.byte, op.byte] ++ word16 slot

/-- The bytes of an increment. -/
def incrementBytes (slot : UInt16) (amount : Int16) (raw : Option RawForm) : Bytes :=
  if raw.any (·.wide) || 0xff < slot || amount < -128 || 127 < amount then
    [Opcode.wide.byte, Opcode.iinc.byte] ++ word16 slot ++ word16 amount.toUInt16
  else [Opcode.iinc.byte, slot.toUInt8, amount.toUInt16.toUInt8]

/-- The bytes of a push of a small number, or of the element type of an array. -/
def immediateBytes (op : Opcode) (operand : Int32) : Bytes :=
  if op == .sipush then op.byte :: word16 operand.toUInt32.toUInt16
  else [op.byte, operand.toUInt32.toUInt8]

/-- The pool index that an instruction was read with if it still holds what the instruction needs;
otherwise the index of what is added. -/
def reuse (raw : Option RawForm) (holds : Pool → UInt16 → Bool) (add : PoolM UInt16) :
    PoolM UInt16 := do
  match raw.bind (·.poolIndex) with
  | none => add
  | some i => if holds (← get) i then return i else add

/-- Whether an index answers a given value. -/
def answers {α : Type} [BEq α] (expected : α) : Except Malformation α → Bool
  | .ok a => a == expected
  | .error _ => false

/-- The pool index of a class. -/
def classIndex (raw : Option RawForm) (name : String) : PoolM UInt16 :=
  reuse raw (fun p i => answers name (p.classAt i)) (Pool.ofClass name)

/-- The pool index of a member. -/
def memberIndex (raw : Option RawForm) (m : Member) (kind : MemberKind) : PoolM UInt16 :=
  reuse raw (fun p i => answers (m, kind) (p.memberAt i)) (Pool.member m kind)

/-- Whether an index answers a constant that agrees with a given one. -/
def holdsConstant (c : Constant) (p : Pool) (i : UInt16) : Bool :=
  match p.constantAt i with
  | .ok other => other.agrees c
  | .error _ => false

/-- The bytes of a push of a constant. -/
def pushBytes (raw : Option RawForm) (c : Constant) : PoolM Bytes := do
  let i ← reuse raw (holdsConstant c) (Pool.constant c)
  if c.isWide then return Opcode.ldc2W.byte :: word16 i
  else if i ≤ 0xff && !raw.any (·.op == .ldcW) then return [Opcode.ldc.byte, i.toUInt8]
  else return Opcode.ldcW.byte :: word16 i

/-- The bytes of a call. A call through an interface tells how many slots its arguments take. -/
def invokeBytes (raw : Option RawForm) (op : Opcode) (m : Member) (viaInterface : Bool) :
    PoolM Bytes := do
  let i ← memberIndex raw m (if viaInterface then .interfaceMethod else .method)
  let head := op.byte :: word16 i
  if op == .invokeinterface then
    return head ++ [(1 + Descriptor.argumentSlots m.descriptor).toUInt8, 0]
  else return head

namespace Form

/-- Chooses the form of an instruction. What it refers to joins the pool. -/
def choose (insn : Instruction Label) (raw : Option RawForm) : PoolM Form := do
  match insn with
  | .label | .line _ => return .fixed []
  | .plain op => return .fixed [op.byte]
  | .immediate op operand => return .fixed (immediateBytes op operand)
  | .slot op slot => return .fixed (slotBytes op slot raw)
  | .increment slot amount => return .fixed (incrementBytes slot amount raw)
  | .jump op target => return .jump op target (raw.any fun r => r.op == .gotoW || r.op == .jsrW)
  | .push c => return .fixed (← pushBytes raw c)
  | .ofClass op name => return .fixed (op.byte :: word16 (← classIndex raw name))
  | .field op m => return .fixed (op.byte :: word16 (← memberIndex raw m .field))
  | .invoke op m viaInterface => return .fixed (← invokeBytes raw op m viaInterface)
  | .invokeDynamic call =>
    let i ← reuse raw (fun p i => answers call (p.dynamicAt i)) (Pool.invokeDynamic call)
    return .fixed (Opcode.invokedynamic.byte :: word16 i ++ [0, 0])
  | .newArrays name dims =>
    return .fixed (Opcode.multianewarray.byte :: word16 (← classIndex raw name) ++ [dims])
  | .tableSwitch low high otherwise targets => return .table low high otherwise targets
  | .lookupSwitch otherwise cases => return .lookup otherwise cases

/-- The number of bytes of a form that starts at an offset. -/
def size (start : Nat) : Form → Nat
  | .fixed bytes => bytes.length
  | .jump _ _ wide => if wide then 5 else 3
  | .table _ _ _ targets => 1 + switchPadding start + 12 + 4 * targets.length
  | .lookup _ cases => 1 + switchPadding start + 8 + 8 * cases.length

/-- The bytes in front of the operands of a switch. -/
def switchHead (op : Opcode) (start : Nat) : Bytes :=
  op.byte :: List.replicate (switchPadding start) 0

/-- The displacement to a label as a 32-bit word. -/
def displacement (offsetOf : Label → Except Malformation Nat) (start : Nat) (label : Label) :
    Except Malformation Bytes := do
  return signed32 ((← offsetOf label : Nat) - (start : Int))

/-- The bytes of a form that starts at an offset, given the offsets of the labels. -/
def bytes (offsetOf : Label → Except Malformation Nat) (start : Nat) :
    Form → Except Malformation Bytes
  | .fixed bytes => return bytes
  | .jump op target true => do
    let far := if op == .goto then Opcode.gotoW else Opcode.jsrW
    return far.byte :: (← displacement offsetOf start target)
  | .jump op target false => do
    return op.byte :: signed16 ((← offsetOf target : Nat) - (start : Int))
  | .table low high otherwise targets => do
    let first ← displacement offsetOf start otherwise
    let rest ← targets.mapM (displacement offsetOf start)
    return switchHead .tableswitch start ++ first ++ signed32 low.toInt ++ signed32 high.toInt ++
      rest.flatten
  | .lookup otherwise cases => do
    let first ← displacement offsetOf start otherwise
    let rest ← cases.mapM fun (key, label) => do
      return signed32 key.toInt ++ (← displacement offsetOf start label)
    return switchHead .lookupswitch start ++ first ++ count32 cases.length ++ rest.flatten

end Form

end Unscramble.Binary
