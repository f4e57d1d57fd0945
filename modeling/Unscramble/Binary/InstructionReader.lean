import Unscramble.Binary.Pool
import Unscramble.Binary.Reader
import Unscramble.Listing

/-! # Reading instructions

Encoded instructions one after the other. The labels of an instruction are offsets into the body,
which has to hold them.

Main definitions: `Located`, `readInstruction`, `readInstructions`. -/

namespace Unscramble.Binary

open Reader

/-- An instruction at its offset. -/
structure Located where
  /-- Where the instruction starts. -/
  offset : Nat
  /-- The instruction; its labels are offsets. -/
  insn : Instruction Nat
  /-- How it was encoded. -/
  raw : RawForm
deriving Repr, Inhabited

/-- An offset that has to lie in a body of the given length or right behind it. -/
def target (length : Nat) (offset : Int) : Reader Nat :=
  if 0 ≤ offset ∧ offset ≤ length then return offset.toNat else fail (.targetOutside offset)

/-- The target of a 32-bit displacement in the instruction at an offset. -/
def farTarget (length start : Nat) : Reader Nat := do
  target length (start + (← i32).toInt)

/-- How many bytes align the operands of a switch at an offset. -/
def switchPadding (start : Nat) : Nat :=
  (4 - (start + 1) % 4) % 4

/-- Reads the operands of a table switch. -/
def readTableSwitch (length start : Nat) : Reader (Instruction Nat) := do
  let _ ← bytes (switchPadding start)
  let otherwise ← farTarget length start
  let low ← i32
  let high ← i32
  if high < low then fail (.badTableBounds start)
  let targets ← many (high.toInt - low.toInt + 1).toNat (farTarget length start)
  return .tableSwitch low high otherwise targets

/-- Reads the operands of a lookup switch. -/
def readLookupSwitch (length start : Nat) : Reader (Instruction Nat) := do
  let _ ← bytes (switchPadding start)
  let otherwise ← farTarget length start
  let count ← i32
  if count < 0 then fail (.badLookupSize start)
  let cases ← many count.toInt.toNat (do
    let key ← i32
    return (key, ← farTarget length start))
  return .lookupSwitch otherwise cases

/-- Reads an instruction with 16-bit operands, behind the prefix for them. -/
def readWide (start : Nat) : Reader (Instruction Nat × RawForm) := do
  let op : Opcode := ⟨← u8⟩
  if op == .iinc then
    let slot ← u16
    return (.increment slot (← i16), ⟨op, true, none⟩)
  else if op.isLoad || op.isStore || op == .ret then return (.slot op (← u16), ⟨op, true, none⟩)
  else fail (.badWide op start)

/-- Whether the instruction is one byte long. -/
def isPlain (op : Opcode) : Bool :=
  op.byte ≤ 15 || Opcode.between ⟨46⟩ ⟨53⟩ op || Opcode.between ⟨79⟩ ⟨131⟩ op ||
    Opcode.between ⟨133⟩ ⟨152⟩ op || Opcode.between .ireturn .returnVoid op || op.byte == 190 ||
    op == .athrow || op == .monitorenter || op == .monitorexit

/-- The load or store that a short form stands for: there are four slots for each of five types. -/
def expandShort (base first op : Opcode) : Instruction Nat :=
  .slot ⟨base.byte + (op.byte - first.byte) / 4⟩ ((op.byte - first.byte) % 4).toUInt16

/-- Reads the operands of an instruction whose encoding is determined by its opcode. -/
def readOperands (length start : Nat) (op : Opcode) : Reader (Instruction Nat) := do
  if isPlain op then return .plain op
  else if op == .bipush then return .immediate op (← i8).toInt32
  else if op == .sipush then return .immediate op (← i16).toInt32
  else if op == .newarray then return .immediate op (← u8).toUInt32.toInt32
  else if op.isLoad || op.isStore || op == .ret then return .slot op (← u8).toUInt16
  else if Opcode.between .iload0 .aload3 op then return expandShort .iload .iload0 op
  else if Opcode.between .istore0 .astore3 op then return expandShort .istore .istore0 op
  else if op == .iinc then return .increment (← u8).toUInt16 (← i8).toInt16
  else if op.isConditional || op == .goto || op == .jsr then
    return .jump op (← target length (start + (← i16).toInt))
  else if op == .gotoW then return .jump .goto (← farTarget length start)
  else if op == .jsrW then return .jump .jsr (← farTarget length start)
  else if op == .tableswitch then readTableSwitch length start
  else if op == .lookupswitch then readLookupSwitch length start
  else fail (.unknownOpcode op start)

/-- Reads the operands of an instruction that refers to the pool, and the index it refers to. -/
def readReference (pool : Pool) (op : Opcode) : Reader (Instruction Nat × UInt16) := do
  let i ← if op == .ldc then UInt8.toUInt16 <$> u8 else u16
  if op == .ldc || op == .ldcW || op == .ldc2W then
    return (.push (← require (pool.constantAt i)), i)
  else if Opcode.between .getstatic .putfield op then
    return (.field op (← require (pool.memberAt i)).1, i)
  else if op == .invokedynamic then
    let _ ← bytes 2
    return (.invokeDynamic (← require (pool.dynamicAt i)), i)
  else if op == .multianewarray then
    let name ← require (pool.classAt i)
    return (.newArrays name (← u8), i)
  else if Opcode.between .invokevirtual .invokeinterface op then
    let _ ← bytes (if op == .invokeinterface then 2 else 0)
    let (m, kind) ← require (pool.memberAt i)
    return (.invoke op m (kind == .interfaceMethod), i)
  else return (.ofClass op (← require (pool.classAt i)), i)

/-- Whether an instruction refers to the pool. -/
def refersToPool (op : Opcode) : Bool :=
  Opcode.between .ldc .ldc2W op || Opcode.between .getstatic .new op || op == .anewarray ||
    op == .checkcast || op == .instanceof || op == .multianewarray

/-- Reads the instruction at an offset of a body of the given length. -/
def readInstruction (pool : Pool) (length start : Nat) : Reader (Instruction Nat × RawForm) := do
  let op : Opcode := ⟨← u8⟩
  if op == .wide then readWide start
  else if refersToPool op then
    let (insn, i) ← readReference pool op
    return (insn, ⟨op, false, some i⟩)
  else return (← readOperands length start op, ⟨op, false, none⟩)

/-- Reads instructions to the end of the input, in front of which `done` were read, last first.
There are at most as many instructions left as bytes, so `bound` need not exceed that. -/
def readFrom (pool : Pool) (length : Nat) (done : List Located) :
    (bound : Nat) → Reader (List Located)
  | 0 => return done.reverse
  | bound + 1 => do
    if ← atEnd then return done.reverse
    let start ← position
    let (insn, raw) ← readInstruction pool length start
    readFrom pool length (⟨start, insn, raw⟩ :: done) bound

/-- The instructions that bytes encode. -/
def readInstructions (pool : Pool) (code : Bytes) : Except Malformation (List Located) :=
  (readFrom pool code.length [] code.length).on code

end Unscramble.Binary
