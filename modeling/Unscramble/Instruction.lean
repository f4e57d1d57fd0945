import Unscramble.Constant
import Unscramble.Opcode

/-! # Instructions

One instruction of a method body, with its labels of any type `L`: offsets while a body is read,
handles of label nodes in a listing. Opcodes are canonical, so the short and wide encodings of an
operation are one instruction here. Labels and line markers are instructions without an opcode.

Main definitions: `Instruction`, `Instruction.targets`, `Instruction.map`, `Instruction.pushInt`. -/

namespace Unscramble

/-- A call site that a bootstrap method of the class links. -/
structure DynamicCall where
  /-- Index into the class's table of bootstrap methods. -/
  bootstrap : UInt16
  /-- The name of the call. -/
  name : String
  /-- The method descriptor of the call. -/
  descriptor : String
deriving DecidableEq, Repr, Inhabited

/-- An instruction whose label operands have type `L`. -/
inductive Instruction (L : Type) where
  /-- A position that jumps and ranges refer to. -/
  | label
  /-- The source line of the instructions that follow. -/
  | line (number : UInt16)
  /-- An instruction without operands. -/
  | plain (op : Opcode)
  /-- `BIPUSH`, `SIPUSH` and `NEWARRAY`. -/
  | immediate (op : Opcode) (operand : Int32)
  /-- A load, a store or `RET`. -/
  | slot (op : Opcode) (index : UInt16)
  /-- Adds to an integer in a slot. -/
  | increment (index : UInt16) (amount : Int16)
  /-- A branch, a jump or a subroutine call. -/
  | jump (op : Opcode) (target : L)
  /-- Pushes a constant. -/
  | push (value : Constant)
  /-- `NEW`, `ANEWARRAY`, `CHECKCAST` and `INSTANCEOF`. -/
  | ofClass (op : Opcode) (name : String)
  /-- An access to a field. -/
  | field (op : Opcode) (member : Member)
  /-- A call of a method. -/
  | invoke (op : Opcode) (member : Member) (viaInterface : Bool)
  /-- A call through a bootstrap method. -/
  | invokeDynamic (call : DynamicCall)
  /-- A jump table for the keys from `low` to `high`. -/
  | tableSwitch (low high : Int32) (otherwise : L) (targets : List L)
  /-- A jump table with a key for each case. -/
  | lookupSwitch (otherwise : L) (cases : List (Int32 × L))
  /-- Makes an array of arrays. -/
  | newArrays (name : String) (dims : UInt8)
deriving DecidableEq, Repr, Inhabited

namespace Instruction

variable {L M : Type}

/-- The opcode of a real instruction; labels and line markers have none. -/
def opcode? : Instruction L → Option Opcode
  | .label | .line _ => none
  | .plain op | .immediate op _ | .slot op _ | .jump op _ | .ofClass op _ | .field op _
  | .invoke op _ _ => some op
  | .increment _ _ => some .iinc
  | .push _ => some .ldc
  | .invokeDynamic _ => some .invokedynamic
  | .tableSwitch _ _ _ _ => some .tableswitch
  | .lookupSwitch _ _ => some .lookupswitch
  | .newArrays _ _ => some .multianewarray

/-- Whether the instruction does something when executed. -/
def isReal (i : Instruction L) : Bool :=
  i.opcode?.isSome

/-- Whether the instruction is a label. -/
def isLabel : Instruction L → Bool
  | .label => true
  | _ => false

/-- Whether control never falls through to the next instruction. -/
def isTerminal (i : Instruction L) : Bool :=
  i.opcode?.any Opcode.isTerminal

/-- Whether the instruction has this opcode. -/
def hasOpcode (op : Opcode) (i : Instruction L) : Bool :=
  i.opcode? == some op

/-- Every label that control may be transferred to, in operand order: the cases of a switch, then
its default. -/
def targets : Instruction L → List L
  | .jump _ target => [target]
  | .tableSwitch _ _ otherwise targets => targets ++ [otherwise]
  | .lookupSwitch otherwise cases => cases.map (·.2) ++ [otherwise]
  | _ => []

/-- Replaces every label operand through `f`. -/
def map (f : L → M) : Instruction L → Instruction M
  | .label => .label
  | .line n => .line n
  | .plain op => .plain op
  | .immediate op n => .immediate op n
  | .slot op n => .slot op n
  | .increment n k => .increment n k
  | .jump op target => .jump op (f target)
  | .push c => .push c
  | .ofClass op c => .ofClass op c
  | .field op m => .field op m
  | .invoke op m i => .invoke op m i
  | .invokeDynamic c => .invokeDynamic c
  | .tableSwitch low high otherwise targets => .tableSwitch low high (f otherwise) (targets.map f)
  | .lookupSwitch otherwise cases => .lookupSwitch (f otherwise) (cases.map fun (k, l) => (k, f l))
  | .newArrays c dims => .newArrays c dims

/-- The label operands in the order in which a reader of the encoded instruction meets them: the
default of a switch comes first. -/
def mentioned : Instruction L → List L
  | .jump _ target => [target]
  | .tableSwitch _ _ otherwise targets => otherwise :: targets
  | .lookupSwitch otherwise cases => otherwise :: cases.map (·.2)
  | _ => []

/-- The local slot that the instruction names. -/
def slot? : Instruction L → Option UInt16
  | .slot _ n | .increment n _ => some n
  | _ => none

/-- The same instruction on another local slot. -/
def withSlot (n : UInt16) : Instruction L → Instruction L
  | .slot op _ => .slot op n
  | .increment _ k => .increment n k
  | i => i

/-- The local slot that the instruction reads. An increment reads its slot, and `RET` reads the
return address. -/
def loaded? : Instruction L → Option UInt16
  | .slot op n => if op.isLoad || op == .ret then some n else none
  | .increment n _ => some n
  | _ => none

/-- The local slot that the instruction writes. -/
def stored? : Instruction L → Option UInt16
  | .slot op n => if op.isStore then some n else none
  | .increment n _ => some n
  | _ => none

/-- The shortest instruction that pushes an integer. -/
def pushInt (value : Int32) : Instruction L :=
  let n := value.toInt
  if -1 ≤ n && n ≤ 5 then .plain ⟨(3 + n).toNat.toUInt8⟩
  else if -128 ≤ n && n ≤ 127 then .immediate .bipush value
  else if -32768 ≤ n && n ≤ 32767 then .immediate .sipush value
  else .push (.int value)

/-- The integer that the instruction pushes. -/
def pushedInt? : Instruction L → Option Int32
  | .plain op => if op.isSmallConstant then some (Int32.ofInt (op.byte.toNat - 3)) else none
  | .immediate op n => if op == .bipush || op == .sipush then some n else none
  | .push (.int n) => some n
  | _ => none

/-- The text of an instruction. A jump shows its label through `name`; a switch shows only its keys.
-/
def text (name : L → String) : Instruction L → String
  | .label => "LABEL"
  | .line n => "LINE " ++ toString n.toNat
  | .plain op => op.mnemonic
  | .immediate op n => op.mnemonic ++ " " ++ toString n.toInt
  | .slot op n => op.mnemonic ++ " " ++ toString n.toNat
  | .increment n k => "IINC " ++ toString n.toNat ++ " " ++ toString k.toInt
  | .jump op target => op.mnemonic ++ " " ++ name target
  | .push c => "LDC " ++ c.text
  | .ofClass op c => op.mnemonic ++ " " ++ c
  | .field op m | .invoke op m _ => op.mnemonic ++ " " ++ m.text
  | .invokeDynamic c =>
    "INVOKEDYNAMIC " ++ c.name ++ c.descriptor ++ " #" ++ toString c.bootstrap.toNat
  | .tableSwitch low high _ _ =>
    "TABLESWITCH " ++ toString low.toInt ++ "..=" ++ toString high.toInt
  | .lookupSwitch _ cases => "LOOKUPSWITCH (" ++ toString cases.length ++ " cases)"
  | .newArrays c dims => "MULTIANEWARRAY " ++ c ++ " " ++ toString dims.toNat

end Instruction

end Unscramble
