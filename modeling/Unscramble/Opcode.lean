/-! # Opcodes

The operation codes of the stack machine: their mnemonics, the classes of opcodes that flow and slot
analyses ask about (`isTerminal`, `isLoad`, …), and the named groups that an instruction pattern may
use as one token. -/

namespace Unscramble

/-- The operation code of a real instruction, one byte. -/
structure Opcode where
  /-- The byte that encodes the operation. -/
  byte : UInt8
deriving DecidableEq, Hashable, Repr, Inhabited

namespace Opcode

/-- The instruction `NOP`. -/
def nop : Opcode := ⟨0⟩

/-- The instruction `ACONST_NULL`. -/
def aconstNull : Opcode := ⟨1⟩

/-- The instruction `ICONST_M1`. -/
def iconstM1 : Opcode := ⟨2⟩

/-- The instruction `ICONST_0`. -/
def iconst0 : Opcode := ⟨3⟩

/-- The instruction `ICONST_5`. -/
def iconst5 : Opcode := ⟨8⟩

/-- The instruction `LCONST_0`. -/
def lconst0 : Opcode := ⟨9⟩

/-- The instruction `FCONST_0`. -/
def fconst0 : Opcode := ⟨11⟩

/-- The instruction `DCONST_0`. -/
def dconst0 : Opcode := ⟨14⟩

/-- The instruction `BIPUSH`. -/
def bipush : Opcode := ⟨16⟩

/-- The instruction `SIPUSH`. -/
def sipush : Opcode := ⟨17⟩

/-- The instruction `LDC`. -/
def ldc : Opcode := ⟨18⟩

/-- The instruction `LDC_W`. -/
def ldcW : Opcode := ⟨19⟩

/-- The instruction `LDC2_W`. -/
def ldc2W : Opcode := ⟨20⟩

/-- The instruction `ILOAD`. -/
def iload : Opcode := ⟨21⟩

/-- The instruction `LLOAD`. -/
def lload : Opcode := ⟨22⟩

/-- The instruction `DLOAD`. -/
def dload : Opcode := ⟨24⟩

/-- The instruction `ALOAD`. -/
def aload : Opcode := ⟨25⟩

/-- The instruction `ILOAD_0`. -/
def iload0 : Opcode := ⟨26⟩

/-- The instruction `ALOAD_3`. -/
def aload3 : Opcode := ⟨45⟩

/-- The instruction `ISTORE`. -/
def istore : Opcode := ⟨54⟩

/-- The instruction `LSTORE`. -/
def lstore : Opcode := ⟨55⟩

/-- The instruction `DSTORE`. -/
def dstore : Opcode := ⟨57⟩

/-- The instruction `ASTORE`. -/
def astore : Opcode := ⟨58⟩

/-- The instruction `ISTORE_0`. -/
def istore0 : Opcode := ⟨59⟩

/-- The instruction `ASTORE_3`. -/
def astore3 : Opcode := ⟨78⟩

/-- The instruction `POP`. -/
def pop : Opcode := ⟨87⟩

/-- The instruction `POP2`. -/
def pop2 : Opcode := ⟨88⟩

/-- The instruction `DUP`. -/
def dup : Opcode := ⟨89⟩

/-- The instruction `ISHL`. -/
def ishl : Opcode := ⟨120⟩

/-- The instruction `LSHL`. -/
def lshl : Opcode := ⟨121⟩

/-- The instruction `ISHR`. -/
def ishr : Opcode := ⟨122⟩

/-- The instruction `LSHR`. -/
def lshr : Opcode := ⟨123⟩

/-- The instruction `IUSHR`. -/
def iushr : Opcode := ⟨124⟩

/-- The instruction `LUSHR`. -/
def lushr : Opcode := ⟨125⟩

/-- The instruction `IINC`. -/
def iinc : Opcode := ⟨132⟩

/-- The instruction `IFEQ`. -/
def ifeq : Opcode := ⟨153⟩

/-- The instruction `IFNE`. -/
def ifne : Opcode := ⟨154⟩

/-- The instruction `IF_ACMPNE`. -/
def ifAcmpne : Opcode := ⟨166⟩

/-- The instruction `GOTO`. -/
def goto : Opcode := ⟨167⟩

/-- The instruction `JSR`. -/
def jsr : Opcode := ⟨168⟩

/-- The instruction `RET`. -/
def ret : Opcode := ⟨169⟩

/-- The instruction `TABLESWITCH`. -/
def tableswitch : Opcode := ⟨170⟩

/-- The instruction `LOOKUPSWITCH`. -/
def lookupswitch : Opcode := ⟨171⟩

/-- The instruction `IRETURN`. -/
def ireturn : Opcode := ⟨172⟩

/-- The instruction `RETURN`. -/
def returnVoid : Opcode := ⟨177⟩

/-- The instruction `GETSTATIC`. -/
def getstatic : Opcode := ⟨178⟩

/-- The instruction `PUTSTATIC`. -/
def putstatic : Opcode := ⟨179⟩

/-- The instruction `GETFIELD`. -/
def getfield : Opcode := ⟨180⟩

/-- The instruction `PUTFIELD`. -/
def putfield : Opcode := ⟨181⟩

/-- The instruction `INVOKEVIRTUAL`. -/
def invokevirtual : Opcode := ⟨182⟩

/-- The instruction `INVOKESPECIAL`. -/
def invokespecial : Opcode := ⟨183⟩

/-- The instruction `INVOKESTATIC`. -/
def invokestatic : Opcode := ⟨184⟩

/-- The instruction `INVOKEINTERFACE`. -/
def invokeinterface : Opcode := ⟨185⟩

/-- The instruction `INVOKEDYNAMIC`. -/
def invokedynamic : Opcode := ⟨186⟩

/-- The instruction `NEW`. -/
def new : Opcode := ⟨187⟩

/-- The instruction `NEWARRAY`. -/
def newarray : Opcode := ⟨188⟩

/-- The instruction `ANEWARRAY`. -/
def anewarray : Opcode := ⟨189⟩

/-- The instruction `ATHROW`. -/
def athrow : Opcode := ⟨191⟩

/-- The instruction `CHECKCAST`. -/
def checkcast : Opcode := ⟨192⟩

/-- The instruction `INSTANCEOF`. -/
def instanceof : Opcode := ⟨193⟩

/-- The instruction `MONITORENTER`. -/
def monitorenter : Opcode := ⟨194⟩

/-- The instruction `MONITOREXIT`. -/
def monitorexit : Opcode := ⟨195⟩

/-- The instruction `WIDE`. -/
def wide : Opcode := ⟨196⟩

/-- The instruction `MULTIANEWARRAY`. -/
def multianewarray : Opcode := ⟨197⟩

/-- The instruction `IFNULL`. -/
def ifnull : Opcode := ⟨198⟩

/-- The instruction `IFNONNULL`. -/
def ifnonnull : Opcode := ⟨199⟩

/-- The instruction `GOTO_W`. -/
def gotoW : Opcode := ⟨200⟩

/-- The instruction `JSR_W`. -/
def jsrW : Opcode := ⟨201⟩

/-- Mnemonics of the assigned opcodes, indexed by their byte. -/
def mnemonics : Array String := #[
  "NOP", "ACONST_NULL", "ICONST_M1", "ICONST_0", "ICONST_1", "ICONST_2", "ICONST_3", "ICONST_4",
  "ICONST_5", "LCONST_0", "LCONST_1", "FCONST_0", "FCONST_1", "FCONST_2", "DCONST_0", "DCONST_1",
  "BIPUSH", "SIPUSH", "LDC", "LDC_W", "LDC2_W", "ILOAD", "LLOAD", "FLOAD", "DLOAD", "ALOAD",
  "ILOAD_0", "ILOAD_1", "ILOAD_2", "ILOAD_3", "LLOAD_0", "LLOAD_1", "LLOAD_2", "LLOAD_3",
  "FLOAD_0", "FLOAD_1", "FLOAD_2", "FLOAD_3", "DLOAD_0", "DLOAD_1", "DLOAD_2", "DLOAD_3",
  "ALOAD_0", "ALOAD_1", "ALOAD_2", "ALOAD_3", "IALOAD", "LALOAD", "FALOAD", "DALOAD", "AALOAD",
  "BALOAD", "CALOAD", "SALOAD", "ISTORE", "LSTORE", "FSTORE", "DSTORE", "ASTORE", "ISTORE_0",
  "ISTORE_1", "ISTORE_2", "ISTORE_3", "LSTORE_0", "LSTORE_1", "LSTORE_2", "LSTORE_3", "FSTORE_0",
  "FSTORE_1", "FSTORE_2", "FSTORE_3", "DSTORE_0", "DSTORE_1", "DSTORE_2", "DSTORE_3", "ASTORE_0",
  "ASTORE_1", "ASTORE_2", "ASTORE_3", "IASTORE", "LASTORE", "FASTORE", "DASTORE", "AASTORE",
  "BASTORE", "CASTORE", "SASTORE", "POP", "POP2", "DUP", "DUP_X1", "DUP_X2", "DUP2", "DUP2_X1",
  "DUP2_X2", "SWAP", "IADD", "LADD", "FADD", "DADD", "ISUB", "LSUB", "FSUB", "DSUB", "IMUL",
  "LMUL", "FMUL", "DMUL", "IDIV", "LDIV", "FDIV", "DDIV", "IREM", "LREM", "FREM", "DREM", "INEG",
  "LNEG", "FNEG", "DNEG", "ISHL", "LSHL", "ISHR", "LSHR", "IUSHR", "LUSHR", "IAND", "LAND",
  "IOR", "LOR", "IXOR", "LXOR", "IINC", "I2L", "I2F", "I2D", "L2I", "L2F", "L2D", "F2I", "F2L",
  "F2D", "D2I", "D2L", "D2F", "I2B", "I2C", "I2S", "LCMP", "FCMPL", "FCMPG", "DCMPL", "DCMPG",
  "IFEQ", "IFNE", "IFLT", "IFGE", "IFGT", "IFLE", "IF_ICMPEQ", "IF_ICMPNE", "IF_ICMPLT",
  "IF_ICMPGE", "IF_ICMPGT", "IF_ICMPLE", "IF_ACMPEQ", "IF_ACMPNE", "GOTO", "JSR", "RET",
  "TABLESWITCH", "LOOKUPSWITCH", "IRETURN", "LRETURN", "FRETURN", "DRETURN", "ARETURN", "RETURN",
  "GETSTATIC", "PUTSTATIC", "GETFIELD", "PUTFIELD", "INVOKEVIRTUAL", "INVOKESPECIAL",
  "INVOKESTATIC", "INVOKEINTERFACE", "INVOKEDYNAMIC", "NEW", "NEWARRAY", "ANEWARRAY",
  "ARRAYLENGTH", "ATHROW", "CHECKCAST", "INSTANCEOF", "MONITORENTER", "MONITOREXIT", "WIDE",
  "MULTIANEWARRAY", "IFNULL", "IFNONNULL", "GOTO_W", "JSR_W"]

/-- The mnemonic of an opcode, `???` for an unassigned byte. -/
def mnemonic (op : Opcode) : String :=
  (mnemonics[op.byte.toNat]?).getD "???"

/-- The opcode with a given mnemonic. -/
def ofMnemonic? (name : String) : Option Opcode :=
  (mnemonics.idxOf? name).map fun i => ⟨i.toUInt8⟩

/-- Whether the byte of `op` lies between those of `first` and `last`, both included. -/
def between (first last op : Opcode) : Bool :=
  first.byte ≤ op.byte && op.byte ≤ last.byte

/-- Opcodes after which control never falls through to the next instruction: jumps without a
condition, switches, returns and throws. A subroutine call is not one of them. -/
def isTerminal (op : Opcode) : Bool :=
  op == goto || between ret returnVoid op || op == athrow

/-- Two-way branches. -/
def isConditional (op : Opcode) : Bool :=
  between ifeq ifAcmpne op || op == ifnull || op == ifnonnull

/-- Loads of a local slot. -/
def isLoad (op : Opcode) : Bool :=
  between iload aload op

/-- Stores to a local slot. -/
def isStore (op : Opcode) : Bool :=
  between istore astore op

/-- Loads and stores of 64-bit values, which occupy two local slots. -/
def isWideAccess (op : Opcode) : Bool :=
  op == lload || op == dload || op == lstore || op == dstore

/-- Pushes of the integers from -1 to 5. -/
def isSmallConstant (op : Opcode) : Bool :=
  between iconstM1 iconst5 op

/-- Shifts of a 32-bit value. -/
def isIntShift (op : Opcode) : Bool :=
  op == ishl || op == ishr || op == iushr

/-- Shifts of a 64-bit value. -/
def isLongShift (op : Opcode) : Bool :=
  op == lshl || op == lshr || op == lushr

/-- Named sets of opcodes that a pattern can use as a single token. -/
def groups : List (String × List Opcode) := [
  ("ICONST", [⟨2⟩, ⟨3⟩, ⟨4⟩, ⟨5⟩, ⟨6⟩, ⟨7⟩, ⟨8⟩]),
  ("LOAD", [⟨21⟩, ⟨22⟩, ⟨23⟩, ⟨24⟩, ⟨25⟩]),
  ("STORE", [⟨54⟩, ⟨55⟩, ⟨56⟩, ⟨57⟩, ⟨58⟩]),
  ("RETURN_VALUE", [⟨172⟩, ⟨173⟩, ⟨174⟩, ⟨175⟩, ⟨176⟩]),
  ("INVOKE", [invokevirtual, invokespecial, invokestatic, invokeinterface])]

/-- The opcodes of a named group. -/
def group? (name : String) : Option (List Opcode) :=
  groups.lookup name

end Opcode

end Unscramble
