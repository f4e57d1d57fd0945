import Unscramble.Body
import Unscramble.Proofs.Descriptor.Types

/-! # Operand stacks

The values on an operand stack take one slot or two. An instruction that takes slots off the top
takes whole values: it cannot be executed where it would have to take half of one.

Main definitions: `Operand`, `height`, `dropSlots?`, `execute?`, `run?`. Main statements:
`dropSlots?_slots`, `execute?_zeroOpcode`, `run?_append`. -/

namespace Unscramble

open Descriptor

/-- What the machine tells apart among values. -/
inductive ValueKind where
  /-- Numbers of up to 32 bits, and truth values. -/
  | int
  /-- Numbers of 64 bits. -/
  | long
  /-- Floating-point numbers of 32 bits. -/
  | float
  /-- Floating-point numbers of 64 bits. -/
  | double
  /-- Objects and arrays. -/
  | reference
deriving DecidableEq, Repr

/-- A value on an operand stack. -/
inductive Operand where
  /-- A number of up to 32 bits. -/
  | int (n : Int32)
  /-- A number of 64 bits. -/
  | long (n : Int64)
  /-- A floating-point number of 32 bits, by its bits. -/
  | float (bits : UInt32)
  /-- A floating-point number of 64 bits, by its bits. -/
  | double (bits : UInt64)
  /-- An object or an array; none, if it is the null reference. -/
  | reference (object : Option Nat)
deriving DecidableEq, Repr

namespace ValueKind

/-- Whether values of the kind take two slots. -/
def isWide : ValueKind → Bool
  | .long | .double => true
  | _ => false

/-- The zero of the kind. -/
def zero : ValueKind → Operand
  | .int => .int 0
  | .long => .long 0
  | .float => .float 0
  | .double => .double 0
  | .reference => .reference none

/-- The opcode of the instruction that pushes the zero of the kind. -/
def zeroOpcode : ValueKind → Opcode
  | .int => .iconst0
  | .long => .lconst0
  | .float => .fconst0
  | .double => .dconst0
  | .reference => .aconstNull

end ValueKind

/-- The kind of the values of a type. -/
def Descriptor.FieldType.kind : FieldType → ValueKind
  | .base .long => .long
  | .base .float => .float
  | .base .double => .double
  | .base _ => .int
  | .object _ | .array _ => .reference

/-- The kind of a type is as wide as the type. -/
theorem Descriptor.FieldType.isWide_kind (t : FieldType) : t.kind.isWide = t.isWide := by
  cases t with
  | base b => cases b <;> rfl
  | object name => rfl
  | array element => rfl

namespace Operand

/-- The kind of a value. -/
def kind : Operand → ValueKind
  | .int _ => .int
  | .long _ => .long
  | .float _ => .float
  | .double _ => .double
  | .reference _ => .reference

/-- How many slots a value takes. -/
def slots (v : Operand) : Nat :=
  if v.kind.isWide then 2 else 1

/-- Every value takes a slot. -/
theorem slots_pos (v : Operand) : 0 < v.slots := by
  unfold slots
  split <;> decide

/-- The zero of a kind is of that kind. -/
@[simp] theorem kind_zero (k : ValueKind) : k.zero.kind = k := by
  cases k <;> rfl

end Operand

/-- How many slots a stack takes. -/
def height (stack : List Operand) : Nat :=
  (stack.map Operand.slots).sum

/-- Values above others are as high as both. -/
@[simp] theorem height_append (top below : List Operand) :
    height (top ++ below) = height top + height below := by
  rw [height, List.map_append, List.sum_append, height, height]

/-- What is left of a stack is no higher. -/
theorem height_drop_le (n : Nat) (stack : List Operand) :
    height (stack.drop n) ≤ height stack := by
  have hsplit := height_append (stack.take n) (stack.drop n)
  rw [List.take_append_drop] at hsplit
  omega

/-! ### Executing instructions -/

/-- Takes values off the top that take so many slots together; `none` if there are none that do. -/
def dropSlots? : List Operand → Nat → Option (List Operand)
  | stack, 0 => some stack
  | [], _ + 1 => none
  | v :: below, n + 1 => if v.slots ≤ n + 1 then dropSlots? below (n + 1 - v.slots) else none

/-- A value is taken off by its number of slots. -/
theorem dropSlots?_slots (v : Operand) (below : List Operand) :
    dropSlots? (v :: below) v.slots = some below := by
  obtain ⟨n, hn⟩ := Nat.exists_eq_succ_of_ne_zero v.slots_pos.ne'
  rw [hn, dropSlots?, if_pos hn.le, hn, Nat.sub_self, dropSlots?]

/-- What some instructions without operands make of a stack, its top first: `POP` and `POP2` take
off one and two slots, the others push a zero. -/
def execute? (op : Opcode) (stack : List Operand) : Option (List Operand) :=
  if op == .pop then dropSlots? stack 1
  else if op == .pop2 then dropSlots? stack 2
  else if op == .iconst0 then some (.int 0 :: stack)
  else if op == .lconst0 then some (.long 0 :: stack)
  else if op == .fconst0 then some (.float 0 :: stack)
  else if op == .dconst0 then some (.double 0 :: stack)
  else if op == .aconstNull then some (.reference none :: stack)
  else none

/-- The instruction for a zero pushes it. -/
theorem execute?_zeroOpcode (k : ValueKind) (stack : List Operand) :
    execute? k.zeroOpcode stack = some (k.zero :: stack) := by
  cases k <;> rfl

/-- What instructions one after the other make of a stack; `none` if one of them cannot be executed,
or does something else than `execute?` tells. -/
def run? : List (Instruction Label) → List Operand → Option (List Operand)
  | [], stack => some stack
  | .plain op :: rest, stack => (execute? op stack).bind (run? rest)
  | _ :: _, _ => none

/-- A plain instruction is executed, and then the rest. -/
theorem run?_plain (op : Opcode) (rest : List (Instruction Label)) (stack : List Operand) :
    run? (.plain op :: rest) stack = (execute? op stack).bind (run? rest) :=
  rfl

/-- Instructions after others are executed where these end. -/
theorem run?_append (is is' : List (Instruction Label)) (stack : List Operand) :
    run? (is ++ is') stack = (run? is stack).bind (run? is') := by
  induction is generalizing stack with
  | nil => rfl
  | cons i is ih =>
    cases i with
    | plain op =>
      rw [List.cons_append, run?_plain, run?_plain, Option.bind_assoc]
      exact congrArg _ (funext ih)
    | _ => rfl

end Unscramble
