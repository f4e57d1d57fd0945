import Unscramble.Instruction

/-! # Listings

A listing is the instruction sequence of a method body. Its instructions live in nodes that are
never moved or reused, so the handle of a node names the same instruction for ever; the sequence is
an order on some of the handles, and an instruction can leave it and come back. A label is the
handle of a label node, so jumps and ranges refer to a position by identity.

Main definitions: `Listing`, its edits (`push`, `insertBefore`, `insertAfter`, `remove`, `replace`,
`relink`, `removeIf`), its views (`handles`, `positions`, `shape`), and the walks `nextReal?` and
`prevReal?`. -/

namespace Unscramble

/-- Names a node of a listing. -/
abbrev Handle := Nat

/-- The handle of a label node. -/
abbrev Label := Handle

/-- The encoding that an instruction was read from. A writer takes it again as long as it still
describes the instruction. -/
structure RawForm where
  /-- The opcode as encoded, which may be a short or wide variant. -/
  op : Opcode
  /-- Whether the instruction had the prefix for 16-bit slots. -/
  wide : Bool
  /-- The pool index the operand was read from. -/
  poolIndex : Option UInt16
deriving DecidableEq, Repr, Inhabited

/-- An instruction with what is known of its encoding. -/
structure Node where
  /-- The instruction. -/
  insn : Instruction Label
  /-- The encoding it was read from. -/
  raw : Option RawForm
deriving Repr, Inhabited

/-- A sequence of instructions. -/
structure Listing where
  /-- Every node ever made, by handle. -/
  nodes : Array Node := #[]
  /-- The handles that belong to the sequence, in order. -/
  order : Array Handle := #[]
deriving Repr, Inhabited

namespace Listing

/-- The linked handles in sequence order. -/
def handles (l : Listing) : List Handle :=
  l.order.toList

/-- How many nodes were ever made; every handle is smaller. -/
def capacity (l : Listing) : Nat :=
  l.nodes.size

/-- The number of linked instructions, labels and line markers included. -/
def length (l : Listing) : Nat :=
  l.order.size

/-- Whether the sequence is empty. -/
def isEmpty (l : Listing) : Bool :=
  l.order.isEmpty

/-- The instruction behind a handle. -/
def get (l : Listing) (h : Handle) : Instruction Label :=
  match l.nodes[h]? with
  | some node => node.insn
  | none => .label

/-- The encoding that the instruction behind a handle was read from. -/
def rawForm? (l : Listing) (h : Handle) : Option RawForm :=
  l.nodes[h]?.bind (·.raw)

/-- The linked instructions in sequence order. -/
def instructions (l : Listing) : List (Instruction Label) :=
  l.handles.map l.get

/-- Whether a handle belongs to the sequence. -/
def contains (l : Listing) (h : Handle) : Bool :=
  l.order.contains h

/-- The first linked handle. -/
def first? (l : Listing) : Option Handle :=
  l.order[0]?

/-- The last linked handle. -/
def last? (l : Listing) : Option Handle :=
  l.order.back?

/-- The linked handles strictly after `h`, none if `h` is not linked. -/
def after (l : Listing) (h : Handle) : List Handle :=
  (l.handles.dropWhile (· != h)).drop 1

/-- The linked handles strictly before `h`, the nearest first; none if `h` is not linked. -/
def before (l : Listing) (h : Handle) : List Handle :=
  (l.handles.reverse.dropWhile (· != h)).drop 1

/-- The handle that follows `h` in the sequence. -/
def next? (l : Listing) (h : Handle) : Option Handle :=
  (l.after h).head?

/-- The handle that precedes `h` in the sequence. -/
def prev? (l : Listing) (h : Handle) : Option Handle :=
  (l.before h).head?

/-- Whether the instruction behind a handle is a real one. -/
def isReal (l : Listing) (h : Handle) : Bool :=
  (l.get h).isReal

/-- The first real instruction at or after `h`. -/
def nextReal? (l : Listing) (h : Handle) : Option Handle :=
  (h :: l.after h).find? l.isReal

/-- The last real instruction strictly before `h`. -/
def prevReal? (l : Listing) (h : Handle) : Option Handle :=
  (l.before h).find? l.isReal

/-- Makes a node that is not linked yet. -/
def create (l : Listing) (insn : Instruction Label) : Handle × Listing :=
  (l.nodes.size, { l with nodes := l.nodes.push ⟨insn, none⟩ })

/-- Links a node at the end. -/
def append (l : Listing) (h : Handle) : Listing :=
  { l with order := l.order.push h }

/-- Makes a node and links it at the end. -/
def push (l : Listing) (insn : Instruction Label) : Handle × Listing :=
  let (h, l) := l.create insn
  (h, l.append h)

/-- Links the node `h` right before the linked node `anchor`. -/
def insertBefore (l : Listing) (anchor h : Handle) : Listing :=
  let (front, back) := l.handles.span (· != anchor)
  { l with order := (front ++ h :: back).toArray }

/-- Links the node `h` right after the linked node `anchor`. -/
def insertAfter (l : Listing) (anchor h : Handle) : Listing :=
  let (front, back) := l.handles.span (· != anchor)
  { l with order := (front ++ back.take 1 ++ h :: back.drop 1).toArray }

/-- Takes a node out of the sequence. Its handle keeps its instruction. -/
def remove (l : Listing) (h : Handle) : Listing :=
  { l with order := l.order.erase h }

/-- Replaces the instruction behind a handle, in place, and forgets how it was encoded. -/
def replace (l : Listing) (h : Handle) (insn : Instruction Label) : Listing :=
  { l with nodes := l.nodes.modify h fun _ => ⟨insn, none⟩ }

/-- Edits the instruction behind a handle, in place. -/
def modify (l : Listing) (h : Handle) (f : Instruction Label → Instruction Label) : Listing :=
  { l with nodes := l.nodes.modify h fun node => { node with insn := f node.insn } }

/-- Records how the instruction behind a handle was encoded. -/
def setRawForm (l : Listing) (h : Handle) (raw : RawForm) : Listing :=
  { l with nodes := l.nodes.modify h fun node => { node with raw := some raw } }

/-- Makes the sequence exactly `order`. -/
def relink (l : Listing) (order : Array Handle) : Listing :=
  { l with order }

/-- Takes every linked node that satisfies `p` out of the sequence, and counts them. -/
def removeIf (l : Listing) (p : Handle → Instruction Label → Bool) : Nat × Listing :=
  let order := l.order.filter fun h => !p h (l.get h)
  (l.order.size - order.size, { l with order })

/-- The index of each linked handle in the sequence, by handle. -/
def positions (l : Listing) : Array (Option Nat) :=
  (l.handles.zipIdx).foldl (fun table (h, i) => table.setIfInBounds h (some i))
    (Array.replicate l.capacity none)

/-- The position of a handle in a table of positions. -/
def positionIn (table : Array (Option Nat)) (h : Handle) : Option Nat :=
  table[h]?.join

/-- A label as the position it stands at. -/
def labelText (table : Array (Option Nat)) (label : Label) : String :=
  match positionIn table label with
  | some i => "@" ++ toString i
  | none => "@?"

/-- One line per linked instruction that does not depend on handles: an instruction with label
operands shows the positions of its targets. -/
def shape (l : Listing) : List String :=
  let table := l.positions
  l.instructions.map fun insn =>
    match insn.targets with
    | [] => insn.text (labelText table)
    | targets =>
      ((insn.opcode?).getD .nop).mnemonic ++ " -> " ++
        ",".intercalate (targets.map (labelText table))

/-- The text of the instruction behind a handle, with labels shown by handle. -/
def textAt (l : Listing) (h : Handle) : String :=
  (l.get h).text fun label => "L" ++ toString label

end Listing

end Unscramble
