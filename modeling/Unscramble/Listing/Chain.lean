import Unscramble.Listing

/-! # Chains

A chain is the instruction sequence of a method body as it lies in memory: an arena of nodes, where
the nodes of the sequence know their neighbours. An edit rewires its node and the two nodes beside
it, so it takes the same time wherever it happens. A `Listing` is the same sequence with the order of
its handles in place of the links.

A walk along the links ends only if the links lead to an end. A walk that ends passes no node twice,
so one that has passed more nodes than there are leads round: it is given up, and a view or a removal
that takes it answers none.

Main definitions: `Chain`, its edits (`push`, `insertBefore`, `insertAfter`, `remove`, `replace`,
`relink`, `removeIf`), and its views (`handles`, `backward`, `positions`, `nextReal?`,
`prevReal?`). -/

namespace Unscramble

/-- A node with its place in the sequence. -/
structure ChainNode extends Node where
  /-- The node before it. -/
  prev : Option Handle := none
  /-- The node behind it. -/
  next : Option Handle := none
  /-- Whether it belongs to the sequence. -/
  linked : Bool := false
deriving Repr, Inhabited

/-- A doubly linked sequence of instructions. -/
structure Chain where
  /-- Every node ever made, by handle. -/
  nodes : Array ChainNode := #[]
  /-- The first node of the sequence. -/
  first? : Option Handle := none
  /-- The last node of the sequence. -/
  last? : Option Handle := none
  /-- The number of linked nodes. -/
  length : Nat := 0
deriving Repr, Inhabited

namespace Chain

/-! ### One node -/

/-- How many nodes were ever made; every handle is smaller. -/
def capacity (c : Chain) : Nat :=
  c.nodes.size

/-- Whether no node is linked. -/
def isEmpty (c : Chain) : Bool :=
  c.length == 0

/-- The instruction behind a handle. -/
def get (c : Chain) (h : Handle) : Instruction Label :=
  c.nodes[h]?.elim .label (·.insn)

/-- Whether a handle belongs to the sequence. -/
def contains (c : Chain) (h : Handle) : Bool :=
  c.nodes[h]?.elim false (·.linked)

/-- The handle that a node keeps as the next one. -/
def next? (c : Chain) (h : Handle) : Option Handle :=
  c.nodes[h]?.elim none (·.next)

/-- The handle that a node keeps as the previous one. -/
def prev? (c : Chain) (h : Handle) : Option Handle :=
  c.nodes[h]?.elim none (·.prev)

/-! ### Walks -/

/-- More nodes than a walk passes that ends. -/
def bound (c : Chain) : Nat :=
  c.capacity + 1

/-- The handles from a start on, each got from the one before by `step`. -/
def walk (step : Handle → Option Handle) : Nat → Option Handle → Option (List Handle)
  | _, none => some []
  | 0, some _ => none
  | bound + 1, some h => (walk step bound (step h)).map (h :: ·)

/-- The linked handles from the first to the last. -/
def handles (c : Chain) : Option (List Handle) :=
  walk c.next? c.bound c.first?

/-- The linked handles from the last to the first. -/
def backward (c : Chain) : Option (List Handle) :=
  walk c.prev? c.bound c.last?

/-- The first handle from a start on whose instruction is real. -/
def seekReal (c : Chain) (step : Handle → Option Handle) :
    Nat → Option Handle → Option (Option Handle)
  | _, none => some none
  | 0, some _ => none
  | bound + 1, some h =>
    if (c.get h).isReal then some (some h) else seekReal c step bound (step h)

/-- The first real instruction at or after `h`. -/
def nextReal? (c : Chain) (h : Handle) : Option (Option Handle) :=
  c.seekReal c.next? c.bound (some h)

/-- The last real instruction strictly before `h`. -/
def prevReal? (c : Chain) (h : Handle) : Option (Option Handle) :=
  c.seekReal c.prev? c.bound (c.prev? h)

/-- The index of each linked handle in the sequence, by handle. -/
def positions (c : Chain) : Option (Array (Option Nat)) := do
  let handles ← c.handles
  return handles.zipIdx.foldl (fun table (h, i) => table.setIfInBounds h (some i))
    (Array.replicate c.capacity none)

/-- The listing with the nodes and the sequence of a chain. -/
def toListing (c : Chain) : Option Listing := do
  let handles ← c.handles
  return { nodes := c.nodes.map (·.toNode), order := handles.toArray }

/-! ### Edits -/

/-- Changes a node. -/
def onNode (c : Chain) (h : Handle) (f : ChainNode → ChainNode) : Chain :=
  { c with nodes := c.nodes.modify h f }

/-- Makes `next` follow the node `h?`, or begin the sequence if there is no such node. -/
def setNext (c : Chain) (h? next : Option Handle) : Chain :=
  match h? with
  | some h => c.onNode h fun node => { node with next }
  | none => { c with first? := next }

/-- Makes `prev` precede the node `h?`, or end the sequence if there is no such node. -/
def setPrev (c : Chain) (h? prev : Option Handle) : Chain :=
  match h? with
  | some h => c.onNode h fun node => { node with prev }
  | none => { c with last? := prev }

/-- Makes a node that is not linked yet. -/
def create (c : Chain) (insn : Instruction Label) : Handle × Chain :=
  (c.nodes.size, { c with nodes := c.nodes.push { insn, raw := none } })

/-- Links a node between two neighbours, where none stands for an end of the sequence. -/
def link (c : Chain) (prev : Option Handle) (h : Handle) (next : Option Handle) : Chain :=
  let c := c.onNode h fun node => { node with prev, next, linked := true }
  let c := (c.setNext prev (some h)).setPrev next (some h)
  { c with length := c.length + 1 }

/-- Links a node at the end. -/
def append (c : Chain) (h : Handle) : Chain :=
  c.link c.last? h none

/-- Makes a node and links it at the end. -/
def push (c : Chain) (insn : Instruction Label) : Handle × Chain :=
  let (h, c) := c.create insn
  (h, c.append h)

/-- Links the node `h` right before the linked node `anchor`. -/
def insertBefore (c : Chain) (anchor h : Handle) : Chain :=
  c.link (c.prev? anchor) h (some anchor)

/-- Links the node `h` right after the linked node `anchor`. -/
def insertAfter (c : Chain) (anchor h : Handle) : Chain :=
  c.link (some anchor) h (c.next? anchor)

/-- Takes a node out of the sequence and joins its neighbours. Its handle keeps its instruction. -/
def remove (c : Chain) (h : Handle) : Chain :=
  if c.contains h then
    let prev := c.prev? h
    let next := c.next? h
    let c := (c.setNext prev next).setPrev next prev
    let c := c.onNode h fun node => { node with prev := none, next := none, linked := false }
    { c with length := c.length - 1 }
  else c

/-- Replaces the instruction behind a handle, in place, and forgets how it was encoded. -/
def replace (c : Chain) (h : Handle) (insn : Instruction Label) : Chain :=
  c.onNode h fun node => { node with insn, raw := none }

/-- Makes the sequence exactly `order`: all nodes leave it, and these come back one by one. -/
def relink (c : Chain) (order : List Handle) : Chain :=
  let nodes := c.nodes.map fun node => { node with prev := none, next := none, linked := false }
  order.foldl append { nodes }

section Removal

variable {σ : Type}

/-- Takes the nodes from a start on that `p` asks for out of the sequence and counts them. The test
sees each handle with its instruction, and may keep a state. The next node is looked up before the
test, since a node that is out of the sequence has none. -/
def removeFrom (p : Handle → Instruction Label → StateM σ Bool) (c : Chain) (removed : Nat)
    (state : σ) : Nat → Option Handle → Option ((Nat × Chain) × σ)
  | _, none => some ((removed, c), state)
  | 0, some _ => none
  | bound + 1, some h =>
    match p h (c.get h) state with
    | (true, state) => removeFrom p (c.remove h) (removed + 1) state bound (c.next? h)
    | (false, state) => removeFrom p c removed state bound (c.next? h)

/-- Takes every linked node that `p` asks for out of the sequence, and counts them. -/
def removeIf (c : Chain) (p : Handle → Instruction Label → StateM σ Bool) (state : σ) :
    Option ((Nat × Chain) × σ) :=
  removeFrom p c 0 state c.bound c.first?

end Removal

end Chain

end Unscramble
