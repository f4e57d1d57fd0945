import Unscramble.Flow.Blocks

/-! # Normalizing control flow

The normalizer removes instructions that cannot be reached, lays the blocks out in depth-first
order, and removes jumps to the next instruction and labels that nothing refers to. A body with
protected ranges keeps its order and its unreachable instructions, so that every range covers what
it covered.

Main definitions: `removeUnreachable`, `sortBlocks`, `removeRedundantGotos`, `removeUnusedLabels`,
`normalize`. -/

namespace Unscramble.Flow

/-- The handle that follows each linked handle, by handle. -/
def followers (l : Listing) : Array (Option Handle) :=
  (l.handles.zip (l.handles.drop 1)).foldl (fun table (h, n) => table.setIfInBounds h (some n))
    (Array.replicate l.capacity none)

/-- Where control can go from an instruction: to the next one unless it is terminal, and to its
targets. -/
def flowsTo (l : Listing) (followers : Array (Option Handle)) (h : Handle) : List Handle :=
  let insn := l.get h
  (if insn.isTerminal then [] else (followers[h]?.join).toList) ++ insn.targets

/-- The marks of the instructions that control can reach from the entry or a handler. -/
def liveHandles (b : Body) : Array Bool :=
  let l := b.listing
  let followers := followers l
  reachable (flowsTo l followers) l.capacity (l.first?.toList ++ b.guards.map (·.handler))

/-- Removes every instruction that control cannot reach, apart from the labels of ranges, and counts
them. -/
def removeUnreachable (b : Body) : Nat × Body :=
  let live := liveHandles b
  let kept := mark b.listing.capacity b.guardLabels
  let (count, listing) := b.listing.removeIf fun h _ => !isMarked live h && !isMarked kept h
  (count, { b with listing })

/-- The blocks that keep their instructions when they are laid out, each with the block laid out
after it. -/
def layOut (g : BlockGraph) : List (Nat × Option Nat) :=
  let order := g.order.filter fun n => !(g.block n).handles.isEmpty
  order.zip (order.drop 1 |>.map some |>.append [none])

/-- The label that a block has to jump to at its bottom, because the block below is laid out
elsewhere. -/
def detour? (l : Listing) (g : BlockGraph) (n : Nat) (next : Option Nat) : Option Label :=
  if (g.block n).isTerminal l then none else
    match g.fallthrough? n with
    | none => none
    | some below => if next = some below then none else (g.block below).label

/-- Adds a block to the handles laid out so far, with a jump where it needs one. -/
def placeBlock (g : BlockGraph) (state : Listing × Array Handle) (place : Nat × Option Nat) :
    Listing × Array Handle :=
  let (l, placed) := state
  let placed := placed ++ (g.block place.1).handles.toArray
  match detour? l g place.1 place.2 with
  | none => (l, placed)
  | some label =>
    let (jump, l) := l.create (.jump .goto label)
    (l, placed.push jump)

/-- Lays the blocks out in depth-first order. A block that falls into another one which is not laid
out right after it gets a jump there. -/
def sortBlocks (l : Listing) : Listing :=
  let g := BlockGraph.ofListing l
  let (l, placed) := (layOut g).foldl (placeBlock g) (l, #[])
  l.relink placed

/-- Whether an instruction is a jump to the next real instruction. -/
def isRedundantGoto (l : Listing) (h : Handle) : Bool :=
  match l.get h with
  | .jump op target =>
    op == .goto &&
      match (l.after h).find? l.isReal with
      | none => false
      | some following => l.nextReal? target == some following
  | _ => false

/-- Removes every jump to the next real instruction, in list order, and counts them. -/
def removeRedundantGotos (l : Listing) : Nat × Listing :=
  l.handles.foldl
    (fun (count, l) h => if isRedundantGoto l h then (count + 1, l.remove h) else (count, l)) (0, l)

/-- Removes the labels that neither an instruction nor a range refers to, and counts them. -/
def removeUnusedLabels (b : Body) : Nat × Body :=
  let l := b.listing
  let used := mark l.capacity (b.guardLabels ++ l.handles.flatMap fun h => (l.get h).targets)
  let (count, listing) := l.removeIf fun h insn => insn.isLabel && !isMarked used h
  (count, { b with listing })

/-- What the normalizer did. -/
structure Normalized where
  /-- How many unreachable instructions went. -/
  unreachable : Nat := 0
  /-- How many jumps went. -/
  gotos : Nat := 0
  /-- How many labels went. -/
  labels : Nat := 0
  /-- Whether the blocks were laid out anew. -/
  sorted : Bool := false
deriving DecidableEq, Repr, Inhabited

/-- Normalizes a body. -/
def normalize (b : Body) : Normalized × Body :=
  let (unreachable, sorted, b) :=
    if b.guards.isEmpty then
      let (count, b) := removeUnreachable b
      (count, true, { b with listing := sortBlocks b.listing })
    else (0, false, b)
  let (gotos, listing) := removeRedundantGotos b.listing
  let (labels, b) := removeUnusedLabels { b with listing }
  ({ unreachable, gotos, labels, sorted }, b)

end Unscramble.Flow
