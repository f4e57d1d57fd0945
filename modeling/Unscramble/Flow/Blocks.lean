import Unscramble.Class.Basic
import Unscramble.Flow.Search

/-! # Basic blocks

A listing is cut into blocks in front of every label. Blocks are numbered: the entry is block 0, and
the others are numbered as their labels are first met, at their place or as a target. A label that
is a target and stands nowhere has an empty block. A block graph is drawn in the dot language: a box
with the instructions of each block, and an arrow for each edge.

Main definitions: `BlockGraph`, `BlockGraph.ofListing`, `BlockGraph.order`, `BlockGraph.drawing`. -/

namespace Unscramble.Flow

/-- A stretch of instructions that is entered only at its top. -/
structure Block where
  /-- The label the block starts with, which only the entry lacks. -/
  label : Option Label := none
  /-- The instructions of the block, its label included. -/
  handles : List Handle := []
deriving Repr, Inhabited

namespace Block

/-- The last real instruction of the block. -/
def lastReal? (l : Listing) (b : Block) : Option Handle :=
  b.handles.reverse.find? l.isReal

/-- Whether control never leaves the block at its bottom. -/
def isTerminal (l : Listing) (b : Block) : Bool :=
  (b.lastReal? l).any fun h => (l.get h).isTerminal

/-- The targets of the block's jumps and switches, in order. -/
def targets (l : Listing) (b : Block) : List Label :=
  b.handles.flatMap fun h => (l.get h).targets

end Block

/-- How control passes along an edge. -/
inductive EdgeKind where
  /-- To a target, which is number `ordinal` among the targets of the block. -/
  | jump (ordinal : Nat)
  /-- Through the bottom of the block. -/
  | fall
deriving DecidableEq, Repr, Inhabited

/-- An edge between two blocks. -/
structure Edge where
  /-- The block that control leaves. -/
  source : Nat
  /-- The block that control enters. -/
  target : Nat
  /-- How it does so. -/
  kind : EdgeKind
deriving DecidableEq, Repr, Inhabited

/-- The blocks of a listing with the edges between them. -/
structure BlockGraph where
  /-- The blocks by number. -/
  blocks : Array Block
  /-- The edges, in list order of their sources; those of one block have the jumps first. -/
  edges : List Edge
deriving Repr, Inhabited

/-- Cuts handles into blocks in front of every label; `current` holds the handles of the block being
read, last first, and `done` the blocks before it, last first. -/
def cutBlocks (l : Listing) (current : Block) (done : List Block) : List Handle → List Block
  | [] => ({ current with handles := current.handles.reverse } :: done).reverse
  | h :: rest =>
    if (l.get h).isLabel then
      cutBlocks l ⟨some h, [h]⟩ ({ current with handles := current.handles.reverse } :: done) rest
    else cutBlocks l { current with handles := h :: current.handles } done rest

/-- The blocks of a listing in list order, the entry first. -/
def blocksOf (l : Listing) : List Block :=
  cutBlocks l {} [] l.handles

/-- The labels in the order in which a listing mentions them, at their place or as a target. -/
def mentionedLabels (l : Listing) : List Label :=
  l.handles.flatMap fun h => if (l.get h).isLabel then [h] else (l.get h).targets

/-- A number above every label that a listing mentions. -/
def labelBound (l : Listing) : Nat :=
  (mentionedLabels l).foldl (fun bound label => max bound (label + 1)) 0

/-- Numbers the labels from 1 on in the order of their first mention. Answers the number of each
label by handle, and the labels in order. -/
def numberLabels (l : Listing) : Array Nat × List Label :=
  let step := fun (state : Array Nat × Array Label) label =>
    if state.1[label]? == some 0 then
      (state.1.setIfInBounds label (state.2.size + 1), state.2.push label)
    else state
  let (numbers, labels) := (mentionedLabels l).foldl step (Array.replicate (labelBound l) 0, #[])
  (numbers, labels.toList)

/-- The number of the block with a given label; the entry has number 0. -/
def blockNumber (numbers : Array Nat) (label : Option Label) : Nat :=
  (label.bind fun h => numbers[h]?).getD 0

/-- The edges along the jumps of a block. -/
def jumpEdges (l : Listing) (numbers : Array Nat) (b : Block) : List Edge :=
  (b.targets l).zipIdx.map fun (label, ordinal) =>
    ⟨blockNumber numbers b.label, blockNumber numbers (some label), .jump ordinal⟩

/-- The edges of consecutive blocks: the jumps of each, and the edge through its bottom to the next.
-/
def edgesOf (l : Listing) (numbers : Array Nat) (blocks : List Block) : List Edge :=
  (blocks.zip (blocks.drop 1 |>.map some |>.append [none])).flatMap fun (b, next) =>
    jumpEdges l numbers b ++
      match next with
      | some next =>
        if b.isTerminal l then []
        else [⟨blockNumber numbers b.label, blockNumber numbers next.label, .fall⟩]
      | none => []

namespace BlockGraph

/-- The block graph of a listing. -/
def ofListing (l : Listing) : BlockGraph :=
  let blocks := blocksOf l
  let (numbers, labels) := numberLabels l
  let empty := (⟨none, []⟩ :: labels.map fun label => ⟨some label, []⟩ : List Block).toArray
  { blocks :=
      blocks.foldl (fun table b => table.setIfInBounds (blockNumber numbers b.label) b) empty
    edges := edgesOf l numbers blocks }

/-- The block with a given number. -/
def block (g : BlockGraph) (n : Nat) : Block :=
  g.blocks[n]?.getD {}

/-- The blocks that each block leads to: the targets of its jumps in order, then the block below. -/
def successors (g : BlockGraph) : Array (List Nat) :=
  g.edges.reverse.foldl (fun table e => table.modify e.source (e.target :: ·))
    (Array.replicate g.blocks.size [])

/-- The block that control falls into at the bottom of a block. -/
def fallthrough? (g : BlockGraph) (n : Nat) : Option Nat :=
  (g.edges.find? fun e => e.source == n && e.kind == .fall).map (·.target)

/-- The blocks that the entry reaches: the reverse of the order in which a depth-first search, which
follows jumps in order and the bottom of a block last, leaves them. -/
def order (g : BlockGraph) : List Nat :=
  let successors := g.successors
  finishOrder (fun n => successors[n]?.getD []) g.blocks.size 0

end BlockGraph

/-! ### Drawings -/

/-- How a character is written in the label of a box. A line feed ends a line aligned to the left.
-/
def escapeLabel (c : Char) : String :=
  if c == '\n' then "\\l"
  else if c == '"' || c == '\\' then String.ofList ['\\', c]
  else c.toString

/-- The instructions of a block, one per line. -/
def Block.text (l : Listing) (b : Block) : String :=
  String.join (b.handles.map fun h => l.textAt h ++ "\n")

/-- The line of a block. -/
def boxLine (l : Listing) (n : Nat) (b : Block) : String :=
  "    " ++ toString n ++ " [ label = \"" ++
    String.join ((b.text l).toList.map escapeLabel) ++ "\" ]\n"

/-- The line of an edge. -/
def arrowLine (e : Edge) : String :=
  "    " ++ toString e.source ++ " -> " ++ toString e.target ++ " [ ]\n"

/-- The text of the drawing. -/
def BlockGraph.drawing (l : Listing) (g : BlockGraph) : String :=
  let boxes := g.blocks.toList.zipIdx.map fun (b, n) => boxLine l n b
  "digraph \x7b\n" ++ String.join boxes ++ String.join (g.edges.map arrowLine) ++ "\x7d\n"

/-- The name of the file that holds the drawing of a method: every character that is neither an
ASCII letter or digit nor a dot becomes an underscore. -/
def drawingName (m : Method) : String :=
  m.text.map (fun c => if c.isAlphanum || c == '.' then c else '_') ++ ".dot"

end Unscramble.Flow
