import Unscramble.Class.Basic
import Unscramble.Flow.Search

/-! # Reaching stores

Which stores can provide the value that a load of a local slot reads. The flow graph has a point for
the entry of the method, number 0, and a point for each linked instruction, numbered by its position
plus one. Control passes to the next instruction unless an instruction is terminal, to every target,
and from every point of a protected range to its handler.

Main definitions: `FlowGraph`, `FlowGraph.ofBody`, `FlowGraph.sources`. -/

namespace Unscramble.Slot

/-- The instructions of a body with the points from which control comes to each. -/
structure FlowGraph where
  /-- The instructions in order. -/
  insns : Array (Instruction Label)
  /-- The points that lead to each point, by point. -/
  predecessors : Array (List Nat)
deriving Repr, Inhabited

/-- The points of a protected range: from its start up to its end, or to the end of the list if its
end does not follow. -/
def guardedPoints (positions : Array (Option Nat)) (length : Nat) (g : Guard Label) : List Nat :=
  match Listing.positionIn positions g.start with
  | none => []
  | some first =>
    let stop :=
      match Listing.positionIn positions g.stop with
      | some stop => if first ≤ stop then stop else length
      | none => length
    (List.range (stop - first)).map (· + first + 1)

/-- The edges from protected points to handlers. -/
def guardEdges (positions : Array (Option Nat)) (length : Nat) (g : Guard Label) :
    List (Nat × Nat) :=
  match Listing.positionIn positions g.handler with
  | none => []
  | some handler => (guardedPoints positions length g).map (·, handler + 1)

/-- The edges from the instruction at a position to the next one and to its targets. -/
def stepEdges (positions : Array (Option Nat)) (length : Nat) (insn : Instruction Label)
    (position : Nat) : List (Nat × Nat) :=
  let below :=
    if insn.isTerminal || length ≤ position + 1 then [] else [(position + 1, position + 2)]
  below ++ insn.targets.filterMap fun label =>
    (Listing.positionIn positions label).map fun target => (position + 1, target + 1)

/-- The edges of the flow graph of a body. -/
def flowEdges (b : Body) : List (Nat × Nat) :=
  let positions := b.listing.positions
  let length := b.listing.length
  (if length = 0 then [] else [(0, 1)]) ++
    b.listing.instructions.zipIdx.flatMap (fun (insn, i) => stepEdges positions length insn i) ++
    b.guards.flatMap (guardEdges positions length)

namespace FlowGraph

/-- The flow graph of a body. -/
def ofBody (b : Body) : FlowGraph :=
  let insns := b.listing.instructions.toArray
  { insns
    predecessors := (flowEdges b).foldl (fun table (source, target) =>
      table.modify target (source :: ·)) (Array.replicate (insns.size + 1) []) }

/-- The slot that the instruction at a point writes. -/
def storedAt (g : FlowGraph) (point : Nat) : Option UInt16 :=
  match point with
  | 0 => none
  | i + 1 => (g.insns[i]?).bind Instruction.stored?

/-- The points that lead to a point. -/
def before (g : FlowGraph) (point : Nat) : List Nat :=
  (g.predecessors[point]?).getD []

/-- The marks of the points from which control comes to a point without passing a store to the slot;
stores to the slot are marked but not passed. The mark of the entry says that the value may be the
one the slot had at first. -/
def sources (g : FlowGraph) (slot : UInt16) (point : Nat) : Array Bool :=
  let next := fun p => if g.storedAt p = some slot then [] else g.before p
  Flow.reachable next g.predecessors.size (g.before point)

end FlowGraph

end Unscramble.Slot
