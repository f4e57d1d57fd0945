import Unscramble.Error
import Unscramble.Partition
import Unscramble.Slot.Reaching

/-! # Splitting local slots

Obfuscated code reuses a local slot for unrelated variables. A load and the stores that reach it
share a variable; the instructions that are linked in this way form a group, and each group gets a
slot of its own, in order of the groups' first instructions. A group with a load that an argument's
incoming value reaches keeps its slot.

Main definitions: `groupsBy`, `groups`, `splitBy`, `split`, `splitInPlaceBy`, `splitInPlace`. -/

namespace Unscramble.Slot

/-- What splitting did. -/
structure Split where
  /-- How many groups got a new slot. -/
  groups : Nat := 0
  /-- How many instructions changed their slot. -/
  renumbered : Nat := 0
  /-- How many slots the body uses now. -/
  maxLocals : UInt16 := 0
  /-- Whether anything changed. -/
  changed : Bool := false
deriving DecidableEq, Repr, Inhabited

/-- An instruction that names a local slot. -/
structure Access where
  /-- Its handle. -/
  handle : Handle
  /-- Its place in the list. -/
  position : Nat
  /-- The instruction. -/
  insn : Instruction Label
deriving Repr, Inhabited

/-- The instructions of a listing that read or write a local slot, in order. -/
def accesses (l : Listing) : List Access :=
  l.handles.zipIdx.filterMap fun (handle, position) =>
    let insn := l.get handle
    if insn.loaded?.isSome || insn.stored?.isSome then some ⟨handle, position, insn⟩ else none

/-- What is known of the accesses while their loads are looked at. -/
structure Linking (State : Type) where
  /-- Which accesses share a variable, by number. -/
  partition : State
  /-- The numbers of the loads that an argument's incoming value reaches. -/
  incoming : List Nat := []
deriving Repr, Inhabited

/-- Links a load with the stores that reach it. -/
def linkLoad (U : UnionFind) (g : FlowGraph) (firstLocal : Nat) (all : List (Access × Nat))
    (state : Linking U.State) (load : Access × Nat) : Linking U.State :=
  match load.1.insn.loaded? with
  | none => state
  | some slot =>
    let sources := g.sources slot (load.1.position + 1)
    let stores := all.filter fun (a, _) =>
      a.insn.stored? == some slot && Flow.isMarked sources (a.position + 1)
    { partition := stores.foldl (fun s (_, i) => U.join s load.2 i) state.partition
      incoming :=
        if Flow.isMarked sources 0 && slot.toNat < firstLocal then load.2 :: state.incoming
        else state.incoming }

/-- A group of accesses that share a variable. -/
structure Group where
  /-- The accesses in order. -/
  members : List Access
  /-- Whether an argument's incoming value reaches one of them. -/
  incoming : Bool
deriving Repr, Inhabited

namespace Group

/-- How many slots the group needs: two if some access is to a 64-bit value. -/
def width (g : Group) : Nat :=
  if g.members.any fun a => a.insn.opcode?.any Opcode.isWideAccess then 2 else 1

/-- The first two slots in a row that differ. -/
def clash? : List UInt16 → Option (UInt16 × UInt16)
  | a :: b :: rest => if a = b then clash? (b :: rest) else some (a, b)
  | _ => none

/-- The slots that the members name. -/
def slots (g : Group) : List UInt16 :=
  g.members.filterMap fun a => a.insn.slot?

end Group

/-- The groups of accesses of a body, in order of their first instructions, as disjoint sets tell them.
-/
def groupsBy (U : UnionFind) (firstLocal : Nat) (b : Body) : List Group :=
  let g := FlowGraph.ofBody b
  let all := (accesses b.listing).zipIdx
  let start : Linking U.State := { partition := U.discrete all.length }
  let linking := all.foldl (linkLoad U g firstLocal all) start
  let table := all.toArray
  let incoming := Flow.mark all.length linking.incoming
  (classesBy (U.root linking.partition) all.length).map fun members =>
    { members := members.filterMap fun i => (table[i]?).map (·.1)
      incoming := members.any (Flow.isMarked incoming) }

/-- The groups of accesses of a body. -/
abbrev groups (firstLocal : Nat) (b : Body) : List Group :=
  groupsBy Partition.unionFind firstLocal b

/-- The groups that get a new slot, with that slot, from slot `next` on; and the first slot that is
free in the end. -/
def assign (method : Method) (next : Nat) : List Group → Except Error (List (Group × Nat) × Nat)
  | [] => .ok ([], next)
  | g :: rest =>
    match Group.clash? g.slots with
    | some (first, second) => .error (.mergedSlots method.text first second)
    | none =>
      if g.incoming then assign method next rest
      else if 65535 < next + g.width then .error (.slotsExhausted method.text)
      else do
        let (assigned, free) ← assign method (next + g.width) rest
        return ((g, next) :: assigned, free)

/-- Gives an access its new slot and counts it if that is another one. -/
def renumber (slot : UInt16) (state : Nat × Listing) (a : Access) : Nat × Listing :=
  if a.insn.slot? = some slot then state
  else (state.1 + 1, state.2.modify a.handle (Instruction.withSlot slot))

/-- Gives every variable of a body a slot of its own. The variables are those that disjoint sets tell.
-/
def splitBy (U : UnionFind) (method : Method) (b : Body) : Except Error (Split × Body) := do
  let firstLocal := method.firstLocal
  let (assigned, free) ← assign method firstLocal (groupsBy U firstLocal b)
  let (renumbered, listing) := assigned.foldl
    (fun state (g, slot) => g.members.foldl (renumber slot.toUInt16) state) (0, b.listing)
  let maxLocals := free.toUInt16
  let changed := 0 < renumbered || b.maxLocals != maxLocals
  return ({ groups := assigned.length, renumbered, maxLocals, changed },
    { b with listing, maxLocals })

/-- Gives every variable of a body a slot of its own. -/
abbrev split (method : Method) (b : Body) : Except Error (Split × Body) :=
  splitBy Partition.unionFind method b

/-! ### In place -/

/-- A series of edits of a body that may fail on the way. -/
abbrev Edit := ExceptT Error (StateM Body)

/-- Makes edits, and tells the outcome and what they leave. -/
def Edit.on {α : Type} (e : Edit α) (b : Body) : Except Error α × Body :=
  (ExceptT.run e).run b

/-- Gives an instruction a slot and counts it if it named another one by then. -/
def rename (count : Nat) (handle : Handle) (slot : UInt16) : Edit Nat := do
  let b ← get
  if (b.listing.get handle).slot? = some slot then return count
  set { b with listing := b.listing.modify handle (Instruction.withSlot slot) }
  return count + 1

/-- Gives instructions their slots one after the other. -/
def renameAll (count : Nat) : List (Handle × UInt16) → Edit Nat
  | [] => return count
  | (handle, slot) :: rest => do
    let count ← rename count handle slot
    renameAll count rest

/-- Gives every variable of a body a slot of its own, as the edits that are made one after the other.
What comes of them is told by `splitBy`. -/
def splitInPlaceBy (U : UnionFind) (method : Method) : Edit Split := do
  let b ← get
  let firstLocal := method.firstLocal
  let (assigned, free) ← assign method firstLocal (groupsBy U firstLocal b)
  let renumbered ← renameAll 0 <| assigned.flatMap fun (g, slot) =>
    g.members.map fun a => (a.handle, slot.toUInt16)
  let maxLocals := free.toUInt16
  let changed := 0 < renumbered || b.maxLocals != maxLocals
  modify fun b => { b with maxLocals }
  return { groups := assigned.length, renumbered, maxLocals, changed }

/-- Gives every variable of a body a slot of its own, edit by edit. -/
abbrev splitInPlace (method : Method) : Edit Split :=
  splitInPlaceBy Partition.unionFind method

end Unscramble.Slot
