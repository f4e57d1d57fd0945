import Unscramble.Binary.InstructionReader
import Unscramble.Binary.Layout
import Unscramble.Body

/-! # Reading and writing bodies

The encoded body of a method becomes a listing with a label wherever a jump or a protected range
leads, and with a marker wherever a source line begins. Labels are made as they are met: those of
the ranges first, then those of each instruction before the instruction itself. When a body is
written, ranges that cover nothing are left out, and so are line markers behind the last instruction.

Main definitions: `readAttributes`, `Assembly`, `readBody`, `bodyBytes`. -/

namespace Unscramble.Binary

open Reader

/-- Reads a table of named parts. -/
def readAttributes (pool : Pool) : Reader (List Attribute) :=
  counted do
    let name ← indexed pool.utf8At
    return ⟨name, ← bytes (← u32).toNat⟩

/-- Reads a protected range of a body of the given length. -/
def readGuard (pool : Pool) (length : Nat) : Reader (Guard Nat) := do
  let start ← u16
  let stop ← u16
  let handler ← u16
  let catches ← indexed? pool.classAt
  return ⟨← target length start.toNat, ← target length stop.toNat, ← target length handler.toNat,
    catches⟩

/-- Parts of a body that describe offsets or types. They no longer hold once instructions move. -/
def droppedParts : List String := ["StackMapTable", "LocalVariableTable", "LocalVariableTypeTable"]

/-- The part that tells where source lines begin. -/
def lineTable : String := "LineNumberTable"

/-- Reads where source lines begin: an offset and a line each. -/
def readLines : Reader (List (Nat × UInt16)) :=
  counted do
    let offset ← u16
    return (offset.toNat, ← u16)

/-- The source lines that all line tables among some parts tell. -/
def linesOf (parts : List Attribute) : Except Malformation (List (Nat × UInt16)) := do
  let tables ← (parts.filter (·.name == lineTable)).mapM fun part => readLines.on part.data
  return tables.flatten

/-- A listing being put together from located instructions. -/
structure Assembly where
  /-- The listing. -/
  listing : Listing := {}
  /-- The label at each offset that has one. -/
  labels : Array (Option Label)

namespace Assembly

/-- An empty listing for a body of the given length. -/
def start (length : Nat) : Assembly :=
  { labels := Array.replicate (length + 1) none }

/-- The label at an offset. -/
def label? (a : Assembly) (offset : Nat) : Option Label :=
  a.labels[offset]?.join

/-- Makes the label at an offset unless there is one. -/
def addLabel (a : Assembly) (offset : Nat) : Assembly :=
  match a.label? offset with
  | some _ => a
  | none =>
    let (label, listing) := a.listing.create .label
    ⟨listing, a.labels.setIfInBounds offset (some label)⟩

/-- The handle that stands for an offset. -/
def resolve (a : Assembly) (offset : Nat) : Label :=
  (a.label? offset).getD 0

/-- Makes the node of an instruction after its labels. -/
def addInstruction (state : Assembly × List (Nat × Handle)) (i : Located) :
    Assembly × List (Nat × Handle) :=
  let a := i.insn.mentioned.foldl addLabel state.1
  let (h, listing) := a.listing.create (i.insn.map a.resolve)
  ({ a with listing := listing.setRawForm h i.raw }, (i.offset, h) :: state.2)

/-- Links the label and the line markers at an offset. -/
def placeMarkers (lines : Array (List UInt16)) (a : Assembly) (offset : Nat) : Assembly :=
  let listing := ((a.label? offset).toList).foldl Listing.append a.listing
  { a with listing := ((lines[offset]?).getD []).foldl (fun l n => (l.push (.line n)).2) listing }

/-- Links an instruction after what stands in front of it. -/
def place (lines : Array (List UInt16)) (a : Assembly) (i : Nat × Handle) : Assembly :=
  let a := a.placeMarkers lines i.1
  { a with listing := a.listing.append i.2 }

end Assembly

/-- The lines that begin at each offset of a body of the given length. -/
def linesByOffset (length : Nat) (lines : List (Nat × UInt16)) : Array (List UInt16) :=
  lines.reverse.foldl (fun table (offset, line) => table.modify offset (line :: ·))
    (Array.replicate (length + 1) [])

/-- The offsets of a body at which a label can stand. -/
def starts (length : Nat) (code : List Located) : Array Bool :=
  (code.foldl (fun marks i => marks.setIfInBounds i.offset true)
    (Array.replicate (length + 1) false)).setIfInBounds length true

/-- Puts a listing and its ranges together. A label has to stand in front of an instruction or
behind the last one. -/
def assemble (length : Nat) (guards : List (Guard Nat)) (lines : List (Nat × UInt16))
    (code : List Located) : Except Malformation (Listing × List (Guard Label)) :=
  let a := (guards.flatMap Guard.labels).foldl Assembly.addLabel (Assembly.start length)
  let (a, placed) := code.foldl Assembly.addInstruction (a, [])
  let starts := starts length code
  let isAmiss := fun offset => (a.label? offset).isSome && starts[offset]? != some true
  if (List.range (length + 1)).any isAmiss then .error .targetInside
  else
    let lines := linesByOffset length lines
    let done := (placed.reverse.foldl (Assembly.place lines) a).placeMarkers lines length
    .ok (done.listing, guards.map (Guard.map a.resolve))

/-- Reads the body of a method. -/
def readBody (pool : Pool) : Reader Body := do
  let maxStack ← u16
  let maxLocals ← u16
  let length := (← u32).toNat
  let code ← bytes length
  let guards ← counted (readGuard pool length)
  let parts ← readAttributes pool
  let lines ← require (linesOf parts)
  let code ← require (readInstructions pool code)
  let (listing, guards) ← require (assemble length guards lines code)
  return { listing, guards, maxStack, maxLocals
           attributes := parts.filter fun part =>
             part.name != lineTable && !droppedParts.contains part.name }

end Unscramble.Binary

/-! ### Writing -/

namespace Unscramble.Binary

/-- Continues with an answer, or fails with its cause. -/
def settled {α : Type} : Except Malformation α → PoolM α
  | .ok a => pure a
  | .error cause => throw cause

/-- A named part: its contents are made before its name joins the pool. -/
def part (name : String) (contents : PoolM Bytes) : PoolM (List Bytes) := do
  let data ← contents
  let i ← Pool.utf8 name
  return [word16 i ++ count32 data.length ++ data]

/-- A table of encoded parts. -/
def partTable (parts : List Bytes) : Bytes :=
  count16 parts.length ++ parts.flatten

/-- The parts that are carried along. -/
def carriedParts (attributes : List Attribute) : PoolM (List Bytes) := do
  return (← attributes.mapM fun a => part a.name (pure a.data)).flatten

/-- Encodes items one after the other behind their 16-bit count. -/
def countedBytes {α : Type} (items : List α) (encode : α → PoolM Bytes) : PoolM Bytes := do
  return count16 items.length ++ (← items.mapM encode).flatten

/-- An index for something that may be absent, for which 0 stands. -/
def indexOrZero {α : Type} (add : α → PoolM UInt16) : Option α → PoolM UInt16
  | none => return 0
  | some a => add a

/-- The bytes of a range, none if it covers nothing. -/
def guardBytes (l : Layout) (g : Guard Label) : PoolM (List Bytes) := do
  let start ← settled (l.offsetOf g.start)
  let stop ← settled (l.offsetOf g.stop)
  let handler ← settled (l.offsetOf g.handler)
  if stop ≤ start then return []
  let catches ← indexOrZero Pool.ofClass g.catches
  return [count16 start ++ count16 stop ++ count16 handler ++ word16 catches]

/-- The line markers of a listing with their offsets, up to the last instruction. -/
def markedLines (l : Layout) (listing : Listing) : List (Nat × UInt16) :=
  listing.instructions.zipIdx.filterMap fun (insn, position) =>
    match insn with
    | .line n => if l.offsetAt position < l.length then some (l.offsetAt position, n) else none
    | _ => none

/-- The table of source lines, if there are any. -/
def linePart (lines : List (Nat × UInt16)) : PoolM (List Bytes) :=
  if lines.isEmpty then return []
  else part lineTable (countedBytes lines fun (offset, n) => return count16 offset ++ word16 n)

/-- The bytes of a body. -/
def bodyBytes (method : String) (b : Body) : PoolM Bytes := do
  let forms ← b.listing.handles.mapM fun h => Form.choose (b.listing.get h) (b.listing.rawForm? h)
  let l ← settled (Layout.settle b.listing.positions method forms)
  if 65535 < l.length then throw (.bodyTooLarge method)
  let code ← settled l.bytes
  let guards := (← b.guards.mapM (guardBytes l)).flatten
  let lines ← linePart (markedLines l b.listing)
  let parts := lines ++ (← carriedParts b.attributes)
  return word16 b.maxStack ++ word16 b.maxLocals ++ count32 code.length ++ code ++
    partTable guards ++ partTable parts

end Unscramble.Binary
