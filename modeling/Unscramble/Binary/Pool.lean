import Std.Data.HashMap
import Unscramble.Binary.Malformation
import Unscramble.Binary.ModifiedUtf8
import Unscramble.Instruction

/-! # Constant pools

The constant pool of a class. A pool only grows: an entry keeps its index, and adding an entry that
is already there gives the index it has. A compound entry adds its parts first, and the parts stay
if the whole does not fit.

Main definitions: `Pool`, the insertions `Pool.utf8`, `Pool.ofClass`, `Pool.member`,
`Pool.invokeDynamic`, `Pool.constant`, and the readers `Pool.utf8At` to `Pool.constantAt`. -/

namespace Unscramble.Binary

/-- An entry of a pool. -/
structure PoolSlot where
  /-- The entry. -/
  entry : Entry
  /-- The bytes of a text that does not encode to the bytes it was read from. -/
  verbatim : Option Bytes := none
deriving Repr, Inhabited

/-- A constant pool. -/
structure Pool where
  /-- The slots by index. Slot 0 is never used. -/
  slots : Array PoolSlot
  /-- The least index of each entry. -/
  index : Std.HashMap Entry UInt16
deriving Inhabited

/-- Adds to a pool and may fail; what was added before a failure stays. -/
abbrev PoolM := ExceptT Malformation (StateM Pool)

namespace Pool

/-- A pool without entries. -/
def empty : Pool :=
  { slots := #[⟨.unusable, none⟩], index := ∅ }

/-- The number of slots, slot 0 included. -/
def size (p : Pool) : Nat :=
  p.slots.size

/-- Whether nothing was added. -/
def isEmpty (p : Pool) : Bool :=
  p.slots.size ≤ 1

/-- Appends an entry, with an unusable slot behind a 64-bit number. The index keeps naming the first
slot that holds the entry. -/
def append : Pool → PoolSlot → Pool
  | ⟨slots, index⟩, slot =>
    let i := slots.size.toUInt16
    let slots := slots.push slot
    { slots := if slot.entry.isWide then slots.push ⟨.unusable, none⟩ else slots
      index := index.insertIfNew slot.entry i }

/-- The index of an entry, which is appended if it is new. -/
def intern (entry : Entry) : PoolM UInt16 := fun p =>
  match p.index[entry]? with
  | some i => (.ok i, p)
  | none =>
    let size := p.size
    if 65535 < size + entry.slots then (.error .poolFull, p)
    else (.ok size.toUInt16, p.append ⟨entry, none⟩)

/-- Adds a text. -/
def utf8 (text : String) : PoolM UInt16 := do
  if 65535 < (ModifiedUtf8.encode text).length then throw .textTooLong
  intern (.utf8 text)

/-- Adds a class. -/
def ofClass (name : String) : PoolM UInt16 := do
  intern (.ofClass (← utf8 name))

/-- Adds a name with a descriptor. -/
def nameAndType (name descriptor : String) : PoolM UInt16 := do
  let n ← utf8 name
  let d ← utf8 descriptor
  intern (.nameAndType n d)

/-- Adds a member reference. -/
def member (m : Member) (kind : MemberKind) : PoolM UInt16 := do
  let owner ← ofClass m.owner
  let nt ← nameAndType m.name m.descriptor
  intern (.member kind owner nt)

/-- Adds a call site for a bootstrap method. -/
def invokeDynamic (call : DynamicCall) : PoolM UInt16 := do
  let nt ← nameAndType call.name call.descriptor
  intern (.invokeDynamic call.bootstrap nt)

/-- The kind of reference that a method handle holds. -/
def handleKind (kind : UInt8) (viaInterface : Bool) : MemberKind :=
  if 1 ≤ kind && kind ≤ 4 then .field else if viaInterface then .interfaceMethod else .method

/-- Adds a constant. -/
def constant : Constant → PoolM UInt16
  | .int v => intern (.int v)
  | .float bits => intern (.float bits)
  | .long v => intern (.long v)
  | .double bits => intern (.double bits)
  | .string s => do intern (.string (← utf8 s))
  | .ofClass name => ofClass name
  | .methodType d => do intern (.methodType (← utf8 d))
  | .methodHandle kind m viaInterface => do
    intern (.methodHandle kind (← member m (handleKind kind viaInterface)))
  | .dynamic bootstrap name d => do intern (.dynamic bootstrap (← nameAndType name d))

/-- The usable entry at an index. -/
def entryAt (p : Pool) (i : UInt16) : Except Malformation Entry :=
  match p.slots[i.toNat]? with
  | none | some ⟨.unusable, _⟩ => .error (.badIndex i)
  | some slot => .ok slot.entry

/-- The text at an index. -/
def utf8At (p : Pool) (i : UInt16) : Except Malformation String := do
  match ← p.entryAt i with
  | .utf8 text => return text
  | other => throw (.unexpected i other .utf8)

/-- The class at an index. -/
def classAt (p : Pool) (i : UInt16) : Except Malformation String := do
  match ← p.entryAt i with
  | .ofClass name => p.utf8At name
  | other => throw (.unexpected i other .ofClass)

/-- The name and the descriptor at an index. -/
def nameAndTypeAt (p : Pool) (i : UInt16) : Except Malformation (String × String) := do
  match ← p.entryAt i with
  | .nameAndType name descriptor => return (← p.utf8At name, ← p.utf8At descriptor)
  | other => throw (.unexpected i other .nameAndType)

/-- The member reference at an index. -/
def memberAt (p : Pool) (i : UInt16) : Except Malformation (Member × MemberKind) := do
  match ← p.entryAt i with
  | .member kind owner nt =>
    let (name, descriptor) ← p.nameAndTypeAt nt
    return (⟨← p.classAt owner, name, descriptor⟩, kind)
  | other => throw (.unexpected i other .member)

/-- The call site at an index. -/
def dynamicAt (p : Pool) (i : UInt16) : Except Malformation DynamicCall := do
  match ← p.entryAt i with
  | .invokeDynamic bootstrap nt =>
    let (name, descriptor) ← p.nameAndTypeAt nt
    return ⟨bootstrap, name, descriptor⟩
  | other => throw (.unexpected i other .callSite)

/-- The constant at an index. -/
def constantAt (p : Pool) (i : UInt16) : Except Malformation Constant := do
  match ← p.entryAt i with
  | .int v => return .int v
  | .float bits => return .float bits
  | .long v => return .long v
  | .double bits => return .double bits
  | .string text => return .string (← p.utf8At text)
  | .ofClass name => return .ofClass (← p.utf8At name)
  | .methodType d => return .methodType (← p.utf8At d)
  | .methodHandle kind reference =>
    let (m, memberKind) ← p.memberAt reference
    return .methodHandle kind m (memberKind == .interfaceMethod)
  | .dynamic bootstrap nt =>
    let (name, descriptor) ← p.nameAndTypeAt nt
    return .dynamic bootstrap name descriptor
  | other => throw (.unexpected i other .loadable)

end Pool

end Unscramble.Binary
