import Unscramble.Body
import Unscramble.Pattern.Basic

/-! # Synchronized blocks

Obfuscated builds end the catch-all range of a synchronized block right before the lock is released,
and load the lock back from a slot instead of duplicating it. Here the blocks get the shape that
compilers give them.

Main definitions: `extendGuards`, `replaceLoads`. -/

namespace Unscramble.Idiom

/-- A lock that is loaded back right before it is taken. -/
def loadBeforeEnter : Pattern := .ofText "ASTORE ALOAD MONITORENTER"

/-- The real instruction that follows `h` strictly. -/
def realAfter? (l : Listing) (h : Handle) : Option Handle :=
  (l.after h).find? l.isReal

/-- A handle, if the instruction there has a given opcode. -/
def expect? (l : Listing) (op : Opcode) (h : Handle) : Option Handle :=
  if (l.get h).hasOpcode op then some h else none

/-- The instruction behind the release of the lock that a range just fails to cover: the range
catches everything, opens right after the lock is taken, and ends before the lock is loaded and
released. -/
def releasePoint? (l : Listing) (g : Guard Label) : Option Handle := do
  if g.catches.isSome then none
  let _ ← (← l.prevReal? g.start) |> expect? l .monitorenter
  let load ← (← l.nextReal? g.stop) |> expect? l .aload
  let exit ← (← realAfter? l load) |> expect? l .monitorexit
  realAfter? l exit

/-- Extends the ranges in turn, each over the release of its lock, and counts those that were. -/
def extendEach (l : Listing) : List (Guard Label) → Nat × Listing × List (Guard Label)
  | [] => (0, l, [])
  | g :: rest =>
    match releasePoint? l g with
    | none =>
      let (count, l, rest) := extendEach l rest
      (count, l, g :: rest)
    | some point =>
      let (label, l) := l.create .label
      let (count, l, rest) := extendEach (l.insertBefore point label) rest
      (count + 1, l, { g with stop := label } :: rest)

/-- Makes the ranges of synchronized blocks cover the release of the lock, and counts them. -/
def extendGuards (b : Body) : Nat × Body :=
  let (count, listing, guards) := extendEach b.listing b.guards
  (count, { b with listing, guards })

/-- Whether a run stores a value to the slot that it loads next. -/
def loadsBack (l : Listing) : List Handle → Bool
  | store :: load :: _ =>
    (l.get store).stored?.isSome && (l.get store).stored? == (l.get load).loaded?
  | _ => false

/-- Duplicates the value in front of a store instead of loading it back. -/
def duplicateLock (l : Listing) : List Handle → Listing
  | store :: load :: _ =>
    let (dup, l) := l.create (.plain .dup)
    (l.insertBefore store dup).remove load
  | _ => l

/-- Replaces each load of a lock that was just stored by a copy on the stack, and counts them. -/
def replaceLoads (load : Pattern) (b : Body) : Nat × Body :=
  let runs := (load.runs b.listing).filter (loadsBack b.listing)
  let maxStack := if runs.isEmpty || b.maxStack == 65535 then b.maxStack else b.maxStack + 1
  (runs.length, { b with listing := runs.foldl duplicateLock b.listing, maxStack })

end Unscramble.Idiom
