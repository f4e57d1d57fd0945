import Unscramble.Flow.Blocks
import Unscramble.Flow.Normal
import Unscramble.Idiom.DynamicCall
import Unscramble.Idiom.Monitor
import Unscramble.Idiom.OpaquePredicate
import Unscramble.Idiom.Shift
import Unscramble.Idiom.Tracing
import Unscramble.Slot.Split
import Unscramble.Stage.Basic

/-! # Stages for method bodies

The stages that change the instructions and protected ranges of method bodies. -/

namespace Unscramble.Stage

/-- Removes handlers that only report a crash. -/
def exceptionTracing : Transform Unit where
  name := "exception-tracing"
  start := ()
  onBody _ := .counting "removed_handlers" (Idiom.removeTracingHandlers Idiom.tracingHandler)

/-- Removes the ranges of runtime exceptions of bodies that end by throwing. -/
def redundantException : Transform Unit where
  name := "redundant-exception"
  start := ()
  onBody _ := .counting "removed_ranges" Idiom.removeRedundantGuards

/-- Gives synchronized blocks the shape that compilers give them. -/
def monitor : Transform Unit where
  name := "monitor"
  start := ()
  onBody _ := Hook.andThen (.counting "extended_ranges" Idiom.extendGuards)
    (.counting "replaced_loads" (Idiom.replaceLoads Idiom.loadBeforeEnter))

/-- Removes the assignments of flow obstructors from a method, in front of which `found` were
removed. -/
def removeMethodInitializers (found : List Member) (m : Method) : List Member × Method :=
  match m.body with
  | none => (found, m)
  | some body =>
    let (more, body) := Idiom.removeInitializers body
    (found ++ more, { m with body := some body })

/-- Threads a state through the elements of a list. -/
def mapThrough {σ α : Type} (f : σ → α → σ × α) : σ → List α → σ × List α
  | s, [] => (s, [])
  | s, a :: rest =>
    let (s, a) := f s a
    let (s, rest) := mapThrough f s rest
    (s, a :: rest)

/-- Removes the assignments of flow obstructors from a codebase, and answers the fields. -/
def removeAllInitializers (p : Codebase) : List Member × Codebase :=
  let (found, classes) := mapThrough (fun found (c : Class) =>
    let (found, methods) := mapThrough removeMethodInitializers found c.methods
    (found, { c with methods })) [] p.classes
  (found, { p with classes })

/-- Finds the flow obstructors and decides the branches on them. -/
def opaquePredicate : Transform (List Member) where
  name := "opaque-predicate"
  start := []
  beforeAll p c :=
    let (found, p) := removeAllInitializers p
    ⟨.ok !found.isEmpty, p, { c.count "removed_initializers" found.length with state := found }⟩
  onBody _ b c :=
    if c.state.isEmpty then ⟨.ok false, b, c⟩ else
      let ((predicates, copies), b) := Idiom.removePredicates c.state b
      ⟨.ok (0 < predicates + copies), b,
        (c.count "removed_predicates" predicates).count "removed_copies" copies⟩

/-- Masks constant shift distances. -/
def bitShift : Transform Unit where
  name := "bit-shift"
  start := ()
  onBody _ := .counting "masked_shifts" (Idiom.maskShifts Idiom.constantShift)

/-- Removes unreachable instructions. -/
def unreachableCode : Transform Unit where
  name := "unreachable-code"
  start := ()
  onBody _ b c :=
    let (removed, b) := Flow.removeUnreachable b
    if removed = 0 then ⟨.ok false, b, c⟩
    else ⟨.ok true, b, c.count "removed_insns" removed⟩

/-- The longest name of a file, in bytes. -/
def maxFileName : Nat := 255

/-- Draws the block graph of a method if drawings are wanted. -/
def drawBody (m : Method) : Hook Unit Body := fun b c =>
  if !c.settings.graphs || c.settings.dry then ⟨.ok false, b, c⟩ else
    let name := Flow.drawingName m
    if maxFileName < name.utf8ByteSize then ⟨.error (.io name), b, c⟩ else
      let text := (Flow.BlockGraph.ofListing b.listing).drawing b.listing
      ⟨.ok false, b, { c with journal := c.journal.draw name text }⟩

/-- Normalizes the control flow of a body. -/
def normalizeBody : Hook Unit Body := fun b c =>
  let shape := b.listing.shape
  let (n, b) := Flow.normalize b
  let changed := b.listing.shape != shape
  let c := ((c.count "removed_insns" n.unreachable).count "removed_gotos" n.gotos).count
    "removed_labels" n.labels
  ⟨.ok changed, b, if changed then c.count "changed_methods" 1 else c⟩

/-- Normalizes control flow. -/
def redundantGoto : Transform Unit where
  name := "redundant-goto"
  start := ()
  onBody m := (drawBody m).andThen normalizeBody

/-- Gives the variables of a method slots of their own. A method that cannot be split stays as it
is, and the error joins those found before. -/
def splitMethod (state : List (Except Error Slot.Split)) (m : Method) :
    List (Except Error Slot.Split) × Method :=
  match m.body with
  | none => (state, m)
  | some body =>
    match Slot.split m body with
    | .error e => (.error e :: state, m)
    | .ok (split, body) => (.ok split :: state, { m with body := some body })

/-- Counts what was split, up to the first error. -/
def countSplits (c : Context Unit) (changed : Bool) :
    List (Except Error Slot.Split) → Except Error Bool × Context Unit
  | [] => (.ok changed, c)
  | .error e :: _ => (.error e, c)
  | .ok split :: rest =>
    if split.changed then
      let c := (c.count "changed_methods" 1).count "renumbered_insns" split.renumbered
      countSplits c true rest
    else countSplits c changed rest

/-- Gives the variables of all methods slots of their own. -/
def variableSplitter : Transform Unit where
  name := "variable-splitter"
  start := ()
  onPass p c :=
    let (splits, classes) := mapThrough (fun splits (k : Class) =>
      let (splits, methods) := mapThrough splitMethod splits k.methods
      (splits, { k with methods })) [] p.classes
    let (changed, c) := countSplits c false splits.reverse
    ⟨changed, { p with classes }, c⟩

/-- Puts stubs in the places of dynamic calls. -/
def deleteInvokedynamic : Transform Unit where
  name := "delete-invokedynamic"
  start := ()
  onBody _ := .counting "stubbed_calls" Idiom.stubDynamicCalls

end Unscramble.Stage
