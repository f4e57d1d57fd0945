import Unscramble.Codebase
import Unscramble.Stage.Hook

/-! # Stages

A transform is a bundle of hooks for the parts of a codebase. A pass visits every class: the class
itself, its fields, and each method before, at and after its body; a last hook sees the whole
codebase. Passes are repeated until one changes nothing. A stage is a transform without its private
state.

Main definitions: `Transform`, `Transform.settle`, `Transform.run`, `Stage`. -/

namespace Unscramble

/-- A bundle of hooks with a private state. -/
structure Transform (σ : Type) where
  /-- The name of the stage. -/
  name : String
  /-- The private state at the start of a run. -/
  start : σ
  /-- Runs once before the first pass. -/
  beforeAll : Hook σ Codebase := .idle
  /-- Sees each class. -/
  onClass : Hook σ Class := .idle
  /-- Sees each field. -/
  onField : Hook σ Field := .idle
  /-- Sees each method before its body. -/
  beforeBody : Hook σ Method := .idle
  /-- Sees each body, with its method, which lacks the body meanwhile. -/
  onBody : Method → Hook σ Body := fun _ => .idle
  /-- Sees each method after its body. -/
  afterBody : Hook σ Method := .idle
  /-- Sees the whole codebase at the end of each pass. -/
  onPass : Hook σ Codebase := .idle
  /-- Runs once after the last pass. -/
  afterAll : Hook σ Codebase := .idle

/-- What a run of a transform leaves behind. -/
structure Run (σ : Type) where
  /-- What the stage did, or why it failed. -/
  report : Except Error Report
  /-- The codebase afterwards. -/
  codebase : Codebase
  /-- The context afterwards. -/
  context : Context σ

namespace Transform

variable {σ : Type}

/-- A stage that has not settled after this many passes is broken. -/
def maxPasses : Nat := 1000

/-- Detaches the body of a method for a hook and attaches what the hook leaves. -/
def visitBody (hook : Method → Hook σ Body) : Hook σ Method := fun m c =>
  match m.body with
  | none => ⟨.ok false, m, c⟩
  | some body =>
    let s := hook { m with body := none } body c
    ⟨s.changed, { m with body := some s.value }, s.context⟩

/-- Visits a method. -/
def visitMethod (t : Transform σ) : Hook σ Method :=
  (t.beforeBody.andThen (visitBody t.onBody)).andThen t.afterBody

/-- Visits a class. -/
def visitClass (t : Transform σ) : Hook σ Class :=
  (t.onClass.andThen
    (.focus (·.fields) (fun c fields => { c with fields }) (.each t.onField))).andThen
    (.focus (·.methods) (fun c methods => { c with methods }) (.each t.visitMethod))

/-- One pass over a codebase. -/
def pass (t : Transform σ) : Hook σ Codebase :=
  (Hook.focus (·.classes) (fun p classes => { p with classes }) (.each t.visitClass)).andThen
    t.onPass

/-- Repeats passes until one changes nothing, `left` more at most after the `done` that were made.
Answers the number of passes. -/
def settle (t : Transform σ) (left done : Nat) (p : Codebase) (c : Context σ) :
    Except Error Nat × Codebase × Context σ :=
  match left with
  | 0 => (.error (.unsettled t.name done), p, c)
  | left + 1 =>
    let s := t.pass p c
    match s.changed with
    | .error e => (.error e, s.value, s.context)
    | .ok true => t.settle left (done + 1) s.value s.context
    | .ok false => (.ok (done + 1), s.value, s.context)

/-- Runs a transform until it settles. -/
def run (t : Transform σ) (settings : Settings) (journal : Journal) (p : Codebase) : Run σ :=
  let s := t.beforeAll p { state := t.start, settings, journal }
  match s.changed with
  | .error e => ⟨.error e, s.value, s.context⟩
  | .ok _ =>
    match t.settle maxPasses 0 s.value s.context with
    | (.error e, p, c) => ⟨.error e, p, c⟩
    | (.ok passes, p, c) =>
      let s := t.afterAll p c
      ⟨s.changed.map fun _ => ⟨t.name, passes, s.context.counters⟩, s.value, s.context⟩

end Transform

/-- Something that is run over a codebase until it settles. -/
structure Stage where
  /-- The name of the stage. -/
  name : String
  /-- Runs the stage. Answers its report or why it failed, what it leaves, and what was told. -/
  run : Settings → Journal → Codebase → Except Error Report × Codebase × Journal

/-- A transform as a stage. -/
def Transform.toStage {σ : Type} (t : Transform σ) : Stage where
  name := t.name
  run settings journal p :=
    let r := t.run settings journal p
    (r.report, r.codebase, r.context.journal)

end Unscramble
