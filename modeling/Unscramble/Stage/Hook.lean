import Unscramble.Error
import Unscramble.Naming.Policy

/-! # Hooks and reports

A hook looks at a part of a codebase and may change it. It says whether it did, or fails; what it
has done until then stays either way, and so do its counters, its warnings and its private state.
A report tells in numbers what a stage did.

Main definitions: `Counters`, `Report`, `Settings`, `Context`, `Step`, `Hook`, and the combinators
`Hook.andThen`, `Hook.each`, `Hook.focus`. -/

namespace Unscramble

/-- Named counters in ascending order of their names. A counter is there once something was added to
it, even if that was nothing. -/
structure Counters where
  /-- The counters with their values. -/
  entries : List (String × Nat) := []
deriving DecidableEq, Repr, Inhabited

namespace Counters

/-- Adds to a counter in a list that is in ascending order. -/
def addIn (name : String) (amount : Nat) : List (String × Nat) → List (String × Nat)
  | [] => [(name, amount)]
  | (other, value) :: rest =>
    if other < name then (other, value) :: addIn name amount rest
    else if other = name then (other, value + amount) :: rest
    else (name, amount) :: (other, value) :: rest

/-- Adds to a counter. -/
def add (c : Counters) (name : String) (amount : Nat) : Counters :=
  ⟨addIn name amount c.entries⟩

/-- The value of a counter, 0 if nothing was added to it. -/
def get (c : Counters) (name : String) : Nat :=
  (c.entries.lookup name).getD 0

end Counters

/-- What a stage did. -/
structure Report where
  /-- The name of the stage. -/
  stage : String
  /-- How many passes it took until one changed nothing. -/
  passes : Nat
  /-- What it counted. -/
  counters : Counters := {}
deriving DecidableEq, Repr, Inhabited

end Unscramble

/-! ### Statistics

The reports of a run as a table of comma-separated values, a row for each counter of each stage. -/

namespace Unscramble.Statistics

/-- Whether a value has to stand between quotes: it holds a comma, a quote or a line break. -/
def needsQuotes (value : String) : Bool :=
  value.toList.any fun c => c == ',' || c == '"' || c == '\n' || c == '\r'

/-- A value of the table. Inside quotes a quote is written twice. -/
def cell (value : String) : String :=
  if needsQuotes value then
    let doubled := value.toList.flatMap fun c => if c == '"' then ['"', '"'] else [c]
    "\"" ++ String.ofList doubled ++ "\""
  else value

/-- A line of the table. -/
def row (cells : List String) : String :=
  ",".intercalate (cells.map cell) ++ "\n"

/-- The rows of a report. A stage without counters gets a row too, which shows its passes. -/
def rowsOf (r : Report) : List (List String) :=
  let counters := if r.counters.entries.isEmpty then [("", 0)] else r.counters.entries
  counters.map fun (counter, value) => [r.stage, toString r.passes, counter, toString value]

/-- The table of some reports. Without any report it is empty and lacks even its heading. -/
def text (reports : List Report) : String :=
  match reports.flatMap rowsOf with
  | [] => ""
  | rows => String.join ((["stage", "passes", "counter", "value"] :: rows).map row)

end Unscramble.Statistics

namespace Unscramble

/-! ### What is given for a run -/

/-- The file that a name table is read from. -/
inductive TableFile where
  /-- There is no file yet, so the table starts empty. -/
  | missing
  /-- A file with a text. -/
  | readable (text : String)
  /-- Something that cannot be read as a text. -/
  | unreadable (path : String)
deriving DecidableEq, Repr, Inhabited

/-- The settings of a run. -/
structure Settings where
  /-- The name table that a renaming starts from; without one no table is kept. -/
  nameTable : Option TableFile := none
  /-- The package for classes that have none after renaming. -/
  defaultPackage : String := "deob"
  /-- The class that static members move to. -/
  staticsClass : String := "Statics"
  /-- Whether block graphs are drawn. -/
  graphs : Bool := false
  /-- Which names are to be replaced. -/
  policy : Naming.Policy := {}
  /-- Whether nothing is to be written. -/
  dry : Bool := false
deriving Inhabited

/-- The name of the class that static members move to. -/
def Settings.holder (s : Settings) : String :=
  Naming.holderName s.staticsClass s.defaultPackage

/-! ### What a run tells -/

/-- What stages tell besides their reports. -/
structure Journal where
  /-- The warnings in order. -/
  warnings : List Warning := []
  /-- The drawings by file name. -/
  drawings : List (String × String) := []
deriving Repr, Inhabited

namespace Journal

/-- Adds warnings. -/
def warn (j : Journal) (warnings : List Warning) : Journal :=
  { j with warnings := j.warnings ++ warnings }

/-- Adds a drawing, which takes the place of one of the same name. -/
def draw (j : Journal) (name text : String) : Journal :=
  { j with drawings := j.drawings.filter (·.1 != name) ++ [(name, text)] }

end Journal

/-! ### Hooks -/

/-- What a hook may use besides the part of the codebase that it looks at. -/
structure Context (σ : Type) where
  /-- The private state of the stage. -/
  state : σ
  /-- The settings of the run. -/
  settings : Settings
  /-- What the stage has counted. -/
  counters : Counters := {}
  /-- What the run has told. -/
  journal : Journal := {}

namespace Context

variable {σ : Type}

/-- Adds to a counter. -/
def count (c : Context σ) (name : String) (amount : Nat) : Context σ :=
  { c with counters := c.counters.add name amount }

/-- Adds warnings. -/
def warn (c : Context σ) (warnings : List Warning) : Context σ :=
  { c with journal := c.journal.warn warnings }

end Context

/-- What a hook leaves behind. -/
structure Step (σ α : Type) where
  /-- Whether something changed, or why the hook failed. -/
  changed : Except Error Bool
  /-- The part of the codebase afterwards. -/
  value : α
  /-- The context afterwards. -/
  context : Context σ

/-- Looks at a part of a codebase and may change it. -/
abbrev Hook (σ α : Type) := α → Context σ → Step σ α

namespace Hook

variable {σ α β : Type}

/-- Changes nothing. -/
def idle : Hook σ α := fun a c => ⟨.ok false, a, c⟩

/-- One hook after the other. A failure of the first keeps the second from running. -/
def andThen (f g : Hook σ α) : Hook σ α := fun a c =>
  let s := f a c
  match s.changed with
  | .error _ => s
  | .ok changed =>
    let t := g s.value s.context
    { t with changed := t.changed.map (changed || ·) }

/-- A hook for each element in order, up to the first failure. -/
def each (f : Hook σ α) : Hook σ (List α)
  | [], c => ⟨.ok false, [], c⟩
  | a :: rest, c =>
    let s := f a c
    match s.changed with
    | .error e => ⟨.error e, s.value :: rest, s.context⟩
    | .ok changed =>
      let t := each f rest s.context
      ⟨t.changed.map (changed || ·), s.value :: t.value, t.context⟩

/-- A hook for a part of a value. -/
def focus (part : α → β) (setPart : α → β → α) (f : Hook σ β) : Hook σ α := fun a c =>
  let s := f (part a) c
  ⟨s.changed, setPart a s.value, s.context⟩

/-- Makes a change that counts how often it applies, and adds the number to a counter. -/
def counting (counter : String) (f : α → Nat × α) : Hook σ α := fun a c =>
  let (n, a) := f a
  ⟨.ok (0 < n), a, c.count counter n⟩

end Hook

end Unscramble
