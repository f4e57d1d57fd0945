import Unscramble.Jar
import Unscramble.Session.Host
import Unscramble.Stage.Hook
import Unscramble.Stage.Plan

/-! # Sessions

A session reads a jar, runs stages over its classes and writes what they leave: the jar, the name
table, drawings and statistics. At the end it may hand the jar to a decompiler.

Main definitions: `Options`, `Session`, `clean`. -/

namespace Unscramble

/-- What a session is asked to do. -/
structure Options where
  /-- The jar to read. -/
  input : String := ""
  /-- The jar to write. -/
  output : String := ""
  /-- The names of the stages; none stand for the default ones. -/
  stages : List String := []
  /-- The file that names are taken from and saved to. -/
  nameTable : Option String := none
  /-- The package for classes that have none after renaming. -/
  defaultPackage : String := "deob"
  /-- The class that static members move to. -/
  staticsClass : String := "Statics"
  /-- The folder for decompiled sources. -/
  sources : Option String := none
  /-- The command line of a decompiler. -/
  decompiler : Option String := none
  /-- The file for statistics. -/
  statistics : Option String := none
  /-- The folder for drawings of block graphs. -/
  drawings : Option String := none
  /-- Whether nothing is to be written. -/
  dry : Bool := false
deriving Repr, Inhabited

/-- What a session tells besides its result. -/
inductive Note where
  /-- A warning of a stage. -/
  | warned (warning : Warning)
  /-- Sources are wanted, but there is no decompiler. -/
  | noDecompiler (folder : String)
  /-- The decompiler failed. -/
  | notDecompiled (jar : String) (cause : Error)
  /-- The sources could not be cleaned up. -/
  | notCleaned (folder : String) (cause : Error)
deriving DecidableEq, Repr, Inhabited

namespace Note

/-- The text of a note. -/
def text : Note → String
  | .warned warning => warning.text
  | .noDecompiler folder =>
    "No decompiler configured, not decompiling into " ++ Text.quoted folder
  | .notDecompiled jar cause => "Decompiling " ++ Text.quoted jar ++ " failed: " ++ cause.message
  | .notCleaned folder cause =>
    "Cleaning sources in " ++ Text.quoted folder ++ " failed: " ++ cause.message

end Note

/-- What happens to a jar after it was written. -/
structure Tools (m : Type → Type) where
  /-- Turns a jar into sources in a folder. -/
  decompile : Option ((jar folder : String) → m (Except Error Unit)) := none
  /-- Cleans up the sources in a folder. -/
  tidy : Option ((folder : String) → m (Except Error Unit)) := none

/-- The tools that options ask for: the decompiler of their command line. -/
def Tools.ofOptions {m : Type → Type} [Monad m] (h : Host m) (o : Options) : Tools m where
  decompile := (o.decompiler.bind Command.ofText?).map fun c => c.decompile h

/-- A computation on a host that may fail and may leave notes. -/
abbrev Session (m : Type → Type) := ExceptT Error (StateT (List Note) m)

namespace Session

variable {m : Type → Type} [Monad m]

/-- Does something on the host. -/
def ask {α : Type} (act : m α) : Session m α :=
  ExceptT.lift (StateT.lift act)

/-- Does something on the host that may fail. -/
def attempt {α : Type} (act : m (Except Error α)) : Session m α :=
  ExceptT.mk (StateT.lift act)

/-- Leaves notes. -/
def tell (notes : List Note) : Session m Unit :=
  ExceptT.lift (modify (· ++ notes))

/-- Reads a jar. -/
def readJar (h : Host m) (path : String) : Session m Jar := do
  match ← ask (h.read path) with
  | .file content => ExceptT.mk (pure (Jar.read path content))
  | _ => throw (.io path)

/-- The settings that options ask for. -/
def settings (h : Host m) (o : Options) : Session m Settings := do
  let nameTable ← match o.nameTable with
    | none => pure none
    | some path => some <$> ask (Found.table path <$> h.read path)
  return { nameTable, defaultPackage := o.defaultPackage, staticsClass := o.staticsClass
           graphs := o.drawings.isSome, dry := o.dry }

/-- Runs stages one after the other. The name table file is read when a stage starts, and the
drawings of a stage are written when it ends, even if it fails. -/
def runPlan (h : Host m) (o : Options) (p : Codebase) : Plan → Session m (List Report × Codebase)
  | [] => return ([], p)
  | stage :: rest => do
    let (result, p, journal) := stage.run (← settings h o) {} p
    tell (journal.warnings.map .warned)
    if let some folder := o.drawings then
      for (name, text) in journal.drawings do
        attempt (h.writeText (pathIn folder name) text)
    match result with
    | .error e => throw e
    | .ok report =>
      let (reports, p) ← runPlan h o p rest
      return (report :: reports, p)

/-- Runs the stages that are asked for. -/
def runStages (h : Host m) (o : Options) (p : Codebase) : Session m (List Report × Codebase) := do
  if let some folder := o.drawings then
    if !o.dry then attempt (h.makeFolder folder)
  let (warnings, plan) := Plan.ofNames o.stages
  tell (warnings.map .warned)
  let (reports, p) ← runPlan h o p (← ExceptT.mk (pure plan))
  tell ((Plan.slowWarning reports).map .warned)
  return (reports, p)

/-- Writes a jar. Nothing is written unless every class can be. -/
def writeJar (h : Host m) (path : String) (jar : Jar) : Session m Unit := do
  let entries ← ExceptT.mk (pure jar.toEntries)
  attempt (h.replace path (Jar.archive path entries))

/-- Saves the name table if there is one and a file for it. -/
def saveNames (h : Host m) (o : Options) (p : Codebase) : Session m Unit :=
  match o.nameTable, p.nameTable with
  | some path, some table => attempt (h.writeText path table.text)
  | _, _ => pure ()

/-- Saves the statistics if there is a file for them. -/
def saveStatistics (h : Host m) (o : Options) (reports : List Report) : Session m Unit :=
  match o.statistics with
  | some path => attempt (h.writeText path (Statistics.text reports))
  | none => pure ()

/-- Hands the jar on. A tool that fails leaves a note and nothing more. -/
def handOn (tools : Tools m) (o : Options) : Session m Unit := do
  let some folder := o.sources | return
  let some decompile := tools.decompile | tell [.noDecompiler folder]
  match ← ask (decompile o.output folder) with
  | .error cause => tell [.notDecompiled o.output cause]
  | .ok () =>
    let some tidy := tools.tidy | return
    match ← ask (tidy folder) with
    | .error cause => tell [.notCleaned folder cause]
    | .ok () => return

/-- Reads a jar, runs the stages and writes the results. -/
def run (h : Host m) (tools : Tools m) (o : Options) : Session m (List Report) := do
  let jar ← readJar h o.input
  let (reports, codebase) ← runStages h o jar.codebase
  if o.dry then return reports
  writeJar h o.output { jar with codebase }
  saveNames h o codebase
  saveStatistics h o reports
  handOn tools o
  return reports

/-- The result of a session and its notes. -/
def execute {α : Type} (s : Session m α) : m (Except Error α × List Note) :=
  (ExceptT.run s).run []

end Session

end Unscramble
