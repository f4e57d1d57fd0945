import Unscramble.Stage.Bodies
import Unscramble.Stage.Members
import Unscramble.Text.Basic

/-! # Plans

A plan is a list of stages that run one after the other, each until it settles.

Main definitions: `Stage.all`, `Stage.find?`, `Plan.ofNames`, `Plan.run`, `clean`. -/

namespace Unscramble

namespace Stage

/-- Every stage: those that run by default in their order, then the others. -/
def all : List Stage := [
  exceptionTracing.toStage, redundantException.toStage, monitor.toStage, opaquePredicate.toStage,
  bitShift.toStage, unreachableCode.toStage, redundantGoto.toStage, variableSplitter.toStage,
  remap.toStage, staticMethods.toStage, unusedMethods.toStage, staticFields.toStage,
  sortFields.toStage, sortMethods.toStage, visibility.toStage, annotationRemover.toStage,
  deleteInvokedynamic.toStage]

/-- The stages that run when none are named. -/
def defaults : List Stage :=
  all.take 15

/-- The stage of a given name. -/
def find? (name : String) : Option Stage :=
  all.find? (·.name == name)

end Stage

/-- Stages in the order in which they run. -/
abbrev Plan := List Stage

namespace Plan

/-- The stages of given names. An unknown name is skipped with a warning. -/
def resolve (names : List String) : List Warning × Plan :=
  names.foldr (fun name (warnings, plan) =>
    match Stage.find? name with
    | some stage => (warnings, stage :: plan)
    | none => (.skipped (.unknownStage name) :: warnings, plan)) ([], [])

/-- The plan for some names, around which blanks do not count. Blank names are left out; if all are
blank the plan is the default one. It is an error if only unknown names are given. -/
def ofNames (names : List String) : List Warning × Except Error Plan :=
  match (names.map Text.trim).filter fun name => !name.isEmpty with
  | [] => ([], .ok Stage.defaults)
  | names =>
    match resolve names with
    | (warnings, []) => (warnings, .error .noStages)
    | (warnings, plan) => (warnings, .ok plan)

/-- Runs stages in order, up to the first that fails. -/
def run (settings : Settings) (journal : Journal) (p : Codebase) :
    Plan → Except Error (List Report) × Codebase × Journal
  | [] => (.ok [], p, journal)
  | stage :: rest =>
    match stage.run settings journal p with
    | (.error e, p, journal) => (.error e, p, journal)
    | (.ok report, p, journal) =>
      let (reports, p, journal) := run settings journal p rest
      (reports.map (report :: ·), p, journal)

/-- The report with the most passes, the last of several. -/
def slowest? (reports : List Report) : Option Report :=
  reports.foldl (fun best r =>
    match best with
    | none => some r
    | some b => if b.passes ≤ r.passes then some r else some b) none

/-- The warning about a stage that took remarkably many passes. -/
def slowWarning (reports : List Report) : List Warning :=
  match slowest? reports with
  | none => []
  | some r => if 100 < r.passes then [.slowStage r.stage r.passes] else []

end Plan

/-- Runs the named stages over a codebase. Answers one report per stage or why one failed, what is
left of the codebase, and what was told. -/
def clean (names : List String) (settings : Settings) (journal : Journal) (p : Codebase) :
    Except Error (List Report) × Codebase × Journal :=
  match Plan.ofNames names with
  | (warnings, .error e) => (.error e, p, journal.warn warnings)
  | (warnings, .ok plan) =>
    let (reports, p, journal) := plan.run settings (journal.warn warnings) p
    match reports with
    | .error e => (.error e, p, journal)
    | .ok reports => (.ok reports, p, journal.warn (Plan.slowWarning reports))

end Unscramble
