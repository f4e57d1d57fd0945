import Unscramble.Idiom.Monitor
import Unscramble.Idiom.Tracing
import Unscramble.Proofs.Flow.DeadCode
import Unscramble.Proofs.Lists
import Unscramble.Proofs.Pattern.Places

/-! # Handlers that report crashes

A handler that only reports a crash is taken out together with the ranges of runtime exceptions that
lead to it. What is taken out is dead then, if nothing else leads into such handlers: no instruction
outside them, and no range that stays. A range of other exceptions that shares the handler is not
noticed, and leads on behind it.

Main definitions: `reports`, `ReportsStandAlone`, `without`. Main statements:
`ReportsStandAlone.removeTracingHandlers_eq`, `removeTracingHandlers_dead`. -/

namespace Unscramble

namespace Listing

open Idiom

variable {l : Listing} {h n t : Handle} {keep : Handle → Bool}

/-- The first real instruction from a handle on stays the same if it and the handle are kept. -/
theorem nextReal?_restrict (hk : keep t = true)
    (hkeep : ∀ n, l.nextReal? t = some n → keep n = true) :
    (l.restrict keep).nextReal? t = l.nextReal? t := by
  rw [nextReal?, after_restrict hk, ← List.filter_cons_of_pos hk]
  exact find?_filter_of_keep hkeep

/-- The next real instruction from a real one is that itself. -/
theorem nextReal?_of_isReal (hh : l.isReal h = true) : l.nextReal? h = some h :=
  List.find?_cons_of_pos hh

/-- The next real instruction from another one is the real one behind it. -/
theorem nextReal?_of_not_isReal (hh : l.isReal h = false) : l.nextReal? h = realAfter? l h :=
  List.find?_cons_of_neg (by simp [hh])

/-- What stands behind a handle is what control comes to from the next handle on. -/
theorem realAfter?_of_next? (wf : l.WellFormed) (hn : l.next? h = some n) :
    realAfter? l h = l.nextReal? n := by
  rw [realAfter?, after_eq_onward_of_next? wf hn, onward_eq_cons (mem_handles_of_next? hn)]
  rfl

/-- Control enters at the first real instruction. -/
theorem nextReal?_first (hfirst : l.first? = some h) :
    l.nextReal? h = l.reals.head? := by
  rw [first?_eq_head?] at hfirst
  obtain ⟨rest, hrest⟩ := List.head?_eq_some_iff.1 hfirst
  have hsplit : l.handles = [] ++ h :: rest := hrest
  have honward : l.onward h = l.handles := (onward_of_split hsplit (by simp)).trans hrest.symm
  rw [nextReal?, ← onward_eq_cons (hrest ▸ List.mem_cons_self), honward, reals]
  exact (List.head?_filter ..).symm

end Listing

namespace Idiom

open Listing Pattern

variable {handler : Pattern} {b : Body} {h n : Handle} {g : Guard Label} {run : List Handle}

/-! ### The handlers that go -/

/-- Whether a range leads to the first instruction of a run. -/
def leadsToRun (l : Listing) (g : Guard Label) (run : List Handle) : Bool :=
  run.head?.any fun entry => leadsTo l entry g

/-- Whether a range leads there. -/
def isLed (b : Body) (run : List Handle) : Bool :=
  b.guards.any fun g => leadsToRun b.listing g run

/-- The handlers that match a pattern and that a range of runtime exceptions leads to. -/
def reports (handler : Pattern) (b : Body) : List (List Handle) :=
  (handler.runs b.listing).filter (isLed b)

/-- Whether an instruction belongs to one of some handlers. -/
def isIn (runs : List (List Handle)) (h : Handle) : Bool :=
  runs.any (·.contains h)

/-- The handlers that go are entered from their ranges only. -/
structure ReportsStandAlone (handler : Pattern) (b : Body) : Prop where
  /-- Control does not enter there. -/
  entry : ∀ h ∈ b.listing.reals.head?, isIn (reports handler b) h = false
  /-- Control does not fall through to them from outside. -/
  below : ∀ h ∈ b.listing.reals, isIn (reports handler b) h = false →
    (b.listing.get h).isTerminal = false → ∀ n ∈ realAfter? b.listing h,
      isIn (reports handler b) n = false
  /-- No jump or switch leads there from outside. -/
  target : ∀ h ∈ b.listing.reals, isIn (reports handler b) h = false →
    ∀ t ∈ (b.listing.get h).targets, ∀ n ∈ b.listing.nextReal? t, isIn (reports handler b) n = false
  /-- A range that leads there catches runtime exceptions and leads to the first instruction. -/
  ranges : ∀ g ∈ b.guards, ∀ n ∈ b.listing.nextReal? g.handler, isIn (reports handler b) n = true →
    ∃ run ∈ reports handler b, leadsToRun b.listing g run = true

/-- An instruction is in one of the runs. -/
theorem isIn_iff {runs : List (List Handle)} : isIn runs h = true ↔ ∃ run ∈ runs, h ∈ run := by
  simp [isIn]

/-- A range leads to one run at most. -/
theorem eq_head?_of_leadsToRun (hleads : leadsToRun b.listing g run = true) :
    ∃ entry, run.head? = some entry ∧ b.listing.nextReal? g.handler = some entry ∧
      g.catches = some runtimeException := by
  obtain ⟨entry, hentry, hleads⟩ := (Option.any_eq_true _ _).1 hleads
  rw [leadsTo, Bool.and_eq_true, beq_iff_eq, beq_iff_eq] at hleads
  exact ⟨entry, hentry, hleads.2, hleads.1⟩

/-- Runs that share an instruction are the same. -/
theorem eq_of_mem_runs (wf : b.listing.WellFormed) {run' : List Handle}
    (hrun : run ∈ handler.runs b.listing) (hrun' : run' ∈ handler.runs b.listing) (hh : h ∈ run)
    (hh' : h ∈ run') : run = run' := by
  by_contra hne
  have hsymm : Std.Symm (α := List Handle) List.Disjoint := ⟨fun _ _ => List.Disjoint.symm⟩
  exact ((handler.runs_apart b.listing).2.2 wf.nodup).forall hrun hrun' hne hh hh'

/-! ### Handlers that go one after the other -/

/-- The body without those of some runs that a range leads to, and without these ranges. -/
def without (b : Body) (runs : List (List Handle)) : Body :=
  { b with
    guards := b.guards.filter fun g => !runs.any (leadsToRun b.listing g)
    listing := b.listing.restrict fun h => !isIn (runs.filter (isLed b)) h }

/-- A label belongs to no run. -/
theorem not_isIn_of_isLabel {runs : List (List Handle)}
    (hruns : ∀ run ∈ runs, run ∈ handler.runs b.listing) (hlabel : (b.listing.get h).isLabel = true) :
    isIn runs h = false := by
  by_contra hin
  obtain ⟨run, hrun, hh⟩ := isIn_iff.1 (Bool.eq_true_of_not_eq_false hin)
  have hreal := List.of_mem_filter
    (((handler.runs_apart b.listing).1 run (hruns run hrun)).2.subset hh)
  exact Bool.false_ne_true ((Instruction.isReal_of_isLabel hlabel).symm.trans hreal)

/-- When some handlers are gone, the ranges that are left lead where they led. -/
theorem ReportsStandAlone.nextReal?_without (alone : ReportsStandAlone handler b)
    (wf : b.listing.WellFormed) (labels : b.LabelsLinked) {runs : List (List Handle)}
    (hruns : ∀ run ∈ runs, run ∈ handler.runs b.listing) (hg : g ∈ (without b runs).guards) :
    (without b runs).listing.nextReal? g.handler = b.listing.nextReal? g.handler := by
  obtain ⟨hmem, hleft⟩ := List.mem_filter.1 hg
  refine nextReal?_restrict ?_ fun n hn => ?_
  · have hlabel := (labels.guards g hmem g.handler (by simp [Guard.labels])).2
    rw [not_isIn_of_isLabel (fun run hrun => hruns run (List.mem_of_mem_filter hrun)) hlabel]
    rfl
  · -- a range that leads into a handler that is gone is gone as well
    by_contra hgone
    obtain ⟨run, hrun, hn'⟩ := isIn_iff.1 (show isIn _ n = true by simpa using hgone)
    obtain ⟨hmemRun, hled⟩ := List.mem_filter.1 hrun
    have hin : isIn (reports handler b) n = true :=
      isIn_iff.2 ⟨run, List.mem_filter.2 ⟨hruns run hmemRun, hled⟩, hn'⟩
    obtain ⟨run', hrun', hleads⟩ := alone.ranges g hmem n hn hin
    obtain ⟨entry, hentry, hnext, -⟩ := eq_head?_of_leadsToRun hleads
    cases hn.symm.trans hnext
    obtain rfl := eq_of_mem_runs wf (hruns run hmemRun) (List.mem_of_mem_filter hrun') hn'
      (List.mem_of_mem_head? hentry)
    rw [List.any_eq_true.2 ⟨run, hmemRun, hleads⟩] at hleft
    cases hleft

/-- One more handler goes if a range leads to it. -/
theorem without_append (b : Body) (runs : List (List Handle)) (run : List Handle) :
    without b (runs ++ [run]) =
      { without b runs with
        guards := (without b runs).guards.filter fun g => !leadsToRun b.listing g run
        listing := if isLed b run then (without b runs).listing.restrict fun h => !run.contains h
          else (without b runs).listing } := by
  -- A range goes if it leads to one of the runs, and the last one is tested with the others.
  have hguards : (without b (runs ++ [run])).guards =
      (without b runs).guards.filter fun g => !leadsToRun b.listing g run := by
    show List.filter _ _ = List.filter _ (List.filter _ _)
    rw [List.filter_filter]
    refine List.filter_congr fun g _ => ?_
    rw [List.any_append, Bool.not_or, Bool.and_comm]
    simp
  -- A run goes as a whole, if a range leads to it, so the listing is restricted once more.
  have hlisting : (without b (runs ++ [run])).listing =
      if isLed b run then (without b runs).listing.restrict fun h => !run.contains h
      else (without b runs).listing := by
    show b.listing.restrict _ = _
    rw [List.filter_append]
    split
    · next hled =>
      rw [List.filter_cons_of_pos hled]
      show _ = (b.listing.restrict _).restrict _
      rw [restrict_restrict]
      congr 1
      funext h
      rw [isIn, List.any_append, Bool.not_or]
      simp [isIn]
    · next hled =>
      rw [List.filter_cons_of_neg hled, List.filter_nil, List.append_nil]
      rfl
  exact congrArg₂ (fun guards listing => { b with guards, listing }) hguards hlisting

/-- Some handlers go one after the other, and each with its ranges. -/
theorem ReportsStandAlone.foldl_eq (alone : ReportsStandAlone handler b)
    (wf : b.listing.WellFormed) (labels : b.LabelsLinked) {runs : List (List Handle)}
    (hruns : ∀ run ∈ runs, run ∈ handler.runs b.listing) (apart : runs.Pairwise List.Disjoint) :
    (runs.foldl removeHandler (0, b)).2 = without b runs := by
  induction runs using List.reverseRecOn with
  | nil =>
    have hguards : (without b []).guards = b.guards := List.filter_eq_self.2 fun _ _ => rfl
    have hlisting : (without b []).listing = b.listing := restrict_true _
    exact congrArg₂ (fun guards listing => { b with guards, listing }) hguards.symm hlisting.symm
  | append_singleton runs run ih =>
    obtain ⟨apart, -, hlast⟩ := List.pairwise_append.1 apart
    have hbefore := fun run hrun => hruns run (List.mem_append_left _ hrun)
    have hrun := hruns run (List.mem_append_right _ List.mem_cons_self)
    rw [List.foldl_append, List.foldl_cons, List.foldl_nil, without_append]
    generalize hstate : runs.foldl removeHandler (0, b) = state at ih ⊢
    obtain ⟨count, body⟩ := state
    obtain rfl : body = without b runs := ih hbefore apart
    cases run with
    | nil => exact absurd rfl ((handler.runs_apart b.listing).1 _ hrun).1
    | cons entry rest =>
      -- the ranges that are left lead where they led
      have hleads : ∀ g ∈ (without b runs).guards, leadsTo (without b runs).listing entry g =
          leadsToRun b.listing g (entry :: rest) := by
        intro g hg
        rw [leadsToRun, List.head?_cons, Option.any_some, leadsTo, leadsTo,
          alone.nextReal?_without wf labels hbefore hg]
      have hguards : ((without b runs).guards.filter fun g =>
          !leadsTo (without b runs).listing entry g) =
          (without b runs).guards.filter fun g => !leadsToRun b.listing g (entry :: rest) :=
        List.filter_congr fun g hg => by rw [hleads g hg]
      rw [removeHandler, hguards]
      cases hled : isLed b (entry :: rest) with
      | true =>
        have hfewer : ((without b runs).guards.filter fun g =>
            !leadsToRun b.listing g (entry :: rest)).length < (without b runs).guards.length := by
          obtain ⟨g, hg, hleads⟩ := List.any_eq_true.1 hled
          have hleft : runs.any (leadsToRun b.listing g) = false := by
            -- no earlier handler begins with the same instruction
            refine List.any_eq_false.2 fun run' hrun' hleads' => ?_
            obtain ⟨_, hentry, hnext, -⟩ := eq_head?_of_leadsToRun hleads
            obtain ⟨entry', hentry', hnext', -⟩ := eq_head?_of_leadsToRun hleads'
            cases hentry
            cases hnext.symm.trans hnext'
            exact hlast run' hrun' _ List.mem_cons_self (List.mem_of_mem_head? hentry')
              List.mem_cons_self
          exact List.length_filter_lt_length_iff_exists.2
            ⟨g, List.mem_filter.2 ⟨hg, by rw [hleft]; rfl⟩, by simp [hleads]⟩
        have wf' : (without b runs).listing.WellFormed := wf.restrict _
        rw [if_pos hfewer, if_pos rfl, foldl_remove_eq_restrict wf']
      | false =>
        have hsame : ((without b runs).guards.filter fun g =>
            !leadsToRun b.listing g (entry :: rest)) = (without b runs).guards := by
          refine List.filter_eq_self.2 fun g hg => ?_
          have hnone := List.any_eq_false.1 hled g (List.mem_of_mem_filter hg)
          simpa using hnone
        rw [hsame, if_neg (Nat.lt_irrefl _), if_neg Bool.false_ne_true]

/-- What is left of a body. -/
theorem ReportsStandAlone.removeTracingHandlers_eq (alone : ReportsStandAlone handler b)
    (wf : b.listing.WellFormed) (labels : b.LabelsLinked) :
    (removeTracingHandlers handler b).2 = without b (handler.runs b.listing) :=
  alone.foldl_eq wf labels (fun _ hrun => hrun) ((handler.runs_apart b.listing).2.2 wf.nodup)

/-! ### What goes is dead -/

/-- From where control comes without the ranges that go, no handler that goes comes next. -/
theorem ReportsStandAlone.not_isIn_of_reaches (alone : ReportsStandAlone handler b)
    (wf : b.listing.WellFormed) (labels : b.LabelsLinked)
    (reaches : { b with guards := (without b (handler.runs b.listing)).guards }.Reaches h) :
    ∀ n ∈ b.listing.nextReal? h, isIn (reports handler b) n = false := by
  have labels' : { b with guards := (without b (handler.runs b.listing)).guards }.LabelsLinked :=
    ⟨labels.targets, fun g hg => labels.guards g (List.mem_of_mem_filter hg)⟩
  -- On how control gets there: the ranges that are left lead to no handler that goes.
  induction reaches with
  | entry first => rw [nextReal?_first first]; exact alone.entry
  | @handler g mem =>
    intro n hn
    obtain ⟨hmem, hleft⟩ := List.mem_filter.1 mem
    by_contra hin
    obtain ⟨run, hrun, hleads⟩ := alone.ranges g hmem n hn (Bool.eq_true_of_not_eq_false hin)
    rw [List.any_eq_true.2 ⟨run, List.mem_of_mem_filter hrun, hleads⟩] at hleft
    cases hleft
  | @pass h m reached running next ih =>
    have hlinked := Flow.mem_handles_of_reaches labels' reached
    cases hreal : b.listing.isReal h with
    | true =>
      rw [← realAfter?_of_next? wf next]
      exact alone.below h (List.mem_filter.2 ⟨hlinked, hreal⟩)
        (ih h (nextReal?_of_isReal hreal)) running
    | false =>
      rwa [nextReal?_of_not_isReal hreal, realAfter?_of_next? wf next] at ih
  | @target h t reached mem ih =>
    have hlinked := Flow.mem_handles_of_reaches labels' reached
    -- Markers have no targets.
    have hreal : b.listing.isReal h = true := by
      by_contra hmarker
      rw [Listing.isReal] at hmarker
      cases hget : b.listing.get h with
      | label | line _ =>
        change t ∈ (b.listing.get h).targets at mem
        rw [hget] at mem
        cases mem
      | _ =>
        rw [hget] at hmarker
        exact hmarker rfl
    exact alone.target h (List.mem_filter.2 ⟨hlinked, hreal⟩) (ih h (nextReal?_of_isReal hreal)) t mem

/-- What goes with the ranges that lead to reporting handlers is dead without them, if these handlers
are entered from their ranges only, and the ranges that stay lead to the same instructions as before.
-/
theorem removeTracingHandlers_dead (wf : b.listing.WellFormed) (labels : b.LabelsLinked)
    (alone : ReportsStandAlone handler b) :
    let b' := (removeTracingHandlers handler b).2
    (∀ h ∈ b.listing.handles, h ∉ b'.listing.handles → ¬{ b with guards := b'.guards }.Reaches h) ∧
      ∀ g ∈ b'.guards, b'.listing.nextReal? g.handler = b.listing.nextReal? g.handler := by
  intro b'
  have hleft : b' = without b (handler.runs b.listing) := alone.removeTracingHandlers_eq wf labels
  rw [hleft]
  refine ⟨fun h hm hgone reaches => ?_, fun g hg =>
    alone.nextReal?_without wf labels (fun _ hrun => hrun) hg⟩
  have hin : isIn (reports handler b) h = true := by
    have hgone : h ∉ (b.listing.restrict fun h => !isIn (reports handler b) h).handles := hgone
    rw [handles_restrict, List.mem_filter, not_and] at hgone
    simpa using hgone hm
  obtain ⟨run, hrun, hh⟩ := isIn_iff.1 hin
  have hreal := List.of_mem_filter
    (((handler.runs_apart b.listing).1 run (List.mem_of_mem_filter hrun)).2.subset hh)
  have hout := alone.not_isIn_of_reaches wf labels reaches h (nextReal?_of_isReal hreal)
  exact Bool.false_ne_true (hout.symm.trans hin)

/-- A body that calls a method in a range whose handler reports crashes, in one whose handler answers
zero, and in others. -/
def reportedCall (others : List (Guard Label)) : Body where
  listing :=
    { nodes := #[⟨.label, none⟩, ⟨.invoke .invokestatic ⟨"b", "c", "()I"⟩ false, none⟩,
        ⟨.plain .ireturn, none⟩, ⟨.label, none⟩, ⟨.label, none⟩, ⟨.slot .astore 1, none⟩,
        ⟨.ofClass .new "java/lang/StringBuilder", none⟩, ⟨.plain .dup, none⟩,
        ⟨.push (.string "b.c("), none⟩,
        ⟨.invoke .invokespecial ⟨"java/lang/StringBuilder", "<init>", "(Ljava/lang/String;)V"⟩ false,
          none⟩,
        ⟨.invoke .invokevirtual ⟨"java/lang/StringBuilder", "toString", "()Ljava/lang/String;"⟩ false,
          none⟩,
        ⟨.invoke .invokestatic ⟨"ac", "a", "(Ljava/lang/String;)V"⟩ false, none⟩,
        ⟨.ofClass .new runtimeException, none⟩, ⟨.plain .dup, none⟩,
        ⟨.invoke .invokespecial ⟨runtimeException, "<init>", "()V"⟩ false, none⟩,
        ⟨.plain .athrow, none⟩, ⟨.label, none⟩, ⟨.slot .astore 1, none⟩, ⟨.plain .iconst0, none⟩,
        ⟨.plain .ireturn, none⟩]
      order := #[0, 1, 2, 3, 4, 5, 6, 7, 8, 9, 10, 11, 12, 13, 14, 15, 16, 17, 18, 19] }
  guards := ⟨0, 3, 4, some runtimeException⟩ :: (others ++ [⟨0, 3, 16, some "java/lang/Error"⟩])
  maxStack := 3
  maxLocals := 2

/-- The word for an assigned opcode. -/
def word (op : Opcode) : Atom :=
  if h : op.byte.toNat < 202 then .one op.mnemonic op (Opcode.ofMnemonic?_eq_some ⟨h, rfl⟩) else .any

/-- Words in front of other items. -/
def inFront (words : List Atom) (rest : Expr Atom .sequence) : Expr Atom .sequence :=
  words.foldr (fun a => .next (.once (.atom a))) rest

/-- How an argument of the method is put into the report. -/
def reportedArgument : Expr Atom .sequence :=
  .next (Place.item ⟨word .aload, [word ⟨21⟩, word ⟨22⟩, word ⟨23⟩, word ⟨24⟩, word .bipush,
      word .sipush, word .ldc]⟩)
    (.next (.once (.atom (word .invokevirtual)))
      (.next (.repeated (.atom (word .invokevirtual)) .atMostOne) .empty))

/-- What the pattern for reporting handlers spells. -/
def reportingHandler : Expr Atom .choice :=
  .only (inFront [word .astore, word .new, word .dup, word .ldc, word .invokespecial]
    (.next (.repeated (.group (.only reportedArgument)) .any)
      (inFront [word .invokevirtual, word .invokestatic, word .new, word .dup, word .invokespecial,
        word .athrow] .empty)))

/-- The text of the pattern spells the handler that reports. -/
theorem spells_tracingHandler : Spells ("ASTORE NEW DUP LDC INVOKESPECIAL " ++
    "((ALOAD | ILOAD | LLOAD | FLOAD | DLOAD | BIPUSH | SIPUSH | LDC) " ++
    "INVOKEVIRTUAL INVOKEVIRTUAL?)* " ++
    "INVOKEVIRTUAL INVOKESTATIC NEW DUP INVOKESPECIAL ATHROW").toList reportingHandler.lexemes := by
  refine spells_of_isSpelled ?_
  show isSpelled _ (String.ofList _ ++ String.ofList _ ++ String.ofList _ ++ String.ofList _).toList =
    true
  simp only [String.toList_append, String.toList_ofList]
  decide +kernel

/-- The body reports in one run. -/
theorem runs_reportedCall (others : List (Guard Label)) :
    tracingHandler.runs (reportedCall others).listing = [[5, 6, 7, 8, 9, 10, 11, 12, 13, 14, 15]] := by
  show tracingHandler.runs (reportedCall []).listing = _
  rw [tracingHandler, ofText_eq spells_tracingHandler (by decide +kernel)]
  decide +kernel

/-- Without other ranges the handler of the body is dead, and it is what goes. -/
theorem removeTracingHandlers_dead_reportedCall :
    (reportedCall []).listing.WellFormed ∧ (reportedCall []).LabelsLinked ∧
    ReportsStandAlone tracingHandler (reportedCall []) ∧
    let b' := (removeTracingHandlers tracingHandler (reportedCall [])).2
    (∀ h ∈ (reportedCall []).listing.handles, h ∉ b'.listing.handles →
        ¬{ reportedCall [] with guards := b'.guards }.Reaches h) ∧
      ∀ g ∈ b'.guards,
        b'.listing.nextReal? g.handler = (reportedCall []).listing.nextReal? g.handler := by
  have wf : (reportedCall []).listing.WellFormed := ⟨by decide, by decide⟩
  have labels : (reportedCall []).LabelsLinked := ⟨by decide, by decide⟩
  have hreports : reports tracingHandler (reportedCall []) =
      [[5, 6, 7, 8, 9, 10, 11, 12, 13, 14, 15]] := by
    rw [reports, runs_reportedCall]
    decide +kernel
  have alone : ReportsStandAlone tracingHandler (reportedCall []) := by
    constructor <;> rw [hreports] <;> decide +kernel
  exact ⟨wf, labels, alone, removeTracingHandlers_dead wf labels alone⟩

/-! ### A handler that ranges share -/

/-- What the handler begins with is reached from any range that leads to it. -/
theorem reaches_reportedCall {others guards : List (Guard Label)} {catches : Option String}
    (h : ⟨0, 3, 4, catches⟩ ∈ guards) : { reportedCall others with guards }.Reaches 5 :=
  .pass (.handler h) rfl rfl

/-- A range of other exceptions has the same handler. It stays, but the handler goes: what it leads to
then is the handler of errors, and what was taken out was not dead. -/
theorem removeTracingHandlers_loses_shared_handler :
    let b := reportedCall [⟨0, 3, 4, some "java/io/IOException"⟩]
    let b' := (removeTracingHandlers tracingHandler b).2
    b.listing.WellFormed ∧ b.LabelsLinked ∧
    (5 ∈ b.listing.handles ∧ 5 ∉ b'.listing.handles ∧ { b with guards := b'.guards }.Reaches 5) ∧
    ∃ g ∈ b'.guards, b.listing.nextReal? g.handler = some 5 ∧
      b'.listing.nextReal? g.handler = some 17 := by
  intro b b'
  have hleft : b' = (removeHandler (0, b) [5, 6, 7, 8, 9, 10, 11, 12, 13, 14, 15]).2 := by
    show (List.foldl removeHandler (0, b) (tracingHandler.runs b.listing)).2 = _
    rw [runs_reportedCall]
    rfl
  have hguards : ⟨0, 3, 4, some "java/io/IOException"⟩ ∈ b'.guards := by
    rw [hleft]
    decide +kernel
  refine ⟨⟨by decide, by decide⟩, ⟨by decide, by decide⟩, ⟨by decide, ?_, ?_⟩, _, hguards, rfl, ?_⟩
  · rw [hleft]
    decide +kernel
  · exact reaches_reportedCall hguards
  · rw [hleft]
    decide +kernel

/-! ### A handler that a jump enters -/

/-- A body that jumps into the handler of its range, to where the report is made and the exception is
thrown. -/
def enteredReport : Body where
  listing :=
    { nodes := #[⟨.label, none⟩, ⟨.invoke .invokestatic ⟨"b", "c", "()I"⟩ false, none⟩,
        ⟨.jump .ifeq 14, none⟩, ⟨.plain .iconst0, none⟩, ⟨.plain .ireturn, none⟩, ⟨.label, none⟩,
        ⟨.label, none⟩, ⟨.slot .astore 1, none⟩, ⟨.ofClass .new "java/lang/StringBuilder", none⟩,
        ⟨.plain .dup, none⟩, ⟨.push (.string "b.c("), none⟩,
        ⟨.invoke .invokespecial ⟨"java/lang/StringBuilder", "<init>", "(Ljava/lang/String;)V"⟩ false,
          none⟩,
        ⟨.invoke .invokevirtual ⟨"java/lang/StringBuilder", "toString", "()Ljava/lang/String;"⟩ false,
          none⟩,
        ⟨.invoke .invokestatic ⟨"ac", "a", "(Ljava/lang/String;)V"⟩ false, none⟩, ⟨.label, none⟩,
        ⟨.ofClass .new runtimeException, none⟩, ⟨.plain .dup, none⟩,
        ⟨.invoke .invokespecial ⟨runtimeException, "<init>", "()V"⟩ false, none⟩,
        ⟨.plain .athrow, none⟩]
      order := #[0, 1, 2, 3, 4, 5, 6, 7, 8, 9, 10, 11, 12, 13, 14, 15, 16, 17, 18] }
  guards := [⟨0, 5, 6, some runtimeException⟩]
  maxStack := 3
  maxLocals := 2

/-- The handler goes with its range, but control comes to its end from the entry. -/
theorem removeTracingHandlers_loses_entered_handler :
    let b := enteredReport
    let b' := (removeTracingHandlers tracingHandler b).2
    b.listing.WellFormed ∧ b.LabelsLinked ∧ b'.guards = [] ∧
    15 ∈ b.listing.handles ∧ 15 ∉ b'.listing.handles ∧ { b with guards := b'.guards }.Reaches 15 := by
  intro b b'
  have hruns : tracingHandler.runs b.listing = [[7, 8, 9, 10, 11, 12, 13, 15, 16, 17, 18]] := by
    rw [tracingHandler, ofText_eq spells_tracingHandler (by decide +kernel)]
    decide +kernel
  have hleft : b' = (removeHandler (0, b) [7, 8, 9, 10, 11, 12, 13, 15, 16, 17, 18]).2 := by
    show (List.foldl removeHandler (0, b) (tracingHandler.runs b.listing)).2 = _
    rw [hruns]
    rfl
  have hguards : b'.guards = [] := by
    rw [hleft]
    decide +kernel
  refine ⟨⟨by decide, by decide⟩, ⟨by decide, by decide⟩, hguards, by decide, ?_, ?_⟩
  · rw [hleft]
    decide +kernel
  -- control enters, goes through the call to the branch, and jumps in front of the last part
  · have hcall : { b with guards := b'.guards }.Reaches 1 := .pass (.entry rfl) rfl rfl
    have hbranch : { b with guards := b'.guards }.Reaches 2 := .pass hcall rfl rfl
    exact .pass (.target hbranch (List.mem_singleton_self 14)) rfl rfl

end Idiom

end Unscramble
