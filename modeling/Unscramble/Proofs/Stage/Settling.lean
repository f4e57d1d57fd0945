import Unscramble.Proofs.Stage.Declarations
import Unscramble.Proofs.Stage.LockCopies
import Unscramble.Proofs.Stage.Removals
import Unscramble.Proofs.Stage.Slots
import Unscramble.Proofs.Tidy.Waiting

/-! # Every stage settles

Each stage has a measure of a codebase that its passes take down. If the measure is less than the
passes that a stage is granted, the stage settles. Most stages take one or two passes whatever the size
of the program. The removal of uncalled methods takes as many passes as a chain of dead calls is long,
so a chain as long as the granted passes makes it fail, and the static methods take as many as methods
wait for each other.

Main definitions: `Stage.PassesSuffice`, `Stage.deadCalls`. Main statements:
`Stage.settlesWithin_of_passesSuffice`, `Stage.unsettled_deadCalls`. -/

namespace Unscramble

namespace Stage

open Idiom Tidy Transform Unscramble.Flow

variable {p : Codebase} {settings : Settings} {journal : Journal} {n : Nat}

/-! ### Static methods -/

/-- Gathering static methods never fails for want of passes. -/
theorem sober_staticMethods : staticMethods.pass.Sober := by
  have hpass : staticMethods.pass = moving "moved_methods" moveStaticMethods := pass_eq_onPass
  rw [hpass]
  refine sober_moving fun holder p e he => ?_
  rw [moveStaticMethods] at he
  dsimp only at he
  split at he
  · cases he
  · split at he
    · next hmoved =>
      cases he
      exact Naming.isUnsettled_of_relocate hmoved
    · cases he

/-- The passes over the static methods of an orderly codebase change something as often as methods that
move wait for each other in a chain. -/
theorem endsAfter_staticMethods (hp : Orderly settings.holder p)
    (hchains : ∀ chain, WaitingChain settings.holder p chain → chain.length ≤ n) :
    staticMethods.EndsAfter n settings journal p := by
  have hpass : staticMethods.pass = moving "moved_methods" moveStaticMethods := pass_eq_onPass
  -- Each pass that moves something takes one method off every chain that begins with a moving one.
  let Waits (k : Nat) (p : Codebase) : Prop := ∀ m ∈ p.methods,
    newHome settings.holder p m.key ≠ m.owner → ∀ chain,
      WaitingChain settings.holder p (m :: chain) → chain.length < k
  have hlower : ∀ k p c, (c.settings = settings ∧ Orderly settings.holder p ∧ Waits k p) →
      (staticMethods.pass p c).changed = .ok true → ∃ j < k,
        (staticMethods.pass p c).context.settings = settings ∧
          Orderly settings.holder (staticMethods.pass p c).value ∧
            Waits j (staticMethods.pass p c).value := by
    rintro k p c ⟨rfl, hp, hk⟩ hchanged
    rw [hpass, moving] at hchanged ⊢
    cases hplan : (methodPlan c.settings.holder p).isEmpty with
    | true =>
      obtain ⟨hself, -⟩ := moveStaticMethods_eq_self hplan
      rw [hself] at hchanged
      cases hchanged
    | false =>
      obtain ⟨p', hmoved, hpasses⟩ := hp.exists_passes hplan
      rw [hmoved] at hchanged ⊢
      have hpos : 0 < (plannedMoves c.settings.holder p).length :=
        of_decide_eq_true (Except.ok.inj hchanged)
      obtain ⟨x, hx, -, hleaves⟩ := exists_leaving (List.getElem_mem hpos)
      have hkpos : 0 < k := hk x hx hleaves [] (hpasses.waitingChain_singleton hx hleaves)
      refine ⟨k - 1, by omega, rfl, hpasses.after, fun m' hm' hmoves chain' hchain' => ?_⟩
      obtain ⟨x, hx, hleaves, chain, hlength, hchain⟩ :=
        hpasses.exists_waitingChain_cons hmoves hchain'
      have hlt := hk x hx hleaves chain hchain
      omega
  exact endsAfter_of_level Hook.sober_idle sober_staticMethods Hook.sober_idle hlower
    ⟨rfl, hp, fun m _ _ chain hchain => hchains (m :: chain) hchain⟩

/-! ### All stages -/

/-- What makes a number of passes that change something enough for a stage of a given name. -/
def PassesSuffice (settings : Settings) (p : Codebase) (n : Nat) (name : String) : Prop :=
  match name with
  | "exception-tracing" => ∀ b ∈ p.bodies, crashRanges b ≤ n
  | "monitor" => 0 < n ∧ ∀ b ∈ p.bodies, ∀ g ∈ b.guards, unreleased b.listing g ≤ n
  | "opaque-predicate" =>
    (∀ b ∈ p.bodies, BranchesJump b.listing) ∧
      ∀ b ∈ (removeAllInitializers p).2.bodies,
        obstructorAccesses (removeAllInitializers p).1 b.listing < n
  | "redundant-goto" => ∀ b ∈ p.bodies, b.Stays ∧ gotoCount (normalize b).2.listing < n
  | "static-methods" => Orderly settings.holder p ∧
    ∀ chain, WaitingChain settings.holder p chain → chain.length ≤ n
  | "unused-methods" => ∀ chain, DeadChain p chain → chain.length ≤ n
  | "static-fields" => 1 < n ∧ p.Sound ∧
      (∀ c ∈ p.classes, (c.fields.map fun f => (f.name, f.descriptor)).Nodup) ∨
    scattered settings.holder p ≤ n
  | _ => 0 < n

/-- **Every stage settles if its measure is less than the passes that it is granted**: it does not
fail for want of passes, and it takes one more than the measure at most. -/
theorem settlesWithin_of_passesSuffice (hp : ∀ b ∈ p.bodies, b.Intact) {stage : Stage}
    (hstage : stage ∈ Stage.all) (hn : n < maxPasses)
    (hsuffice : PassesSuffice settings p n stage.name) :
    stage.SettlesWithin (n + 1) settings journal p := by
  have hwf : ∀ b ∈ p.bodies, b.listing.WellFormed := fun b hb => (hp b hb).wf
  have hone : ∀ {σ : Type} {t : Transform σ}, t.EndsAfter 1 settings journal p → 0 < n →
      t.toStage.SettlesWithin (n + 1) settings journal p :=
    fun h hpos => (h.mono hpos).settlesWithin hn
  -- One case for each stage, in their order.
  simp only [Stage.all, List.mem_cons, List.not_mem_nil, or_false] at hstage
  rcases hstage with rfl | rfl | rfl | rfl | rfl | rfl | rfl | rfl | rfl | rfl | rfl | rfl | rfl |
    rfl | rfl | rfl | rfl
  · exact (endsAfter_exceptionTracing settings journal hsuffice).settlesWithin hn
  · exact hone (endsAfter_redundantException settings journal) hsuffice
  · exact (endsAfter_monitor settings journal hsuffice.1 fun b hb =>
      ⟨hp b hb, hsuffice.2 b hb⟩).settlesWithin hn
  · exact (endsAfter_opaquePredicate settings journal (fun b hb => ⟨hp b hb, hsuffice.1 b hb⟩)
      hsuffice.2).settlesWithin hn
  · exact hone (endsAfter_bitShift settings journal hp) hsuffice
  · exact hone (endsAfter_unreachableCode settings journal hwf) hsuffice
  · exact (endsAfter_redundantGoto settings journal fun b hb =>
      ⟨hp b hb, hsuffice b hb⟩).settlesWithin hn
  · exact hone (endsAfter_variableSplitter hwf settings journal) hsuffice
  · exact hone endsAfter_remap hsuffice
  · obtain ⟨horderly, hchains⟩ := hsuffice
    exact (endsAfter_staticMethods horderly hchains).settlesWithin hn
  · refine (endsAfter_unusedMethods fun m chain _ hchain => ?_).settlesWithin hn
    exact hsuffice (m :: chain) hchain
  -- Two passes gather the fields of a sound codebase, and as many as are out of place those of any.
  · rcases hsuffice with ⟨htwo, hsound, hdistinct⟩ | hscattered
    · exact ((endsAfter_staticFields_of_sound hsound hdistinct).mono htwo).settlesWithin hn
    · exact (endsAfter_staticFields.mono hscattered).settlesWithin hn
  · exact hone (endsAfter_sortFields settings journal p) hsuffice
  · exact hone (endsAfter_sortMethods settings journal p) hsuffice
  · exact hone (endsAfter_visibility settings journal p) hsuffice
  · exact hone (endsAfter_annotationRemover settings journal p) hsuffice
  · exact hone (endsAfter_deleteInvokedynamic settings journal) hsuffice

/-! ### Dead calls -/

/-- A method that calls the next one. -/
def callingMethod (i : Nat) : Method :=
  { owner := "deob/class1", name := methodStem ++ toString i, descriptor := "()V"
    access := ⟨0x0009⟩
    body := some
      { listing :=
          { nodes := #[⟨.invoke .invokestatic
                ⟨"deob/class1", methodStem ++ toString (i + 1), "()V"⟩ false, none⟩,
              ⟨.plain ⟨177⟩, none⟩]
            order := #[0, 1] } } }

/-- A class with methods of which each calls the next one, and nothing calls the first one. -/
def deadCalls (n : Nat) : Codebase :=
  { classes :=
      [{ name := "deob/class1", superclass := some "java/lang/Object", access := ⟨0x0021⟩
         methods := (List.range n).map callingMethod }] }

/-- The methods of the codebase are called by their numbers. -/
theorem methods_deadCalls (n : Nat) : (deadCalls n).methods = (List.range n).map callingMethod :=
  List.append_nil _

/-- Each method calls the next one. -/
theorem calls_callingMethod_iff {i j : Nat} :
    Calls (callingMethod i) (callingMethod j) ↔ j = i + 1 := by
  constructor
  · rintro ⟨b, hb, insn, hinsn, hname⟩
    cases hb
    have hinsn : insn ∈ [.invoke .invokestatic
        ⟨"deob/class1", methodStem ++ toString (i + 1), "()V"⟩ false, .plain ⟨177⟩] := hinsn
    rcases List.mem_pair.1 hinsn with rfl | rfl
    · exact (Naming.numbered_inj.1 (Option.some.inj hname)).symm
    · cases hname
  · rintro rfl
    exact ⟨_, rfl, _, List.mem_cons_self, rfl⟩

/-- The codebase calls no method dynamically. -/
theorem noDynamicCalls_deadCalls (n : Nat) : NoDynamicCalls (deadCalls n) := by
  intro c hc
  cases List.mem_singleton.1 hc
  rw [usesDynamicCalls, List.any_eq_false]
  intro m hm
  obtain ⟨i, -, rfl⟩ := List.mem_map.1 hm
  exact ne_true_of_eq_false rfl

/-- The bodies are whole. -/
theorem intact_deadCalls (n : Nat) : ∀ b ∈ (deadCalls n).bodies, b.Intact := by
  intro b hb
  obtain ⟨m, hm, hb⟩ := List.mem_filterMap.1 hb
  rw [methods_deadCalls] at hm
  obtain ⟨i, -, rfl⟩ := List.mem_map.1 hm
  cases hb
  refine ⟨⟨(by decide : [0, 1].Nodup), ?_⟩, ⟨?_, ?_⟩⟩
  · exact (by decide : ∀ h ∈ [0, 1], h < 2)
  · intro h hh t ht
    rcases List.mem_pair.1 (hh : h ∈ [0, 1]) with rfl | rfl <;> cases ht
  · intro g hg
    cases hg

/-- The methods are a chain of dead calls. -/
theorem deadChain_deadCalls (n : Nat) :
    DeadChain (deadCalls n) ((List.range n).map callingMethod) := by
  have hspare : ∀ i < n, IsSpare (deadCalls n) (callingMethod i) := fun i hi =>
    ⟨Naming.isGenerated_numbered methodStem i,
      (by decide : Access.contains ⟨0x0009⟩ .syntheticFlag = false), _, List.mem_singleton_self _,
      noDynamicCalls_deadCalls n _ (List.mem_singleton_self _),
      List.mem_map_of_mem (List.mem_range.2 hi)⟩
  have hcaller : ∀ {i : Nat} {m : Method}, m ∈ (deadCalls n).methods →
      Calls m (callingMethod i) → ∃ j, m = callingMethod j ∧ i = j + 1 := by
    intro i m hm hcalls
    rw [methods_deadCalls] at hm
    obtain ⟨j, -, rfl⟩ := List.mem_map.1 hm
    exact ⟨j, rfl, calls_callingMethod_iff.1 hcalls⟩
  have hdead : ∀ i < n, Dead (deadCalls n) (callingMethod i) := by
    intro i
    induction i with
    | zero =>
      refine fun hi => .intro _ (hspare 0 hi) fun m hm hcalls => ?_
      obtain ⟨j, -, hj⟩ := hcaller hm hcalls
      cases hj
    | succ i ih =>
      refine fun hi => .intro _ (hspare _ hi) fun m hm hcalls => ?_
      obtain ⟨j, rfl, hj⟩ := hcaller hm hcalls
      cases hj
      exact ih (Nat.lt_of_succ_lt hi)
  refine ⟨?_, ?_, ?_⟩
  · intro m hm
    obtain ⟨i, hi, rfl⟩ := List.mem_map.1 hm
    exact hdead i (List.mem_range.1 hi)
  · rw [List.isChain_map, List.isChain_range]
    exact fun i _ => calls_callingMethod_iff.2 rfl
  · refine List.nodup_range.map fun i j heq => ?_
    exact Naming.numbered_inj.1 (congrArg Method.name heq)

/-- **A chain of as many dead methods as there are passes keeps their removal from settling.** -/
theorem unsettled_deadCalls (hn : maxPasses ≤ n) :
    (unusedMethods.toStage.run settings journal (deadCalls n)).1 =
      .error (.unsettled "unused-methods" maxPasses) := by
  have hlength : maxPasses ≤ ((List.range n).map callingMethod).length := by
    rwa [List.length_map, List.length_range]
  have hsettle := settle_of_deadChain hlength (noDynamicCalls_deadCalls n) (deadChain_deadCalls n) 0
    { state := (), settings, journal }
  rw [Nat.zero_add] at hsettle
  show (Transform.run unusedMethods settings journal (deadCalls n)).report = _
  rw [Transform.run]
  dsimp only
  split
  · next e he => cases he
  · split
    · next e p' c' heq =>
      have herror := (congrArg Prod.fst heq).symm.trans hsettle
      exact congrArg Except.error (Except.error.inj herror)
    · next passes p' c' heq =>
      have hok := (congrArg Prod.fst heq).symm.trans hsettle
      cases hok

/-- A thousand methods that each wait for the one before are not removed within a thousand passes.
-/
theorem unsettled_thousandDeadCalls :
    unusedMethods.toStage ∈ Stage.all ∧ (∀ b ∈ (deadCalls 1000).bodies, b.Intact) ∧
      (unusedMethods.toStage.run {} {} (deadCalls 1000)).1 =
        .error (.unsettled "unused-methods" 1000) := by
  exact ⟨by simp [Stage.all], intact_deadCalls 1000, unsettled_deadCalls (Nat.le_refl _)⟩

/-- The passes suffice for three stages on a codebase with two dead methods. -/
theorem settlesWithin_of_passesSuffice_deadCalls :
    (∀ b ∈ (deadCalls 2).bodies, b.Intact) ∧
    PassesSuffice {} (deadCalls 2) 2 unusedMethods.toStage.name ∧
    unusedMethods.toStage.SettlesWithin 3 {} {} (deadCalls 2) ∧
    PassesSuffice {} (deadCalls 2) 6 staticMethods.toStage.name ∧
    staticMethods.toStage.SettlesWithin 7 {} {} (deadCalls 2) ∧
    PassesSuffice {} (deadCalls 2) 2 staticFields.toStage.name ∧
    staticFields.toStage.SettlesWithin 3 {} {} (deadCalls 2) := by
  have hintact := intact_deadCalls 2
  have hunused : PassesSuffice {} (deadCalls 2) 2 unusedMethods.toStage.name :=
    fun chain hchain => hchain.length_le
  have horderly : Orderly (Settings.holder {}) (deadCalls 2) := by
    refine ⟨⟨by decide, by decide, by decide⟩, by decide, by decide, by decide, by decide, ?_⟩
    intro m hm _ _ b hb
    rcases List.mem_pair.1 (hm : m ∈ [callingMethod 0, callingMethod 1]) with rfl | rfl
    · cases hb
      exact ⟨by decide, by decide, by decide⟩
    · cases hb
      exact ⟨by decide, by decide, by decide⟩
  have hstatic : PassesSuffice {} (deadCalls 2) 6 staticMethods.toStage.name :=
    ⟨horderly, fun chain hchain => (hchain.length_le_unrest horderly.keys).trans (unrest_le _ _)⟩
  have hfields : PassesSuffice {} (deadCalls 2) 2 staticFields.toStage.name :=
    .inl ⟨Nat.le_refl 2, horderly.sound, by decide⟩
  exact ⟨hintact, hunused,
    settlesWithin_of_passesSuffice hintact (by simp [Stage.all]) (by decide) hunused, hstatic,
    settlesWithin_of_passesSuffice hintact (by simp [Stage.all]) (by decide) hstatic, hfields,
    settlesWithin_of_passesSuffice hintact (by simp [Stage.all]) (by decide) hfields⟩

end Stage

end Unscramble
