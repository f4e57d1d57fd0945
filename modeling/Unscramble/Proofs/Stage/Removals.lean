import Unscramble.Proofs.Naming.AllOrNothing
import Unscramble.Proofs.Stage.Hooks
import Unscramble.Proofs.Stage.Members
import Unscramble.Proofs.Stage.Passes
import Unscramble.Proofs.Tidy.DeadCalls
import Unscramble.Proofs.Tidy.Gathering

/-! # Stages that rename and remove members end

A renaming is done once. The removal of uncalled methods takes as many passes as the longest chain of
dead calls has methods, and no fewer. A pass removes the spare methods that no instruction calls, and
with them their own calls, so a later pass may remove more. The names that are called only get fewer,
so all passes together remove what a single one would that knew the names which are called in the end:
no call of a method that was removed is left, and every spare method that is left is called. Gathering
the static fields of a sound codebase takes two passes.

Main definition: `Tidy.pruned`. Main statements: `Stage.endsAfter_remap`,
`Stage.endsAfter_unusedMethods`, `Stage.settle_of_deadChain`, `Stage.unusedMethods_run`,
`Stage.endsAfter_staticFields`, `Stage.endsAfter_staticFields_of_sound`. -/

namespace Unscramble

open Naming Tidy

/-! ### Why members do not move -/

namespace Naming

variable {p q : Codebase} {moves : List Move} {n : Nat}

/-- What keeps members from moving is that one belongs to instances. -/
theorem isUnsettled_of_relocate {e : Error} (h : (relocate p moves).2 = .error e) :
    e.isUnsettled = false := by
  rw [relocate] at h
  dsimp only at h
  cases hchecked : (checkMoves p moves).2 with
  | ok valid =>
    rw [hchecked] at h
    cases h
  | error e' =>
    rw [hchecked] at h
    cases h
    obtain ⟨move, -, -, rfl⟩ := checkMoves_error hchecked
    rfl

/-- So the renaming fails for this reason only. -/
theorem isUnsettled_of_rename {policy : Policy} {defaultPackage : String} {table : Table} {e : Error}
    (h : (rename policy defaultPackage p table).result = .error e) : e.isUnsettled = false := by
  rw [rename] at h
  dsimp only at h
  cases hmoved : (relocate p (Assignment.ofCodebase policy defaultPackage p table).moves.reverse).2
    with
  | ok moved =>
    rw [hmoved] at h
    cases h
  | error e' =>
    rw [hmoved] at h
    cases h
    exact isUnsettled_of_relocate hmoved

end Naming

/-! ### Spare methods that are left -/

namespace Tidy

variable {p : Codebase} {names fewer : Std.HashSet String} {c : Class} {m : Method}

/-- A codebase without the spare methods that have none of some names. -/
def pruned (names : Std.HashSet String) (p : Codebase) : Codebase :=
  { p with classes := p.classes.map (withoutUncalled names) }

/-- A class makes dynamic calls whether or not methods of it are removed: if it makes any, none is. -/
theorem usesDynamicCalls_withoutUncalled (names : Std.HashSet String) (c : Class) :
    usesDynamicCalls (withoutUncalled names c) = usesDynamicCalls c := by
  rw [withoutUncalled]
  split
  · rfl
  · next hnone =>
    rw [Bool.eq_false_of_not_eq_true hnone, usesDynamicCalls, List.any_eq_false]
    exact fun m hm => List.any_eq_false.1 (Bool.eq_false_of_not_eq_true hnone) m
      (List.mem_of_mem_filter hm)

/-- The methods that are left of a codebase. -/
theorem pruned_eq (names : Std.HashSet String) (p : Codebase) :
    pruned names p = { p with classes := p.classes.map fun c =>
      { c with methods := c.methods.filter fun m => usesDynamicCalls c || isKept names m } } :=
  congrArg (fun classes => { p with classes })
    (List.map_congr_left fun c _ => methods_withoutUncalled names c)

/-- A method is kept for more names if it is for fewer ones. -/
theorem isKept_mono (h : ∀ n ∈ fewer, n ∈ names) (hm : isKept fewer m = true) :
    isKept names m = true := by
  rw [isKept, Bool.or_eq_true, Bool.or_eq_true, Std.HashSet.contains_iff_mem] at hm ⊢
  exact hm.imp_left (Or.imp_left (h m.name))

/-- A removal for fewer names makes up for an earlier one. -/
theorem pruned_pruned (h : ∀ n ∈ fewer, n ∈ names) (p : Codebase) :
    pruned fewer (pruned names p) = pruned fewer p := by
  have hclass : ∀ c, withoutUncalled fewer (withoutUncalled names c) = withoutUncalled fewer c := by
    intro c
    rw [methods_withoutUncalled fewer (withoutUncalled names c), usesDynamicCalls_withoutUncalled,
      methods_withoutUncalled names, methods_withoutUncalled fewer]
    dsimp only
    rw [List.filter_filter]
    congr 1
    refine List.filter_congr fun m _ => ?_
    cases usesDynamicCalls c
    · rw [Bool.false_or, Bool.false_or, Bool.and_eq_left_iff_imp]
      exact isKept_mono h
    · rfl
  have hclasses : (p.classes.map (withoutUncalled names)).map (withoutUncalled fewer) =
      p.classes.map (withoutUncalled fewer) := by
    rw [List.map_map]
    exact List.map_congr_left fun c _ => hclass c
  exact congrArg (fun classes => { p with classes }) hclasses

/-- What is left calls nothing new. -/
theorem mem_calledNames_of_pruned {n : String} (h : n ∈ calledNames (pruned names p)) :
    n ∈ calledNames p := by
  obtain ⟨b, hb, hcalled⟩ := mem_calledNames.1 h
  obtain ⟨m, hm, hbody⟩ := List.mem_filterMap.1 hb
  obtain ⟨c', hc', hm⟩ := List.mem_flatMap.1 hm
  obtain ⟨c, hc, rfl⟩ := List.mem_map.1 hc'
  rw [methods_withoutUncalled] at hm
  exact mem_calledNames.2 ⟨b, List.mem_filterMap.2
    ⟨m, List.mem_flatMap.2 ⟨c, hc, List.mem_of_mem_filter hm⟩, hbody⟩, hcalled⟩

end Tidy

/-! ### Stages -/

namespace Stage

open Transform

variable {p : Codebase} {settings : Settings} {journal : Journal}

/-- A renaming changes nothing once it is done. -/
theorem endsAfter_remap : remap.EndsAfter 1 settings journal p := by
  have hpass : remap.pass = renameOnce := pass_eq_onPass
  have hbefore : remap.beforeAll.Sober := by
    intro p c e he
    have he : (loadTable p c).changed = .error e := he
    rw [loadTable] at he
    split at he <;> cases he
    rfl
  have hsober : remap.pass.Sober := by
    intro p c e he
    rw [hpass, renameOnce] at he
    dsimp only at he
    split at he
    · cases he
    · split at he
      · next hresult =>
        cases he
        exact isUnsettled_of_rename hresult
      · cases he
  have hafter : remap.afterAll.Sober := by
    intro p c e he
    have he : (keepTable p c).changed = .error e := he
    rw [keepTable] at he
    split at he <;> cases he
  -- A pass that changes something is done afterwards, and a pass that is done changes nothing.
  have hlower : ∀ k p c, (c.state.done = true ∨ 0 < k) → (remap.pass p c).changed = .ok true →
      ∃ j < k, (remap.pass p c).context.state.done = true ∨ 0 < j := by
    intro k p c hk hchanged
    rw [hpass, renameOnce] at hchanged ⊢
    dsimp only at hchanged ⊢
    split at hchanged
    · cases hchanged
    · next hdone =>
      refine ⟨0, hk.resolve_left hdone, .inl ?_⟩
      split at hchanged
      · cases hchanged
      · rw [if_neg hdone]
        rfl
  exact endsAfter_of_level hbefore hsober hafter hlower (.inr Nat.one_pos)

/-- A pass that removes methods takes the first one off every chain of dead calls. -/
theorem endsAfter_unusedMethods {n : Nat} (hp : ∀ m chain, m.name ∉ calledNames p →
    DeadChain p (m :: chain) → chain.length < n) : unusedMethods.EndsAfter n settings journal p := by
  have hpass : unusedMethods.pass = .counting "removed_methods" removeUncalled := pass_eq_onPass
  have hsober : unusedMethods.pass.Sober := hpass ▸ Hook.sober_counting
  have hlower : ∀ k p c, (∀ m chain, m.name ∉ calledNames p → DeadChain p (m :: chain) →
      chain.length < k) → (unusedMethods.pass p c).changed = .ok true →
      ∃ j < k, ∀ m chain, m.name ∉ calledNames (unusedMethods.pass p c).value →
        DeadChain (unusedMethods.pass p c).value (m :: chain) → chain.length < j := by
    intro k p c hk hchanged
    rw [hpass] at hchanged ⊢
    have hpos : 0 < (removeUncalled p).1 := of_decide_eq_true (Except.ok.inj hchanged)
    obtain ⟨m, hspare, huncalled⟩ := removeUncalled_pos_iff.1 hpos
    have hlone : DeadChain p [m] :=
      ⟨by simpa using dead_of_uncalled hspare huncalled, .singleton m, List.nodup_singleton m⟩
    have hfirst : 0 < k := hk m [] huncalled hlone
    refine ⟨k - 1, by omega, fun m chain huncalled hchain => ?_⟩
    obtain ⟨m', huncalled', hlonger⟩ := exists_deadChain_cons hchain huncalled
    have hlt := hk m' (m :: chain) huncalled' hlonger
    rw [List.length_cons] at hlt
    omega
  exact endsAfter_of_level Hook.sober_idle hsober Hook.sober_idle hlower hp

/-- As many passes change something as a chain of dead calls has methods. -/
theorem settle_of_deadChain {chain : List Method} {left : Nat} (hleft : left ≤ chain.length)
    (hp : NoDynamicCalls p) (h : DeadChain p chain) (done : Nat) (c : Context Unit) :
    (unusedMethods.settle left done p c).1 = .error (.unsettled "unused-methods" (done + left)) := by
  induction left generalizing chain done p c with
  | zero => rfl
  | succ left ih =>
    cases chain with
    | nil => exact absurd hleft (Nat.not_succ_le_zero left)
    | cons m chain =>
      have hpass : unusedMethods.pass = .counting "removed_methods" removeUncalled := pass_eq_onPass
      have hchanged : (unusedMethods.pass p c).changed = .ok true := by
        rw [hpass]
        exact congrArg Except.ok (decide_eq_true (h.dead m List.mem_cons_self).removeUncalled_pos)
      rw [Transform.settle, hchanged, hpass, Nat.add_comm left, ← Nat.add_assoc]
      exact ih (Nat.le_of_succ_le_succ hleft) hp.removeUncalled (h.tail_removeUncalled hp) _ _

/-- **All passes together remove what one would** that knew which names are called in the end. -/
theorem settle_unusedMethods {left done passes : Nat} {p q : Codebase} {c c' : Context Unit}
    (h : unusedMethods.settle left done p c = (.ok passes, q, c')) :
    q = pruned (calledNames q) p ∧ ∀ m, IsSpare q m → m.name ∈ calledNames q := by
  have hpass : unusedMethods.pass = .counting "removed_methods" removeUncalled :=
    Transform.pass_eq_onPass
  induction left generalizing done p c with
  | zero => cases h
  | succ left ih =>
    rw [Transform.settle, hpass, Hook.counting] at h
    dsimp only at h
    split at h
    · cases h
    · next hchanged =>
      -- what is called in the end was called after this pass, and so before it
      obtain ⟨hq, hspare⟩ := ih h
      have hq : q = pruned (calledNames q) (pruned (calledNames p) p) := hq
      have hfewer : ∀ n ∈ calledNames q, n ∈ calledNames p := by
        intro n hn
        rw [hq] at hn
        exact mem_calledNames_of_pruned (mem_calledNames_of_pruned hn)
      rw [pruned_pruned hfewer] at hq
      exact ⟨hq, hspare⟩
    · next hchanged =>
      cases h
      have hnone : ¬0 < (removeUncalled p).1 := of_decide_eq_false (Except.ok.inj hchanged)
      have hspare : ∀ m, IsSpare p m → m.name ∈ calledNames p := fun m hm => by
        by_contra huncalled
        exact hnone (removeUncalled_pos_iff.2 ⟨m, hm, huncalled⟩)
      have hsame := removeUncalled_eq_self hspare
      rw [hsame]
      exact ⟨hsame.symm, hspare⟩

/-- **No call of a removed method is left, and no uncalled method.** If the stage that removes uncalled
methods succeeds, it has taken methods out of their classes and changed nothing else. The methods that
it has taken have generated names, are not synthetic, and stood in classes without dynamic calls, and no
method that is left calls one of that name or takes a handle of one. Every method that is left and
could have been taken is called by one that is left. -/
theorem unusedMethods_run {report : Report}
    (h : (unusedMethods.run settings journal p).report = .ok report) :
    ∃ gone : Class → Method → Bool,
      (unusedMethods.run settings journal p).codebase =
          { p with classes := p.classes.map fun c =>
              { c with methods := c.methods.filter fun m => !gone c m } } ∧
        (∀ c ∈ p.classes, ∀ m ∈ c.methods, gone c m = true →
          isGenerated methodStem m.name = true ∧ m.access.contains .syntheticFlag = false ∧
            usesDynamicCalls c = false ∧
              ∀ m' ∈ (unusedMethods.run settings journal p).codebase.methods, ¬Calls m' m) ∧
        ∀ m, IsSpare (unusedMethods.run settings journal p).codebase m →
          ∃ m' ∈ (unusedMethods.run settings journal p).codebase.methods, Calls m' m := by
  -- The run has succeeded, so its passes have, and its last hook does nothing.
  obtain ⟨passes, q, c, hsettle⟩ : ∃ passes q c, unusedMethods.settle Transform.maxPasses 0 p
      { state := (), settings, journal } = (.ok passes, q, c) := by
    rw [Transform.run] at h
    dsimp only at h
    split at h
    · cases h
    · split at h
      · cases h
      · next hsettle => exact ⟨_, _, _, hsettle⟩
  have hrun : (unusedMethods.run settings journal p).codebase = q := by
    rw [Transform.codebase_run rfl rfl]
    exact congrArg (·.2.1) hsettle
  obtain ⟨hq, hspare⟩ := settle_unusedMethods hsettle
  rw [hrun]
  refine ⟨fun c m => !(usesDynamicCalls c || isKept (calledNames q) m), ?_, ?_, ?_⟩
  · simp only [Bool.not_not]
    exact hq.trans (pruned_eq _ p)
  · intro c hc m hm hgone
    rw [Bool.not_eq_true', isKept, Bool.or_eq_false_iff, Bool.or_eq_false_iff,
      Bool.or_eq_false_iff, Bool.not_eq_false', Std.HashSet.contains_eq_false_iff_not_mem] at hgone
    obtain ⟨hnone, ⟨huncalled, hname⟩, hsynthetic⟩ := hgone
    exact ⟨hname, hsynthetic, hnone, fun m' hm' hcalls =>
      huncalled (mem_calledNames_iff_calls.2 ⟨m', hm', hcalls⟩)⟩
  · exact fun m hm => mem_calledNames_iff_calls.1 (hspare m hm)

/-- A static method without arguments that calls the methods of some names and returns. -/
def callingAll (name : String) (callees : List String) : Method where
  owner := "deob/class1"
  name := name
  descriptor := "()V"
  access := .staticFlag
  body := some
    { listing :=
        { nodes := (callees.map fun callee =>
            ⟨.invoke .invokestatic ⟨"deob/class1", callee, "()V"⟩ false, none⟩).toArray.push
              ⟨.plain .returnVoid, none⟩
          order := Array.range (callees.length + 1) } }

/-- A method that calls itself, and a method that nothing calls with one that only it calls. -/
def calledInChain : Codebase where
  classes :=
    [{ name := "deob/class1", superclass := some "java/lang/Object", access := .publicFlag
       methods := [callingAll "method0" ["method0"], callingAll "method1" ["method2"],
         callingAll "method2" []] }]

/-- The uncalled method goes in the first pass, and the one that only it calls in the second. The
method that calls itself is left. -/
theorem unusedMethods_run_calledInChain :
    (unusedMethods.run {} {} calledInChain).report =
        .ok ⟨"unused-methods", 3, ⟨[("removed_methods", 2)]⟩⟩ ∧
      ∀ m, IsSpare (unusedMethods.run {} {} calledInChain).codebase m →
        ∃ m' ∈ (unusedMethods.run {} {} calledInChain).codebase.methods, Calls m' m := by
  have hreport : (unusedMethods.run {} {} calledInChain).report =
      .ok ⟨"unused-methods", 3, ⟨[("removed_methods", 2)]⟩⟩ := by
    cbv
  obtain ⟨-, -, -, hcalled⟩ := unusedMethods_run hreport
  exact ⟨hreport, hcalled⟩

/-- What moves members fails for the reason that the moves have. -/
theorem sober_moving {counter : String} {f : String → Codebase → Moved}
    (hf : ∀ holder p e, (f holder p).result = .error e → e.isUnsettled = false) :
    (moving counter f).Sober := by
  intro p c e he
  rw [moving] at he
  split at he
  · next hresult =>
    cases he
    exact hf _ _ _ hresult
  · cases he

/-- Gathering static fields never fails for want of passes. -/
theorem sober_staticFields : staticFields.pass.Sober := by
  have hpass : staticFields.pass = Hook.andThen (.counting "removed_fields" removeUnusedFields)
      (moving "moved_fields" moveStaticFields) := pass_eq_onPass
  rw [hpass]
  refine Hook.sober_counting.andThen (sober_moving fun holder p e he => ?_)
  rw [moveStaticFields] at he
  dsimp only at he
  split at he
  · cases he
  · split at he
    · next hmoved =>
      cases he
      exact isUnsettled_of_relocate hmoved
    · cases he

/-- What a pass over the static fields does: it removes the unused ones and moves those that are left.
-/
theorem of_changed_staticFields {c : Context Unit}
    (hchanged : (staticFields.pass p c).changed = .ok true) :
    ∃ n, (moveStaticFields c.settings.holder (removeUnusedFields p).2).result = .ok n ∧
      (0 < (removeUnusedFields p).1 ∨ 0 < n) ∧
      (staticFields.pass p c).context.settings = c.settings ∧
      (staticFields.pass p c).value =
        (moveStaticFields c.settings.holder (removeUnusedFields p).2).codebase := by
  have hpass : staticFields.pass = Hook.andThen (.counting "removed_fields" removeUnusedFields)
      (moving "moved_fields" moveStaticFields) := pass_eq_onPass
  have hcounting : (Hook.counting "removed_fields" removeUnusedFields : Hook Unit Codebase) p c =
      ⟨.ok (0 < (removeUnusedFields p).1), (removeUnusedFields p).2,
        c.count "removed_fields" (removeUnusedFields p).1⟩ := rfl
  have hsettings : (c.count "removed_fields" (removeUnusedFields p).1).settings.holder =
      c.settings.holder := rfl
  rw [hpass, Hook.andThen, hcounting] at hchanged ⊢
  dsimp only at hchanged ⊢
  rw [moving] at hchanged ⊢
  rw [hsettings] at hchanged ⊢
  split at hchanged
  · cases hchanged
  · next n hresult =>
    have hchanged : (decide (0 < (removeUnusedFields p).1) || decide (0 < n)) = true :=
      Except.ok.inj hchanged
    refine ⟨n, hresult, by simpa using hchanged, ?_, ?_⟩
    · rfl
    · rfl

/-- Each pass over the static fields removes a field or moves one into the holder, if it changes
something. -/
theorem endsAfter_staticFields :
    staticFields.EndsAfter (scattered settings.holder p) settings journal p := by
  -- What is removed and what is moved both lower the number of fields out of place, and one of them
  -- has happened.
  have hlower : ∀ k p c, (c.settings = settings ∧ scattered settings.holder p ≤ k) →
      (staticFields.pass p c).changed = .ok true → ∃ j < k,
        (staticFields.pass p c).context.settings = settings ∧
          scattered settings.holder (staticFields.pass p c).value ≤ j := by
    rintro k p c ⟨rfl, hk⟩ hchanged
    obtain ⟨n, hresult, hany, hsettings, hvalue⟩ := of_changed_staticFields hchanged
    have hremoved := scattered_removeUnusedFields c.settings.holder p
    have hmoved := scattered_moveStaticFields hresult
    rw [← hvalue] at hmoved
    exact ⟨k - 1, by omega, hsettings, by omega⟩
  exact endsAfter_of_level Hook.sober_idle sober_staticFields Hook.sober_idle hlower
    ⟨rfl, Nat.le_refl _⟩

/-- **Two passes over the static fields of a sound codebase change something,** however many there are:
after the first one no field is left to move, and after the second one none is left to remove. -/
theorem endsAfter_staticFields_of_sound (hp : p.Sound)
    (hdistinct : ∀ c ∈ p.classes, (c.fields.map fun f => (f.name, f.descriptor)).Nodup) :
    staticFields.EndsAfter 2 settings journal p := by
  let Resting (k : Nat) (p : Codebase) : Prop :=
    (p.Sound ∧ (∀ c ∈ p.classes, (c.fields.map fun f => (f.name, f.descriptor)).Nodup) ∧ 1 < k) ∨
      (movingFields settings.holder p = [] ∧ (0 < k ∨ (removeUnusedFields p).1 = 0))
  have hlower : ∀ k p c, (c.settings = settings ∧ Resting k p) →
      (staticFields.pass p c).changed = .ok true → ∃ j < k,
        (staticFields.pass p c).context.settings = settings ∧
          Resting j (staticFields.pass p c).value := by
    rintro k p c ⟨rfl, hk⟩ hchanged
    obtain ⟨n, hresult, hany, hsettings, hvalue⟩ := of_changed_staticFields hchanged
    rw [hvalue]
    rcases hk with ⟨hp, hdistinct, hk⟩ | ⟨hnone, hk⟩
    · have hmoved : movingFields c.settings.holder
          (moveStaticFields c.settings.holder (removeUnusedFields p).2).codebase = [] :=
        movingFields_moveStaticFields (sound_removeUnusedFields hp)
          (distinct_removeUnusedFields hdistinct)
      exact ⟨1, hk, hsettings, .inr ⟨hmoved, .inl Nat.one_pos⟩⟩
    · have hnone' := movingFields_removeUnusedFields hnone
      have hself := moveStaticFields_of_movingFields hnone'
      rw [hself] at hresult ⊢
      obtain rfl : 0 = n := Except.ok.inj hresult
      rcases hk with hk | hzero
      · refine ⟨0, hk, hsettings, .inr ⟨hnone', .inr ?_⟩⟩
        exact congrArg Prod.fst (removeUnusedFields_again p)
      · omega
  exact endsAfter_of_level Hook.sober_idle sober_staticFields Hook.sober_idle hlower
    ⟨rfl, .inl ⟨hp, hdistinct, Nat.lt_succ_self 1⟩⟩

end Stage

end Unscramble
