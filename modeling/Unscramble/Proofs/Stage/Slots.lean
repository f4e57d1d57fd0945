import Unscramble.Proofs.Slot.Resplit
import Unscramble.Proofs.Stage.Passes

/-! # Splitting slots settles

A pass that splits the slots of every method leaves each of them split, so the next pass changes
nothing. A method that cannot be split makes the pass fail, and it is not for want of passes.

Main statements: `endsAfter_variableSplitter`, `variableSplitter_idempotent`. -/

namespace Unscramble

namespace Slot

variable {b : Body} {method : Method}

/-- Slots are not given for other reasons than a stage that does not settle. -/
theorem isUnsettled_of_assign {gs : List Group} {next : Nat} {e : Error}
    (h : assign method next gs = .error e) : e.isUnsettled = false := by
  induction gs generalizing next with
  | nil => cases h
  | cons g gs ih =>
    rw [assign] at h
    split at h
    · cases h
      rfl
    · split at h
      · exact ih h
      · split at h
        · cases h
          rfl
        · cases hrest : assign method (next + g.width) gs with
          | error e' =>
            rw [hrest] at h
            cases h
            exact ih hrest
          | ok =>
            rw [hrest] at h
            cases h

@[inherit_doc isUnsettled_of_assign]
theorem isUnsettled_of_split {e : Error} (h : split method b = .error e) :
    e.isUnsettled = false := by
  rw [split, splitBy] at h
  cases hassign : assign method method.firstLocal (groups method.firstLocal b) with
  | error e' =>
    rw [hassign] at h
    cases h
    exact isUnsettled_of_assign hassign
  | ok =>
    rw [hassign] at h
    cases h

end Slot

namespace Stage

open Slot Transform

/-! ### What a pass counts -/

/-- What a pass finds when it splits some methods. -/
def Found (methods : List Method) (splits : List (Except Error Split)) : Prop :=
  ∀ x ∈ splits, ∃ m ∈ methods, ∃ b, m.body = some b ∧ x = (split m b).map (·.1)

/-- A pass finds what it has found when it splits one of the methods again. -/
theorem found_splitMethod {methods : List Method} {splits : List (Except Error Split)}
    (h : Found methods splits) {m : Method} (hm : m ∈ methods) :
    Found methods (splitMethod splits m).1 := by
  rw [splitMethod.eq_def]
  split
  · exact h
  · next b hb =>
    intro x hx
    split at hx
    · next e hsplit =>
      rcases List.mem_cons.1 hx with rfl | hx
      · exact ⟨m, hm, b, hb, by rw [hsplit]; rfl⟩
      · exact h x hx
    · next report b' hsplit =>
      rcases List.mem_cons.1 hx with rfl | hx
      · exact ⟨m, hm, b, hb, by rw [hsplit]; rfl⟩
      · exact h x hx

/-- Counting fails with the first error that was found. -/
theorem mem_of_countSplits_error {c : Context Unit} {changed : Bool}
    {splits : List (Except Error Split)} {e : Error}
    (h : (countSplits c changed splits).1 = .error e) : .error e ∈ splits := by
  induction splits generalizing c changed with
  | nil => cases h
  | cons x splits ih =>
    cases x with
    | error e' =>
      cases h
      exact List.mem_cons_self
    | ok report =>
      rw [countSplits] at h
      split at h
      · exact List.mem_cons_of_mem _ (ih h)
      · exact List.mem_cons_of_mem _ (ih h)

/-- Something changed if a method changed. -/
theorem exists_of_countSplits_true {c : Context Unit} {splits : List (Except Error Split)}
    (h : (countSplits c false splits).1 = .ok true) : ∃ report, .ok report ∈ splits ∧
      report.changed = true := by
  induction splits generalizing c with
  | nil => cases h
  | cons x splits ih =>
    cases x with
    | error e => cases h
    | ok report =>
      rw [countSplits] at h
      split at h
      · next hchanged => exact ⟨report, List.mem_cons_self, hchanged⟩
      · obtain ⟨report', hmem, hchanged⟩ := ih h
        exact ⟨report', List.mem_cons_of_mem _ hmem, hchanged⟩

/-! ### Passes -/

/-- A method's body is well formed, and at the lowest level it is split. -/
def SplitLevel (k : Nat) (m : Method) : Prop :=
  ∀ b, m.body = some b → b.listing.WellFormed ∧
    (k = 0 → ∀ report b', split m b = .ok (report, b') → report.changed = false)

/-- A method is split when it has been visited. -/
theorem splitLevel_splitMethod {k : Nat} {m : Method} (h : SplitLevel k m)
    (splits : List (Except Error Split)) : SplitLevel (k - 1) (splitMethod splits m).2 := by
  rw [splitMethod.eq_def]
  cases hm : m.body with
  | none =>
    intro b hb
    have hsome : m.body = some b := hb
    rw [hm] at hsome
    cases hsome
  | some b =>
    obtain ⟨wf, -⟩ := h b hm
    dsimp only
    cases hsplit : split m b with
    | error e =>
      -- what cannot be split cannot be split again
      intro b' hb'
      have hsame : m.body = some b' := hb'
      rw [hm] at hsame
      cases hsame
      refine ⟨wf, fun _ report b' hagain => ?_⟩
      have hok : split m b = .ok (report, b') := hagain
      rw [hsplit] at hok
      cases hok
    | ok result =>
      intro c hc
      cases hc
      have hlocal : Method.firstLocal { m with body := some result.2 } = m.firstLocal := rfl
      refine ⟨wellFormed_split wf hsplit, fun _ report b' hagain => ?_⟩
      dsimp only at hagain
      rw [split_again hlocal wf hsplit] at hagain
      cases hagain
      rfl

/-- A pass that splits slots does nothing else. -/
theorem pass_variableSplitter : variableSplitter.pass = variableSplitter.onPass :=
  pass_eq_onPass

/-- The methods that a pass leaves. -/
theorem exists_of_mem_methods_pass {p : Codebase} {c : Context Unit} {m : Method}
    (h : m ∈ (variableSplitter.onPass p c).value.methods) :
    ∃ splits, ∃ m₀ ∈ p.methods, m = (splitMethod splits m₀).2 := by
  obtain ⟨k, hk, hm⟩ := List.mem_flatMap.1 h
  obtain ⟨_, k₀, hk₀, rfl⟩ := mem_mapThrough hk
  obtain ⟨splits, m₀, hm₀, rfl⟩ := mem_mapThrough hm
  exact ⟨splits, m₀, List.mem_flatMap.2 ⟨k₀, hk₀, hm₀⟩, rfl⟩

/-- What a pass finds is what splitting its methods gives. -/
theorem found_pass (p : Codebase) : Found p.methods
    (mapThrough (fun splits (k : Class) =>
      let (splits, methods) := mapThrough splitMethod splits k.methods
      (splits, { k with methods })) [] p.classes).1.reverse := by
  have hfound : Found p.methods (mapThrough (fun splits (k : Class) =>
      let (splits, methods) := mapThrough splitMethod splits k.methods
      (splits, { k with methods })) [] p.classes).1 := by
    refine mapThrough_keeps nofun fun splits k hk h => ?_
    exact mapThrough_keeps h fun splits m hm h =>
      found_splitMethod h (List.mem_flatMap.2 ⟨k, hk, hm⟩)
  exact fun x hx => hfound x (List.mem_reverse.1 hx)

/-- Splitting slots never fails for want of passes. -/
theorem sober_variableSplitter : variableSplitter.pass.Sober := by
  intro p c e he
  rw [pass_variableSplitter] at he
  obtain ⟨m, -, b, -, hsplit⟩ := found_pass p _ (mem_of_countSplits_error he)
  cases hresult : split m b with
  | error e' =>
    rw [hresult] at hsplit
    cases hsplit
    exact isUnsettled_of_split hresult
  | ok =>
    rw [hresult] at hsplit
    cases hsplit

/-- A pass leaves the methods split, and changes nothing if they are. -/
theorem lowers_variableSplitter : variableSplitter.pass.Lowers (fun _ => True)
    (fun k p => ∀ m ∈ p.methods, SplitLevel k m) where
  context _ _ _ := trivial
  level := by
    intro k p c changed _ hp hchanged
    rw [pass_variableSplitter] at hchanged ⊢
    constructor
    · intro m hm
      obtain ⟨splits, m₀, hm₀, rfl⟩ := exists_of_mem_methods_pass hm
      exact splitLevel_splitMethod (hp m₀ hm₀) splits
    · intro hk
      cases changed with
      | false => rfl
      | true =>
        -- A pass that changes something has split a method, and one that is split in the end does
        -- not split again.
        obtain ⟨report, hmem, hreport⟩ := exists_of_countSplits_true hchanged
        obtain ⟨m, hm, b, hb, hsplit⟩ := found_pass p _ hmem
        cases hresult : split m b with
        | error e =>
          rw [hresult] at hsplit
          cases hsplit
        | ok result =>
          rw [hresult] at hsplit
          cases hsplit
          rw [(hp m hm b hb).2 hk _ _ hresult] at hreport
          cases hreport

/-- Splitting slots settles in the first pass. -/
theorem endsAfter_variableSplitter {p : Codebase} (hp : ∀ b ∈ p.bodies, b.listing.WellFormed)
    (settings : Settings) (journal : Journal) :
    variableSplitter.EndsAfter 1 settings journal p := by
  refine endsAfter Hook.sober_idle sober_variableSplitter Hook.sober_idle
    lowers_variableSplitter ⟨trivial, fun m hm b hb => ⟨?_, nofun⟩⟩
  exact hp b (List.mem_filterMap.2 ⟨m, hm, hb⟩)

/-- A second split of a body finds the same groups on their slots and changes nothing, so the stage
that splits the slots of a codebase settles in two passes at most. -/
theorem variableSplitter_idempotent :
    (∀ (U : UnionFind) (method : Method) (b b' : Body) (report : Split), U.Lawful →
      b.listing.WellFormed → splitBy U method b = .ok (report, b') →
      splitBy U method b' = .ok ({ report with renumbered := 0, changed := false }, b')) ∧
    ∀ (settings : Settings) (journal : Journal) (p : Codebase),
      (∀ b ∈ p.bodies, b.listing.WellFormed) →
      variableSplitter.toStage.SettlesWithin 2 settings journal p :=
  ⟨fun U method b b' report hU wf h => by
      rw [splitBy_eq hU] at h ⊢
      exact split_again rfl wf h,
    fun settings journal _ hp =>
      (endsAfter_variableSplitter hp settings journal).settlesWithin (by decide)⟩

/-- A codebase with a method that uses the slot of its argument for a counter. -/
def reusingCodebase : Codebase where
  classes :=
    [{ name := "A"
       superclass := none
       access := .publicFlag
       methods := [{ reusingMethod with body := some (reusingBody 0 1) }] }]

/-- The counter moves in the first pass and stays in the second, which is the last. -/
theorem variableSplitter_idempotent_loop :
    split reusingMethod (reusingBody 0 1) = .ok (⟨1, 3, 2, true⟩, reusingBody 1 2) ∧
      split reusingMethod (reusingBody 1 2) = .ok (⟨1, 0, 2, false⟩, reusingBody 1 2) ∧
      (variableSplitter.toStage.run {} {} reusingCodebase).1 = .ok ⟨"variable-splitter", 2,
        { entries := [("changed_methods", 1), ("renumbered_insns", 3)] }⟩ ∧
      variableSplitter.toStage.SettlesWithin 2 {} {} reusingCodebase := by
  have hsplit : split reusingMethod (reusingBody 0 1) =
      .ok (⟨1, 3, 2, true⟩, reusingBody 1 2) := by cbv
  have wf : (reusingBody 0 1).listing.WellFormed := ⟨by decide, by decide⟩
  have hbodies : ∀ b ∈ reusingCodebase.bodies, b.listing.WellFormed := by
    intro b hb
    rw [show reusingCodebase.bodies = [reusingBody 0 1] from rfl] at hb
    exact List.mem_singleton.1 hb ▸ wf
  obtain ⟨hagain, hsettles⟩ := variableSplitter_idempotent
  exact ⟨hsplit, hagain _ _ _ _ _ Partition.lawful_unionFind wf hsplit, by cbv, hsettles {} {} _ hbodies⟩

end Stage

end Unscramble
