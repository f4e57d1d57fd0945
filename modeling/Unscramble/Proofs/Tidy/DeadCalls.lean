import Unscramble.Proofs.Naming.Keys
import Unscramble.Proofs.Tidy.MethodPlan

/-! # Chains of dead calls

A method that only dead methods call is dead as well, but it goes after them: each removal takes the
methods that nothing calls at the time. So a chain of dead methods, each of which calls the next one,
is taken down from its front, one method at a time.

Main definitions: `Calls`, `Dead`, `DeadChain`. Main statements: `exists_deadChain_cons`,
`removeUncalled_pos_of_dead`, `DeadChain.tail_removeUncalled`. -/

namespace Unscramble.Tidy

open Naming

variable {p : Codebase} {m m' : Method} {chain : List Method}

/-! ### Dead methods -/

/-- Whether an instruction of a method calls, or takes a handle of, some method of the name of another
one. -/
def Calls (m m' : Method) : Prop :=
  ∃ b, m.body = some b ∧ ∃ i ∈ b.listing.instructions, calledName? i = some m'.name

/-- Names are called if a method calls one of that name. -/
theorem mem_calledNames_iff_calls : m.name ∈ calledNames p ↔ ∃ m' ∈ p.methods, Calls m' m := by
  rw [mem_calledNames]
  constructor
  · rintro ⟨b, hb, hcalled⟩
    obtain ⟨m', hm', hbody⟩ := List.mem_filterMap.1 hb
    exact ⟨m', hm', b, hbody, hcalled⟩
  · rintro ⟨m', hm', b, hbody, hcalled⟩
    exact ⟨b, List.mem_filterMap.2 ⟨m', hm', hbody⟩, hcalled⟩

/-- A method that goes once nothing calls it: its name is generated, it is not synthetic, and its class
makes no dynamic calls. -/
def IsSpare (p : Codebase) (m : Method) : Prop :=
  isGenerated methodStem m.name = true ∧ m.access.contains .syntheticFlag = false ∧
    ∃ c ∈ p.classes, usesDynamicCalls c = false ∧ m ∈ c.methods

/-- A spare method is one of the codebase. -/
theorem IsSpare.mem (h : IsSpare p m) : m ∈ p.methods := by
  obtain ⟨-, -, c, hc, -, hm⟩ := h
  exact List.mem_flatMap.2 ⟨c, hc, hm⟩

/-- A spare method that only dead methods call, so a method that nothing calls to begin with. -/
inductive Dead (p : Codebase) : Method → Prop
  | intro (m : Method) : IsSpare p m → (∀ m' ∈ p.methods, Calls m' m → Dead p m') → Dead p m

/-- A dead method is spare. -/
theorem Dead.isSpare (h : Dead p m) : IsSpare p m := by
  cases h with
  | intro _ hspare _ => exact hspare

/-- A spare method that nothing calls is dead. -/
theorem dead_of_uncalled (hspare : IsSpare p m) (h : m.name ∉ calledNames p) : Dead p m :=
  .intro m hspare fun m' hm' hcalls =>
    absurd (mem_calledNames_iff_calls.2 ⟨m', hm', hcalls⟩) h

/-! ### What a removal takes and leaves -/

/-- What is left of a class makes no new dynamic calls, and if it makes none it has lost its uncalled
methods. -/
theorem of_mem_classes_removeUncalled {c' : Class} (h : c' ∈ (removeUncalled p).2.classes) :
    ∃ c ∈ p.classes, c' = withoutUncalled (calledNames p) c ∧
      (usesDynamicCalls c' = false → usesDynamicCalls c = false ∧
        c'.methods = c.methods.filter (isKept (calledNames p))) := by
  obtain ⟨c, hc, rfl⟩ := List.mem_map.1 h
  refine ⟨c, hc, rfl, fun hnone => ?_⟩
  rw [withoutUncalled] at hnone ⊢
  by_cases huses : usesDynamicCalls c = true
  · rw [if_pos huses] at hnone
    exact absurd huses (ne_true_of_eq_false hnone)
  · rw [if_neg huses]
    exact ⟨Bool.eq_false_of_not_eq_true huses, rfl⟩

/-- What is left was there. -/
theorem mem_of_mem_removeUncalled (h : m ∈ (removeUncalled p).2.methods) : m ∈ p.methods := by
  obtain ⟨c', hc', hm⟩ := List.mem_flatMap.1 h
  obtain ⟨c, hc, rfl⟩ := List.mem_map.1 hc'
  refine List.mem_flatMap.2 ⟨c, hc, ?_⟩
  rw [withoutUncalled] at hm
  split at hm
  · exact hm
  · exact List.mem_of_mem_filter hm

/-- A method that is taken out is spare and nothing calls it. -/
theorem isSpare_of_not_mem (hm : m ∈ p.methods) (h : m ∉ (removeUncalled p).2.methods) :
    IsSpare p m ∧ m.name ∉ calledNames p := by
  obtain ⟨c, hc, hmc⟩ := List.mem_flatMap.1 hm
  have hgone : m ∉ (withoutUncalled (calledNames p) c).methods := fun hleft =>
    h (List.mem_flatMap.2 ⟨_, List.mem_map_of_mem hc, hleft⟩)
  rw [withoutUncalled] at hgone
  split at hgone
  · exact absurd hmc hgone
  · next huses =>
    have hkept : isKept (calledNames p) m = false := by
      by_contra hkept
      exact hgone (List.mem_filter.2 ⟨hmc, Bool.eq_true_of_not_eq_false hkept⟩)
    rw [isKept, Bool.or_eq_false_iff, Bool.or_eq_false_iff, Bool.not_eq_false'] at hkept
    obtain ⟨⟨hcalled, hname⟩, hsynthetic⟩ := hkept
    refine ⟨⟨hname, hsynthetic, c, hc, Bool.eq_false_of_not_eq_true huses, hmc⟩, ?_⟩
    rw [← Std.HashSet.contains_iff_mem, hcalled]
    exact Bool.false_ne_true

/-- A spare method that is left was called. -/
theorem called_of_isSpare_removeUncalled (h : IsSpare (removeUncalled p).2 m) :
    IsSpare p m ∧ m.name ∈ calledNames p := by
  obtain ⟨hname, hsynthetic, c', hc', hnone, hm⟩ := h
  obtain ⟨c, hc, -, hleft⟩ := of_mem_classes_removeUncalled hc'
  obtain ⟨huses, hmethods⟩ := hleft hnone
  rw [hmethods] at hm
  obtain ⟨hm, hkept⟩ := List.mem_filter.1 hm
  refine ⟨⟨hname, hsynthetic, c, hc, huses, hm⟩, ?_⟩
  rw [isKept, hname, hsynthetic] at hkept
  simpa using hkept

/-- A spare method that is called is left, and is still spare. -/
theorem isSpare_removeUncalled (h : IsSpare p m) (hcalled : m.name ∈ calledNames p) :
    IsSpare (removeUncalled p).2 m := by
  obtain ⟨hname, hsynthetic, c, hc, huses, hm⟩ := h
  have hleft : withoutUncalled (calledNames p) c =
      { c with methods := c.methods.filter (isKept (calledNames p)) } := by
    rw [withoutUncalled, if_neg (ne_true_of_eq_false huses)]
  refine ⟨hname, hsynthetic, withoutUncalled (calledNames p) c, List.mem_map_of_mem hc, ?_, ?_⟩
  · rw [hleft, usesDynamicCalls, List.any_eq_false]
    intro m' hm'
    exact List.any_eq_false.1 huses m' (List.mem_of_mem_filter hm')
  · rw [hleft]
    refine List.mem_filter.2 ⟨hm, ?_⟩
    rw [isKept, Std.HashSet.contains_iff_mem.2 hcalled]
    rfl

/-- The methods that are left come in the order they had. -/
theorem methods_withoutUncalled_sublist (cs : List Class) :
    ((cs.map (withoutUncalled (calledNames p))).flatMap (·.methods)).Sublist
      (cs.flatMap (·.methods)) := by
  induction cs with
  | nil => exact .slnil
  | cons c cs ih =>
    refine List.Sublist.append ?_ ih
    rw [withoutUncalled]
    split
    · exact .refl _
    · exact List.filter_sublist

/-- The methods that are left of a class. -/
theorem methods_withoutUncalled (names : Std.HashSet String) (c : Class) :
    withoutUncalled names c =
      { c with methods := c.methods.filter fun m => usesDynamicCalls c || isKept names m } := by
  rw [withoutUncalled]
  split
  · next huses => simp [huses]
  · next hnone => simp [hnone]

/-- Nothing is removed if every spare method is called. -/
theorem removeUncalled_eq_self (h : ∀ m, IsSpare p m → m.name ∈ calledNames p) :
    (removeUncalled p).2 = p := by
  have hclass : ∀ c ∈ p.classes, withoutUncalled (calledNames p) c = c := by
    intro c hc
    rw [methods_withoutUncalled, List.filter_eq_self.2]
    intro m hm
    by_contra hgone
    rw [isKept, Bool.or_eq_true, Bool.or_eq_true, Bool.or_eq_true, not_or, not_or, not_or,
      Bool.not_eq_true, Bool.not_eq_true, Bool.not_eq_true, Bool.not_eq_true,
      Bool.not_eq_false', Std.HashSet.contains_eq_false_iff_not_mem] at hgone
    obtain ⟨hnone, ⟨huncalled, hname⟩, hsynthetic⟩ := hgone
    exact huncalled (h m ⟨hname, hsynthetic, c, hc, hnone, hm⟩)
  rw [removeUncalled, List.map_congr_left hclass, List.map_id']

/-- A removal takes something if nothing calls some spare method. -/
theorem removeUncalled_pos_iff :
    0 < (removeUncalled p).1 ↔ ∃ m, IsSpare p m ∧ m.name ∉ calledNames p := by
  have hcount : (removeUncalled p).1 = p.methods.length - (removeUncalled p).2.methods.length := rfl
  constructor
  · intro hpos
    by_contra hall
    have hsame : (removeUncalled p).2 = p := removeUncalled_eq_self fun m hspare => by
      by_contra huncalled
      exact hall ⟨m, hspare, huncalled⟩
    rw [hcount, hsame, Nat.sub_self] at hpos
    exact Nat.lt_irrefl 0 hpos
  -- The class of the spare method has fewer methods than before, and no class has more.
  · rintro ⟨m, ⟨hname, hsynthetic, c, hc, huses, hm⟩, huncalled⟩
    obtain ⟨front, back, hclasses⟩ := List.append_of_mem hc
    have hfewer : (withoutUncalled (calledNames p) c).methods.length < c.methods.length := by
      rw [withoutUncalled, if_neg (ne_true_of_eq_false huses)]
      refine List.length_filter_lt_length_iff_exists.2 ⟨m, hm, ?_⟩
      rw [isKept, hname, hsynthetic, Bool.eq_false_of_not_eq_true
        (mt Std.HashSet.contains_iff_mem.1 huncalled)]
      simp
    have hfront := (methods_withoutUncalled_sublist (p := p) front).length_le
    have hback := (methods_withoutUncalled_sublist (p := p) back).length_le
    have hleft : (removeUncalled p).2.methods =
        (p.classes.map (withoutUncalled (calledNames p))).flatMap (·.methods) := rfl
    rw [hcount, hleft, Codebase.methods, hclasses]
    simp only [List.map_append, List.map_cons, List.flatMap_append, List.flatMap_cons,
      List.length_append]
    omega

/-! ### Chains -/

/-- Different dead methods, each of which calls the next one. -/
structure DeadChain (p : Codebase) (chain : List Method) : Prop where
  /-- The methods are dead. -/
  dead : ∀ m ∈ chain, Dead p m
  /-- Each one calls the next one. -/
  calls : chain.IsChain Calls
  /-- No method comes twice. -/
  nodup : chain.Nodup

/-- A chain of dead methods goes on without its first one. -/
theorem DeadChain.tail (h : DeadChain p (m :: chain)) : DeadChain p chain where
  dead m' hm' := h.dead m' (List.mem_cons_of_mem _ hm')
  calls := h.calls.tail
  nodup := h.nodup.of_cons

/-- A chain is no longer than the codebase has methods. -/
theorem DeadChain.length_le (h : DeadChain p chain) : chain.length ≤ p.methods.length :=
  (List.subperm_of_subset h.nodup fun m hm => (h.dead m hm).isSpare.mem).length_le

/-- Every method of a chain but the first is called by another one. -/
theorem DeadChain.called (h : DeadChain p (m :: chain)) (hm' : m' ∈ chain) :
    m'.name ∈ calledNames p := by
  induction chain generalizing m with
  | nil => cases hm'
  | cons first rest ih =>
    rcases List.mem_cons.1 hm' with rfl | hrest
    · exact mem_calledNames_iff_calls.2 ⟨m, (h.dead m List.mem_cons_self).isSpare.mem,
        (List.isChain_cons_cons.1 h.calls).1⟩
    · exact ih h.tail hrest

/-- What is dead and left was dead. -/
theorem Dead.of_removeUncalled (h : Dead (removeUncalled p).2 m) : Dead p m := by
  induction h with
  | intro m hspare _ ih =>
    refine .intro m (called_of_isSpare_removeUncalled hspare).1 fun m' hm' hcalls => ?_
    by_cases hleft : m' ∈ (removeUncalled p).2.methods
    · exact ih m' hleft hcalls
    · obtain ⟨hspare', huncalled⟩ := isSpare_of_not_mem hm' hleft
      exact dead_of_uncalled hspare' huncalled

/-- A chain that nothing calls from outside gets longer in front by undoing a removal. -/
theorem exists_deadChain_cons (h : DeadChain (removeUncalled p).2 (m :: chain))
    (huncalled : m.name ∉ calledNames (removeUncalled p).2) :
    ∃ m', m'.name ∉ calledNames p ∧ DeadChain p (m' :: m :: chain) := by
  obtain ⟨-, hcalled⟩ := called_of_isSpare_removeUncalled (h.dead m List.mem_cons_self).isSpare
  obtain ⟨m', hm', hcalls⟩ := mem_calledNames_iff_calls.1 hcalled
  have hgone : m' ∉ (removeUncalled p).2.methods := fun hleft =>
    huncalled (mem_calledNames_iff_calls.2 ⟨m', hleft, hcalls⟩)
  obtain ⟨hspare, huncalled'⟩ := isSpare_of_not_mem hm' hgone
  refine ⟨m', huncalled', ⟨?_, List.isChain_cons_cons.2 ⟨hcalls, h.calls⟩,
    List.nodup_cons.2 ⟨fun hmem => huncalled' ?_, h.nodup⟩⟩⟩
  · exact List.forall_mem_cons.2 ⟨dead_of_uncalled hspare huncalled',
      fun x hx => (h.dead x hx).of_removeUncalled⟩
  · -- what is left of dead methods was called
    exact (called_of_isSpare_removeUncalled (h.dead m' hmem).isSpare).2

/-- As long as a method is dead, a removal takes some method. -/
theorem Dead.removeUncalled_pos (h : Dead p m) : 0 < (removeUncalled p).1 := by
  induction h with
  | intro m hspare _ ih =>
    by_cases hcalled : m.name ∈ calledNames p
    · obtain ⟨m', hm', hcalls⟩ := mem_calledNames_iff_calls.1 hcalled
      exact ih m' hm' hcalls
    · exact removeUncalled_pos_iff.2 ⟨m, hspare, hcalled⟩

/-! ### Codebases without dynamic calls -/

/-- Whether no class makes dynamic calls. -/
def NoDynamicCalls (p : Codebase) : Prop :=
  ∀ c ∈ p.classes, usesDynamicCalls c = false

/-- Without dynamic calls there are none when methods are removed. -/
theorem NoDynamicCalls.removeUncalled (hp : NoDynamicCalls p) :
    NoDynamicCalls (removeUncalled p).2 := by
  intro c' hc'
  obtain ⟨c, hc, rfl⟩ := List.mem_map.1 hc'
  rw [withoutUncalled, if_neg (ne_true_of_eq_false (hp c hc)), usesDynamicCalls, List.any_eq_false]
  exact fun m hm => List.any_eq_false.1 (hp c hc) m (List.mem_of_mem_filter hm)

/-- What is dead and called is left dead. -/
theorem Dead.removeUncalled (hp : NoDynamicCalls p) (h : Dead p m)
    (hcalled : m.name ∈ calledNames p) : Dead (removeUncalled p).2 m := by
  induction h with
  | intro m hspare hdead ih =>
    refine .intro m (isSpare_removeUncalled hspare hcalled) fun m' hm' hcalls => ?_
    have hm := mem_of_mem_removeUncalled hm'
    obtain ⟨hname, hsynthetic, -⟩ := (hdead m' hm hcalls).isSpare
    -- the caller is left although it is spare, so it is called itself
    obtain ⟨c', hc', hmc'⟩ := List.mem_flatMap.1 hm'
    have hspare' : IsSpare (Tidy.removeUncalled p).2 m' :=
      ⟨hname, hsynthetic, c', hc', hp.removeUncalled c' hc', hmc'⟩
    exact ih m' hm hcalls (called_of_isSpare_removeUncalled hspare').2

/-- A removal takes one method at most from a chain. -/
theorem DeadChain.tail_removeUncalled (hp : NoDynamicCalls p) (h : DeadChain p (m :: chain)) :
    DeadChain (removeUncalled p).2 chain where
  dead x hx := (h.dead x (List.mem_cons_of_mem _ hx)).removeUncalled hp (h.called hx)
  calls := h.calls.tail
  nodup := h.nodup.of_cons

end Unscramble.Tidy
