import Unscramble.Proofs.Stage.Passes
import Unscramble.Stage.Members

/-! # Stages for declarations settle

Sorting, widening and clearing give the right answer at once, so that a second pass changes nothing,
however large a codebase is.

Main statements: `endsAfter_sortFields`, `endsAfter_sortMethods`, `endsAfter_visibility`,
`endsAfter_annotationRemover`. -/

namespace Unscramble

/-! ### Widening -/

namespace Access

/-- Setting or clearing a flag again changes nothing. -/
theorem union_union_self (a b : Access) : (a.union b).union b = a.union b := by
  show Access.mk (a.bits ||| b.bits ||| b.bits) = Access.mk (a.bits ||| b.bits)
  rw [UInt16.or_assoc, UInt16.or_self]

/-- Widening the access of a member again changes nothing. -/
theorem widenMember_widenMember (a : Access) : a.widenMember.widenMember = a.widenMember := by
  unfold widenMember
  by_cases h : a.isPackage = true
  · rw [if_pos h, union_union_self, ite_self]
  · rw [if_neg h, if_neg h]

/-- Widening the access of a class again changes nothing. -/
theorem widenClass_widenClass (a : Access) : a.widenClass.widenClass = a.widenClass := by
  have hmask : ∀ x : BitVec 16, ((((x &&& ~~~2#16) &&& ~~~4#16) &&& ~~~16#16) ||| 1#16) =
      (x &&& ~~~22#16) ||| 1#16 := by
    intro x
    rw [BitVec.and_assoc, BitVec.and_assoc]
    rfl
  unfold widenClass
  rw [Access.mk.injEq, ← UInt16.toBitVec_inj]
  show ((((((((a.bits.toBitVec &&& ~~~2#16) &&& ~~~4#16) &&& ~~~16#16) ||| 1#16) &&& ~~~2#16) &&&
    ~~~4#16) &&& ~~~16#16) ||| 1#16) =
    ((((a.bits.toBitVec &&& ~~~2#16) &&& ~~~4#16) &&& ~~~16#16) ||| 1#16)
  rw [hmask, hmask]
  rw [BitVec.and_or_distrib_right]
  rw [BitVec.and_assoc, BitVec.and_self, BitVec.or_assoc]
  rfl

end Access

/-! ### Passes over declarations -/

namespace Transform

variable {σ : Type} {G : Context σ → Prop} {name : String} {start : σ} {onClass : Hook σ Class}
  {onField : Hook σ Field} {beforeBody : Hook σ Method}

/-- A pass of a transform of classes visits the classes. -/
theorem lowers_classes {R : Nat → Class → Prop} (h : onClass.Lowers G R) :
    (Transform.pass { name, start, onClass }).Lowers G (fun k p => ∀ c ∈ p.classes, R k c) := by
  have hclass : visitClass { name, start, onClass } = onClass := by
    have hmethod : visitMethod { name, start, onClass } = .idle := by
      change (Hook.idle.andThen (visitBody fun _ => .idle)).andThen .idle = .idle
      rw [visitBody_idle, Hook.idle_andThen, Hook.idle_andThen]
    unfold visitClass
    rw [hmethod, Hook.each_idle, Hook.each_idle, Hook.focus_idle fun _ => rfl,
      Hook.focus_idle fun _ => rfl, Hook.andThen_idle, Hook.andThen_idle]
  rw [pass, Hook.andThen_idle, hclass]
  exact h.each.focus fun _ _ => rfl

/-- A pass of a transform of declarations visits the classes, their fields and their methods. What is
asked of a class itself is nothing that its fields and methods bear on. -/
theorem lowers_declarations {R : Nat → Class → Prop} {F : Nat → Field → Prop}
    {M : Nat → Method → Prop} (hclass : onClass.Lowers G R) (hfield : onField.Lowers G F)
    (hbefore : beforeBody.Lowers G M)
    (hmembers : ∀ a c, (onClass a c).value.fields = a.fields ∧
      (onClass a c).value.methods = a.methods)
    (hfields : ∀ k (c : Class) fields, R k c → R k { c with fields })
    (hmethods : ∀ k (c : Class) methods, R k c → R k { c with methods }) :
    (Transform.pass { name, start, onClass, onField, beforeBody }).Lowers G
      (fun k p => ∀ c ∈ p.classes, (R k c ∧ ∀ f ∈ c.fields, F k f) ∧ ∀ m ∈ c.methods, M k m) := by
  -- A transform without a body hook visits a method by its first hook only.
  have hvisit : visitMethod { name, start, onClass, onField, beforeBody } = beforeBody := by
    change (beforeBody.andThen (visitBody fun _ => .idle)).andThen .idle = beforeBody
    rw [visitBody_idle, Hook.andThen_idle, Hook.andThen_idle]
  have heach : (Hook.focus (·.fields) (fun c fields => { c with fields }) (.each onField) :
      Hook σ Class).Lowers G (fun k c => ∀ f ∈ c.fields, F k f) :=
    hfield.each.focus fun _ _ => rfl
  have heach' : (Hook.focus (·.methods) (fun c methods => { c with methods }) (.each beforeBody) :
      Hook σ Class).Lowers G (fun k c => ∀ m ∈ c.methods, M k m) :=
    hbefore.each.focus fun _ _ => rfl
  have hfront := hclass.andThen heach
    (fun k a c _ h f hf => h f ((hmembers a c).1 ▸ hf)) (fun k a c _ h => hfields k a _ h)
  -- What is asked of fields does not bear on methods and the other way round, so the hooks may run
  -- one after the other.
  have hall := hfront.andThen heach' (fun k a c _ h m hm => ?_)
    (fun k a c _ h => ⟨hmethods k a _ h.1, h.2⟩)
  · rw [pass, Hook.andThen_idle]
    unfold visitClass
    rw [hvisit]
    exact hall.each.focus fun _ _ => rfl
  · refine h m ((hmembers a c).2 ▸ ?_)
    rw [Hook.andThen] at hm
    dsimp only at hm
    split at hm
    · exact hm
    · exact hm

/-- A transform without hooks around its passes ends after one pass if each pass gives the right
answer at once. -/
theorem endsAfter_one {t : Transform Unit} (hbefore : t.beforeAll = .idle)
    (hafter : t.afterAll = .idle) (sober : t.pass.Sober) {R : Nat → Codebase → Prop}
    (h : t.pass.Lowers (fun _ => True) R) (hany : ∀ p, R 1 p) (settings : Settings)
    (journal : Journal) (p : Codebase) : t.EndsAfter 1 settings journal p :=
  endsAfter (hbefore ▸ Hook.sober_idle) sober (hafter ▸ Hook.sober_idle) h ⟨trivial, hany _⟩

end Transform

namespace Stage

open Transform

variable {α : Type}

/-! ### Hooks of declarations -/

/-- Sorting never fails for want of passes. -/
theorem sober_sorting {counter : String} {f : α → Bool × α} : (sorting counter f).Sober :=
  fun _ _ _ => nofun

/-- What is sorted again keeps its order. -/
theorem lowers_sorting {counter : String} {f : α → Bool × α}
    (h : ∀ a, (f (f a).2).1 = false) :
    (sorting counter f).Lowers (fun _ => True) (fun k a => k = 0 → (f a).1 = false) := by
  refine Hook.lowers_of_once (fun _ _ _ => trivial) (fun a _ _ => h a) fun a c _ ha htrue => ?_
  rw [show (sorting counter f a c).changed = .ok (f a).1 from rfl, ha] at htrue
  cases htrue

/-- Widening never fails for want of passes. -/
theorem sober_widening {counter : String} {access : α → Access} {setAccess : α → Access → α}
    {widen : Access → Access} : (widening counter access setAccess widen).Sober := by
  intro a c e he
  unfold widening at he
  dsimp only at he
  split at he <;> cases he

/-- What is widened again keeps its access. -/
theorem lowers_widening {counter : String} {access : α → Access} {setAccess : α → Access → α}
    {widen : Access → Access} (hset : ∀ a b, access (setAccess a b) = b)
    (h : ∀ a, widen (widen a) = widen a) :
    (widening counter access setAccess widen).Lowers (fun _ => True)
      (fun k a => k = 0 → widen (access a) = access a) := by
  refine Hook.lowers_of_once (fun _ _ _ => trivial) (fun a c _ => ?_) fun a c _ ha => ?_
  · unfold widening
    dsimp only
    split
    · next heq => exact heq
    · exact (congrArg widen (hset _ _)).trans ((h _).trans (hset _ _).symm)
  · unfold widening
    dsimp only
    rw [if_pos ha]
    exact nofun

/-- Clearing annotations never fails for want of passes. -/
theorem sober_clearing {annotations : α → List Annotation}
    {setAnnotations : α → List Annotation → α} : (clearing annotations setAnnotations).Sober := by
  intro a c e he
  unfold clearing at he
  split at he <;> cases he

/-- What is cleared has nothing left to clear. -/
theorem lowers_clearing {annotations : α → List Annotation}
    {setAnnotations : α → List Annotation → α}
    (hset : ∀ a b, annotations (setAnnotations a b) = b) :
    (clearing annotations setAnnotations).Lowers (fun _ => True)
      (fun k a => k = 0 → annotations a = []) := by
  refine Hook.lowers_of_once (fun _ _ _ => trivial) (fun a c _ => ?_) fun a c _ ha => ?_
  · unfold clearing
    split
    · next hnone => exact hnone
    · exact hset a []
  · unfold clearing
    rw [ha]
    exact nofun

/-! ### Sorting -/

instance transCmp_compareRanks : Std.TransCmp Tidy.compareRanks where
  eq_swap := by
    intro a b
    cases a with
    | none => cases b <;> rfl
    | some a =>
      cases b with
      | none => rfl
      | some b => exact Std.OrientedOrd.eq_swap
  isLE_trans := by
    intro a b c hab hbc
    cases c with
    | none => cases a <;> rfl
    | some c =>
      cases b with
      | none => cases hbc
      | some b =>
        cases a with
        | none => cases hab
        | some a => exact Std.TransOrd.isLE_trans hab hbc

/-- Sorting again by an order changes nothing. -/
theorem mergeSort_mergeSort (cmp : α → α → Ordering) [Std.TransCmp cmp] (as : List α) :
    ((as.mergeSort fun a b => (cmp a b).isLE).mergeSort fun a b => (cmp a b).isLE) =
      as.mergeSort fun a b => (cmp a b).isLE := by
  refine List.mergeSort_of_pairwise (List.pairwise_mergeSort ?_ ?_ as)
  · exact fun a b c hab hbc => Std.TransCmp.isLE_trans hab hbc
  · intro a b
    rw [show cmp b a = (cmp a b).swap from Std.OrientedCmp.eq_swap]
    cases cmp a b <;> rfl

/-- Fields are ordered by their ranks. -/
theorem transCmp_compareFields (rank : Std.HashMap Member Nat) :
    Std.TransCmp (Tidy.compareFields rank) := by
  have hranks : Std.TransCmp fun a b : Field => Tidy.compareRanks rank[a.key]? rank[b.key]? :=
    { eq_swap := transCmp_compareRanks.eq_swap
      isLE_trans := transCmp_compareRanks.isLE_trans }
  exact (inferInstance : Std.TransCmp (compareLex
    (fun a b : Field => Tidy.compareRanks rank[a.key]? rank[b.key]?)
    (compareLex (compareOn Field.descriptor) (compareOn Field.name))))

/-- The fields of a class stay as they are sorted. -/
theorem sortFields_sortFields (c : Class) : (Tidy.sortFields (Tidy.sortFields c).2).1 = false := by
  have := transCmp_compareFields (Tidy.ranks (Tidy.initializationOrder c))
  show (((Tidy.sortFields c).2.fields.mergeSort fun a b =>
    (Tidy.compareFields (Tidy.ranks (Tidy.initializationOrder c)) a b).isLE).map Field.key !=
      (Tidy.sortFields c).2.fields.map Field.key) = false
  unfold Tidy.sortFields
  rw [mergeSort_mergeSort (Tidy.compareFields (Tidy.ranks (Tidy.initializationOrder c)))]
  exact bne_self_eq_false _

/-- The methods of a class stay as they are sorted. -/
theorem sortMethods_sortMethods (c : Class) :
    (Tidy.sortMethods (Tidy.sortMethods c).2).1 = false := by
  have htrans : Std.TransCmp fun a b : Option Nat × Method => Tidy.compareRanks a.1 b.1 :=
    { eq_swap := transCmp_compareRanks.eq_swap
      isLE_trans := transCmp_compareRanks.isLE_trans }
  let sorted := (c.methods.map fun m => (Tidy.firstLine? m, m)).mergeSort fun a b =>
    (Tidy.compareRanks a.1 b.1).isLE
  -- The lines of the sorted methods are the ones that they were sorted by.
  have hlines : (sorted.map (·.2)).map (fun m => (Tidy.firstLine? m, m)) = sorted := by
    rw [List.map_map]
    refine (List.map_congr_left fun pair hpair => ?_).trans (List.map_id' sorted)
    obtain ⟨m, -, rfl⟩ := List.mem_map.1 ((List.mergeSort_perm _ _).mem_iff.1 hpair)
    rfl
  show (((((sorted.map (·.2)).map fun m => (Tidy.firstLine? m, m)).mergeSort fun a b =>
    (Tidy.compareRanks a.1 b.1).isLE).map (·.2)).map Method.key !=
      (sorted.map (·.2)).map Method.key) = false
  rw [hlines, mergeSort_mergeSort fun a b : Option Nat × Method => Tidy.compareRanks a.1 b.1]
  exact bne_self_eq_false _

/-! ### Stages -/

section

variable (settings : Settings) (journal : Journal) (p : Codebase)

/-- Sorting fields settles in the first pass. -/
theorem endsAfter_sortFields : sortFields.EndsAfter 1 settings journal p := by
  refine endsAfter_one rfl rfl ?_ (lowers_classes (lowers_sorting sortFields_sortFields)) ?_ _ _ _
  · exact sober_pass sober_sorting Hook.sober_idle Hook.sober_idle (fun _ => Hook.sober_idle)
      Hook.sober_idle Hook.sober_idle
  · exact fun p c _ hone => absurd hone Nat.one_ne_zero

/-- Sorting methods settles in the first pass. -/
theorem endsAfter_sortMethods : sortMethods.EndsAfter 1 settings journal p := by
  refine endsAfter_one rfl rfl ?_ (lowers_classes (lowers_sorting sortMethods_sortMethods)) ?_
    _ _ _
  · exact sober_pass sober_sorting Hook.sober_idle Hook.sober_idle (fun _ => Hook.sober_idle)
      Hook.sober_idle Hook.sober_idle
  · exact fun p c _ hone => absurd hone Nat.one_ne_zero

/-- Widening access settles in the first pass. -/
theorem endsAfter_visibility : visibility.EndsAfter 1 settings journal p := by
  refine endsAfter_one rfl rfl ?_ (lowers_declarations
    (lowers_widening (fun _ _ => rfl) Access.widenClass_widenClass)
    (lowers_widening (fun _ _ => rfl) Access.widenMember_widenMember)
    (lowers_widening (fun _ _ => rfl) Access.widenMember_widenMember) ?_ ?_ ?_) ?_ _ _ _
  · exact sober_pass sober_widening sober_widening sober_widening (fun _ => Hook.sober_idle)
      Hook.sober_idle Hook.sober_idle
  · intro a c
    unfold widening
    dsimp only
    split <;> exact ⟨rfl, rfl⟩
  · exact fun _ _ _ h => h
  · exact fun _ _ _ h => h
  · exact fun p c _ => ⟨⟨nofun, fun _ _ => nofun⟩, fun _ _ => nofun⟩

/-- Removing annotations settles in the first pass. -/
theorem endsAfter_annotationRemover : annotationRemover.EndsAfter 1 settings journal p := by
  refine endsAfter_one rfl rfl ?_ (lowers_declarations (lowers_clearing fun _ _ => rfl)
    (lowers_clearing fun _ _ => rfl) (lowers_clearing fun _ _ => rfl) ?_ ?_ ?_) ?_ _ _ _
  · exact sober_pass sober_clearing sober_clearing sober_clearing (fun _ => Hook.sober_idle)
      Hook.sober_idle Hook.sober_idle
  · intro a c
    unfold clearing
    split <;> exact ⟨rfl, rfl⟩
  · exact fun _ _ _ h => h
  · exact fun _ _ _ h => h
  · exact fun p c _ => ⟨⟨nofun, fun _ _ => nofun⟩, fun _ _ => nofun⟩

end

end Stage

end Unscramble
