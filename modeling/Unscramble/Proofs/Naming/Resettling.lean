import Unscramble.Proofs.Naming.Finding

/-! # References to members that move

When members move to other classes, the references in their families are rewritten to the places
where the members are found now. If no other declaration is in the family of a member that moves,
the references to one declaration stay together and those to different ones stay apart. If besides
nothing that moves gets in front of what a reference finds, every reference finds the new place of
what it found before.

Main definitions: `Renaming.ofFamilies`, `Resettlement`. Main statements:
`Resettlement.onMember_inj`, `Resettlement.found?_onMember`. -/

namespace Unscramble.Naming

/-! ### New references for families -/

namespace Renaming

/-- The renaming that gives all references in the family of a member the reference paired with it.
-/
def ofFamilies (families : Families) (pairs : List (Member × Member)) : Renaming :=
  pairs.foldl (fun r x => (families.linked x.1).foldl (fun r old => r.mapMember old x.2) r) {}

/-- Mapping members to a reference leaves the classes. -/
theorem classes_foldl_mapMember (olds : List Member) (new : Member) (r : Renaming) :
    (olds.foldl (fun r old => r.mapMember old new) r).classes = r.classes := by
  induction olds generalizing r with
  | nil => rfl
  | cons old olds ih => exact ih _

/-- References that are given one new reference. -/
theorem getElem?_foldl_mapMember (olds : List Member) (new : Member) (r : Renaming) (m : Member) :
    (olds.foldl (fun r old => r.mapMember old new) r).members[m]? =
      if m ∈ olds then some new else r.members[m]? := by
  induction olds generalizing r with
  | nil => simp
  | cons old olds ih =>
    rw [List.foldl_cons, ih, mapMember]
    dsimp only
    rw [Std.HashMap.getElem?_insert]
    by_cases hm : m ∈ olds
    · rw [if_pos hm, if_pos (List.mem_cons_of_mem _ hm)]
    · by_cases hold : old = m
      · rw [if_neg hm, if_pos (beq_iff_eq.2 hold), if_pos (hold ▸ List.mem_cons_self)]
      · rw [if_neg hm, if_neg (by simpa using hold), if_neg (by simp [hm, Ne.symm hold])]

variable {families : Families}

/-- Renaming families renames no class. -/
theorem classes_ofFamilies (pairs : List (Member × Member)) :
    (ofFamilies families pairs).classes = ∅ := by
  rw [ofFamilies]
  suffices h : ∀ r : Renaming, (pairs.foldl (fun r x =>
      (families.linked x.1).foldl (fun r old => r.mapMember old x.2) r) r).classes = r.classes from
    h {}
  intro r
  induction pairs generalizing r with
  | nil => rfl
  | cons x pairs ih =>
    rw [List.foldl_cons, ih]
    exact classes_foldl_mapMember _ _ _

/-- The last pair with the family of a reference gives the new reference. -/
theorem getElem?_ofFamilies (pairs : List (Member × Member)) (m : Member) :
    (ofFamilies families pairs).members[m]? =
      (pairs.reverse.find? fun x => decide (m ∈ families.linked x.1)).map (·.2) := by
  rw [ofFamilies]
  suffices h : ∀ r : Renaming, (pairs.foldl (fun r x =>
      (families.linked x.1).foldl (fun r old => r.mapMember old x.2) r) r).members[m]? =
        ((pairs.reverse.find? fun x => decide (m ∈ families.linked x.1)).map (·.2)).or
          r.members[m]? by
    rw [h {}]
    simp
  intro r
  induction pairs generalizing r with
  | nil => simp
  | cons x pairs ih =>
    rw [List.foldl_cons, ih, getElem?_foldl_mapMember, List.reverse_cons, List.find?_append]
    cases pairs.reverse.find? fun x => decide (m ∈ families.linked x.1) with
    | some y => rfl
    | none =>
      by_cases hm : m ∈ families.linked x.1
      · simp [hm]
      · simp [hm]

/-- References to members that are given new ones change, and no class changes its name. -/
theorem onMember_ofFamilies (pairs : List (Member × Member)) (m : Member) :
    (ofFamilies families pairs).onMember m =
      ((pairs.reverse.find? fun x => decide (m ∈ families.linked x.1)).map (·.2)).getD m := by
  rw [onMember, getElem?_ofFamilies]
  cases pairs.reverse.find? fun x => decide (m ∈ families.linked x.1) with
  | some x => rfl
  | none =>
    rw [Option.map_none, Option.getD_none]
    dsimp only
    rw [onClassName, onDescriptor, classes_ofFamilies,
      Descriptor.mapClasses_eq_self (by simp)]
    simp

/-- A renaming that changes no name changes no instruction. -/
theorem onInstruction_eq_self {L : Type} {r : Renaming} (hclasses : r.classes = ∅)
    (hmembers : ∀ m, r.onMember m = m) (i : Instruction L) : r.onInstruction i = i := by
  have hdescriptor : ∀ d, r.onDescriptor d = d := fun d => by
    rw [onDescriptor, Descriptor.mapClasses_eq_self (by simp [hclasses])]
  have hoperand : ∀ s, r.onOperand s = s := fun s => by
    rw [onOperand, Descriptor.mapClassOperand, Descriptor.mapClasses_eq_self (by simp [hclasses])]
    simp [hclasses]
  cases i with
  | push c => cases c <;> simp [onInstruction, onConstant, hoperand, hdescriptor, hmembers]
  | _ => simp [onInstruction, hoperand, hdescriptor, hmembers]

/-- Renaming families leaves the names of classes. -/
theorem onClassName_ofFamilies (pairs : List (Member × Member)) (n : String) :
    (ofFamilies families pairs).onClassName n = n := by
  rw [onClassName, classes_ofFamilies]
  simp

end Renaming

/-! ### Members with new references -/

/-- New references for some members of a codebase that keep the members apart. -/
structure Resettlement (p : Codebase) (pairs : List (Member × Member)) : Prop where
  /-- A member gets one new reference. -/
  nodup : (pairs.map (·.1)).Nodup
  /-- Different members get different references. -/
  apart : (pairs.map (·.2)).Nodup
  /-- The members are declared. -/
  declared : ∀ x ∈ pairs, ∃ b, (x.1, b) ∈ p.declarations
  /-- The new references name nothing that is declared. -/
  fresh : ∀ x ∈ pairs, ∀ b, (x.2, b) ∉ p.declarations
  /-- Types stay. -/
  descriptor : ∀ x ∈ pairs, x.2.descriptor = x.1.descriptor
  /-- No member is a constructor. -/
  named : ∀ x ∈ pairs, ¬(x.1.name = "<init>" ∧ isMethod x.1 = true)
  /-- No other declaration is in the family of a member. -/
  alone : ∀ x ∈ pairs, ∀ d ∈ p.declarations,
    (Families.ofCodebase p).family? d.1 = (Families.ofCodebase p).family? x.1 → d.1 = x.1

namespace Resettlement

variable {p p' : Codebase} {pairs : List (Member × Member)} {x : Member × Member}
  {m D : Member} {d : Member × Bool}

/-- The family of a member with a new reference. -/
theorem isSome_family? (h : Resettlement p pairs) (hx : x ∈ pairs) :
    ∃ φ, (Families.ofCodebase p).family? x.1 = some φ := by
  obtain ⟨b, hb⟩ := h.declared x hx
  obtain ⟨c, hc, hmem⟩ := List.mem_flatMap.1 hb
  exact Option.isSome_iff_exists.1
    (Families.isSome_family?_of_declared hc (mem_declared_of_members hmem))

/-- What is linked with a reference that is renamed is of its family. -/
theorem mem_linked_iff (h : Resettlement p pairs) (hx : x ∈ pairs) :
    m ∈ (Families.ofCodebase p).linked x.1 ↔
      (Families.ofCodebase p).family? m = (Families.ofCodebase p).family? x.1 := by
  obtain ⟨φ, hφ⟩ := h.isSome_family? hx
  rw [hφ]
  exact Families.mem_linked_iff hφ

/-- Pairs of one family are one pair. -/
theorem eq_of_family (h : Resettlement p pairs) {y : Member × Member} (hx : x ∈ pairs)
    (hy : y ∈ pairs)
    (hfamily : (Families.ofCodebase p).family? y.1 = (Families.ofCodebase p).family? x.1) :
    y = x := by
  obtain ⟨b, hb⟩ := h.declared y hy
  exact List.inj_on_of_nodup_map h.nodup hy hx (h.alone x hx _ hb hfamily)

/-- All references in the family of a member become the one paired with it. -/
theorem onMember_of_family (h : Resettlement p pairs) (hx : x ∈ pairs)
    (hfamily : (Families.ofCodebase p).family? m = (Families.ofCodebase p).family? x.1) :
    (Renaming.ofFamilies (Families.ofCodebase p) pairs).onMember m = x.2 := by
  rw [Renaming.onMember_ofFamilies]
  have hsome : (pairs.reverse.find? fun x =>
      decide (m ∈ (Families.ofCodebase p).linked x.1)).isSome = true :=
    List.find?_isSome.2 ⟨x, List.mem_reverse.2 hx,
      decide_eq_true ((h.mem_linked_iff hx).2 hfamily)⟩
  obtain ⟨y, hy⟩ := Option.isSome_iff_exists.1 hsome
  have hypairs := List.mem_reverse.1 (List.mem_of_find?_eq_some hy)
  have hyfamily := (h.mem_linked_iff hypairs).1 (by simpa using List.find?_some hy)
  rw [hy, h.eq_of_family hx hypairs (hyfamily.symm.trans hfamily)]
  rfl

/-- A reference that is renamed has its new reference. -/
theorem onMember_key (h : Resettlement p pairs) (hx : x ∈ pairs) :
    (Renaming.ofFamilies (Families.ofCodebase p) pairs).onMember x.1 = x.2 :=
  h.onMember_of_family hx rfl

/-- References in other families stay. -/
theorem onMember_of_not_family (h : Resettlement p pairs) (hm : ∀ x ∈ pairs,
    (Families.ofCodebase p).family? m ≠ (Families.ofCodebase p).family? x.1) :
    (Renaming.ofFamilies (Families.ofCodebase p) pairs).onMember m = m := by
  rw [Renaming.onMember_ofFamilies]
  have hnone : (pairs.reverse.find? fun x =>
      decide (m ∈ (Families.ofCodebase p).linked x.1)) = none := by
    rw [List.find?_eq_none]
    intro x hx hlinked
    have hx := List.mem_reverse.1 hx
    exact hm x hx ((h.mem_linked_iff hx).1 (of_decide_eq_true hlinked))
  rw [hnone]
  rfl

/-- A declaration without a new reference keeps its own. -/
theorem onMember_of_not_mem (h : Resettlement p pairs) (hd : d ∈ p.declarations)
    (hkey : d.1 ∉ pairs.map (·.1)) :
    (Renaming.ofFamilies (Families.ofCodebase p) pairs).onMember d.1 = d.1 :=
  h.onMember_of_not_family fun x hx hfamily =>
    hkey (h.alone x hx d hd hfamily ▸ List.mem_map_of_mem hx)

/-- A declaration is named by its own reference or by the one paired with it. -/
theorem onMember_cases (h : Resettlement p pairs) (hd : d ∈ p.declarations) :
    (∃ x ∈ pairs, x.1 = d.1 ∧
      (Renaming.ofFamilies (Families.ofCodebase p) pairs).onMember d.1 = x.2) ∨
    (d.1 ∉ pairs.map (·.1) ∧
      (Renaming.ofFamilies (Families.ofCodebase p) pairs).onMember d.1 = d.1) := by
  by_cases hkey : d.1 ∈ pairs.map (·.1)
  · obtain ⟨x, hx, hxd⟩ := List.mem_map.1 hkey
    exact .inl ⟨x, hx, hxd, hxd ▸ h.onMember_key hx⟩
  · exact .inr ⟨hkey, h.onMember_of_not_mem hd hkey⟩

/-- Types stay, also those of references. -/
theorem descriptor_onMember (h : Resettlement p pairs) (m : Member) :
    ((Renaming.ofFamilies (Families.ofCodebase p) pairs).onMember m).descriptor = m.descriptor := by
  by_cases hm : ∃ x ∈ pairs,
      (Families.ofCodebase p).family? m = (Families.ofCodebase p).family? x.1
  · obtain ⟨x, hx, hfamily⟩ := hm
    obtain ⟨φ, hφ⟩ := h.isSome_family? hx
    rw [h.onMember_of_family hx hfamily, h.descriptor x hx]
    exact (Families.eq_of_family?_eq hφ (hfamily.trans hφ)).2
  · rw [h.onMember_of_not_family fun x hx hfamily => hm ⟨x, hx, hfamily⟩]

/-- Different declarations are named by different references. -/
theorem onMember_inj (h : Resettlement p pairs) {d' : Member × Bool} (hd : d ∈ p.declarations)
    (hd' : d' ∈ p.declarations)
    (heq : (Renaming.ofFamilies (Families.ofCodebase p) pairs).onMember d.1 =
      (Renaming.ofFamilies (Families.ofCodebase p) pairs).onMember d'.1) : d.1 = d'.1 := by
  rcases h.onMember_cases hd with ⟨x, hx, hxd, hnew⟩ | ⟨-, hnew⟩ <;>
    rcases h.onMember_cases hd' with ⟨y, hy, hyd', hnew'⟩ | ⟨-, hnew'⟩ <;>
      rw [hnew, hnew'] at heq
  · rw [← hxd, ← hyd', List.inj_on_of_nodup_map h.apart hx hy heq]
  · exact absurd (heq ▸ hd') (h.fresh x hx d'.2)
  · exact absurd (heq ▸ hd) (h.fresh y hy d.2)
  · exact heq

/-! ### What references find -/

/-- Every reference finds the declaration that it found before by the reference that the declaration
has now. The new codebase declares what the old one did under these references and shows what it
showed, and nothing that moves or is opened gets in front of a declaration that stays. -/
theorem found?_onMember (h : Resettlement p pairs) (hp : p.Sound) (hp' : p'.Sound)
    (hextends : Hierarchy.Extends p p') {kind : Bool} (opened : Member → Prop)
    (hkept : ∀ d ∈ p.declarations, isMethod d.1 = kind → ∃ b,
      ((Renaming.ofFamilies (Families.ofCodebase p) pairs).onMember d.1, b) ∈ p'.declarations ∧
        (b = true → d.2 = true))
    (horigin : ∀ d' ∈ p'.declarations, isMethod d'.1 = kind → ∃ d ∈ p.declarations,
      (Renaming.ofFamilies (Families.ofCodebase p) pairs).onMember d.1 = d'.1 ∧
        (d'.2 = d.2 ∨ opened d.1))
    (hclear : ∀ m D n, isMethod m = kind → p.found? m = some D → D ∉ pairs.map (·.1) →
      n ∈ (Hierarchy.ofCodebase p).ancestors m.owner → ∀ d ∈ p.declarations,
        (d.1 ∈ pairs.map (·.1) ∨ opened d.1) →
        (Renaming.ofFamilies (Families.ofCodebase p) pairs).onMember d.1 = m.withOwner n →
        d.1 = D)
    (hm : isMethod m = kind) (hD : p.found? m = some D) :
    p'.found? ((Renaming.ofFamilies (Families.ofCodebase p) pairs).onMember m) =
      some ((Renaming.ofFamilies (Families.ofCodebase p) pairs).onMember D) := by
  obtain ⟨hancestor, hDm, b, hd, hvisible⟩ := hp.declared_of_found hD
  have hDkind : isMethod D = kind := by
    rw [← hm, hDm]
    rfl
  obtain ⟨b', hnew, hb'⟩ := hkept _ hd hDkind
  rcases h.onMember_cases hd with ⟨x, hx, rfl, hxD⟩ | ⟨hkey, hstay⟩
  · -- what moves is found by its own reference, which all of its family become
    have hfamily := (hp.family?_of_found hD (h.named x hx)).2
    rw [h.onMember_of_family hx hfamily.symm, ← hxD]
    exact hp'.found_own hnew
  · -- what stays is found where it was
    have hmstay : (Renaming.ofFamilies (Families.ofCodebase p) pairs).onMember m = m := by
      refine h.onMember_of_not_family fun x hx hfamily => ?_
      obtain ⟨φ, hφ⟩ := h.isSome_family? hx
      obtain ⟨hname, hdescriptor⟩ := Families.eq_of_family?_eq hφ (hfamily.trans hφ)
      have hinit : ¬(D.name = "<init>" ∧ isMethod D = true) := by
        rw [hDm]
        exact fun hinit => h.named x hx
          ⟨hname.trans hinit.1, (isMethod_eq hdescriptor).trans hinit.2⟩
      have hDfamily := (hp.family?_of_found hD hinit).2
      exact hkey (h.alone x hx _ hd (hDfamily.trans hfamily) ▸ List.mem_map_of_mem hx)
    obtain ⟨heir, hheir, hname⟩ := hp.exists_heir hancestor
    obtain ⟨front, n, back, heq, hshows, hfront, hDn⟩ := hp.found?_eq_some_iff.1 hD
    rw [hmstay, hstay]
    rw [hstay] at hnew
    refine hp'.found?_eq_some_iff.2 ⟨front, n, back, ?_, ?_, ?_, hDn⟩
    · rw [hextends.ancestors hp.distinct ⟨heir, hheir, hname⟩, heq]
    · refine Codebase.Sound.shows_eq_true_iff.2 ⟨b', hDn ▸ hnew, ?_⟩
      have hn : D.owner = n := by
        rw [hDn]
        rfl
      exact hvisible.imp (fun hown => hn.symm.trans hown) fun hb =>
        Bool.eq_false_iff.2 fun htrue => Bool.eq_false_iff.1 hb (hb' htrue)
    · intro n' hn'
      refine Bool.eq_false_iff.2 fun hshows' => ?_
      obtain ⟨b₂, hd₂, hvisible₂⟩ := Codebase.Sound.shows_eq_true_iff.1 hshows'
      obtain ⟨d₀, hd₀, hnew₀, hb₂⟩ := horigin _ hd₂ hm
      have hancestor' : n' ∈ (Hierarchy.ofCodebase p).ancestors m.owner :=
        heq ▸ List.mem_append_left _ hn'
      by_cases hmoves : d₀.1 ∈ pairs.map (·.1) ∨ opened d₀.1
      · have hd₀D := hclear m D n' hm hD hkey hancestor' d₀ hd₀ hmoves hnew₀
        rw [hd₀D, hstay, hDn] at hnew₀
        have hn : n = n' := congrArg Member.owner hnew₀
        exact Bool.eq_false_iff.1 (hfront n' hn') (hn ▸ hshows)
      · rw [not_or] at hmoves
        have hsame : d₀.1 = m.withOwner n' := (h.onMember_of_not_mem hd₀ hmoves.1).symm.trans hnew₀
        refine Bool.eq_false_iff.1 (hfront n' hn')
          (Codebase.Sound.shows_eq_true_iff.2 ⟨d₀.2, hsame ▸ hd₀, ?_⟩)
        exact hvisible₂.imp id fun hb => (hb₂.resolve_right hmoves.2).symm.trans hb

end Resettlement

end Unscramble.Naming
