import Unscramble.Proofs.Tidy.StaticFields
import Unscramble.Proofs.Tidy.UnusedFields

/-! # Static fields come to rest

A static field outside the holder stays where it is if an initializer accesses its family. Removing
unused fields and moving fields leave the families that initializers access as they are, so what stays
in one pass stays in every later one: a single pass brings all static fields of a sound codebase to
rest. Without soundness each pass that moves something still brings a member into the holder.

Main definitions: `IsPinned`, `scattered`. Main statements: `Families.family?_eq_of_links`,
`movingFields_removeUnusedFields`, `removeUnusedFields_again`, `movingFields_moveStaticFields`,
`scattered_moveStaticFields`. -/

namespace Unscramble

open Naming

variable {p q : Codebase} {holder : String} {m m' : Member} {n : Nat}

/-! ### Families that keep their links -/

namespace Naming.Families

/-- A class inherits what the class of an ancestor's name has to inherit. -/
theorem mem_links_iff_class? {link : Member × Member} : link ∈ links p ↔
    ∃ heir ∈ p.classes, ∃ o ∈ (Hierarchy.ofCodebase p).ancestors heir.name, ∃ d,
      p.class? o = some d ∧ d.name ≠ heir.name ∧ link.1 ∈ inheritable d ∧
        link.2 = link.1.withOwner heir.name := by
  rw [links, List.mem_flatMap]
  refine exists_congr fun heir => and_congr_right fun _ => ?_
  rw [inherited, List.mem_flatMap]
  refine exists_congr fun o => and_congr_right fun _ => ?_
  rw [Hierarchy.class?_ofCodebase]
  cases p.class? o with
  | none => simp
  | some d =>
    simp only [Option.some.injEq, exists_eq_left', beq_iff_eq]
    split
    · next hname => simp [hname]
    · next hname =>
      obtain ⟨a, b⟩ := link
      simp only [List.mem_map, Prod.mk.injEq, ne_eq, hname, not_false_eq_true, true_and]
      constructor
      · rintro ⟨_, hmem, rfl, rfl⟩
        exact ⟨hmem, rfl⟩
      · rintro ⟨hmem, rfl⟩
        exact ⟨a, hmem, rfl, rfl⟩

/-- References of a family stay in one family where the links of the family are kept. -/
theorem family?_eq_of_links {φ : Nat}
    (hlinks : ∀ link ∈ links p, (ofCodebase p).family? link.1 = some φ → link ∈ links q)
    (h : (ofCodebase p).family? m = some φ) (h' : (ofCodebase p).family? m' = some φ) :
    (ofCodebase q).family? m = (ofCodebase q).family? m' := by
  -- Links outside the family do not matter, so their references are told to be of no family.
  have hcommon : ∀ link ∈ links p,
      (if (ofCodebase p).family? link.1 = some φ then (ofCodebase q).family? link.1 else none) =
        if (ofCodebase p).family? link.2 = some φ then (ofCodebase q).family? link.2 else none := by
    intro link hlink
    rw [← (family?_eq_of_link hlink).2]
    split
    · next hφ => exact (family?_eq_of_link (hlinks link hlink hφ)).2
    · rfl
  have hsame := common_of_family?_eq
    (fun m => if (ofCodebase p).family? m = some φ then (ofCodebase q).family? m else none)
    hcommon h h'
  rwa [if_pos h, if_pos h'] at hsame

end Naming.Families

namespace Tidy

/-! ### What keeps a field from moving -/

/-- An initializer accesses the family of a reference. -/
def IsPinned (p : Codebase) (m : Member) : Prop :=
  ∃ φ, (Families.ofCodebase p).family? m = some φ ∧
    ∃ m' ∈ fieldReferences (p.methods.filter Method.isInitializer),
      (Families.ofCodebase p).family? m' = some φ

/-- The fields that move are the static ones of other classes that no initializer accesses. -/
theorem mem_movingFields_iff {x : Class × Field} : x ∈ movingFields holder p ↔
    x.1 ∈ p.classes ∧ x.2 ∈ x.1.fields ∧ x.1.name ≠ holder ∧ x.1.isInterface = false ∧
      x.2.isStatic = true ∧ ¬IsPinned p x.2.key := by
  have hpinned : ∀ m, belongsTo (Families.ofCodebase p) (familiesOf (Families.ofCodebase p)
      (fieldReferences (p.methods.filter Method.isInitializer))) m = true ↔ IsPinned p m := by
    intro m
    rw [belongsTo, Option.any_eq_true, IsPinned]
    simp only [Std.HashSet.contains_iff_mem, mem_familiesOf_iff]
  obtain ⟨c, f⟩ := x
  rw [movingFields, List.mem_flatMap]
  constructor
  · rintro ⟨d, hd, hx⟩
    split at hx
    · cases hx
    · next hother =>
      obtain ⟨g, hg, heq⟩ := List.mem_map.1 hx
      cases heq
      obtain ⟨hg, htest⟩ := List.mem_filter.1 hg
      rw [Bool.and_eq_true, Bool.not_eq_true', Bool.eq_false_iff, ne_eq, hpinned] at htest
      rw [Bool.or_eq_true, not_or, beq_iff_eq, Bool.not_eq_true] at hother
      exact ⟨hd, hg, hother.1, hother.2, htest⟩
  · rintro ⟨hc, hf, hname, hclass, htest⟩
    refine ⟨c, hc, ?_⟩
    rw [if_neg (by simp [hname, hclass])]
    refine List.mem_map_of_mem (List.mem_filter.2 ⟨hf, ?_⟩)
    rw [Bool.and_eq_true, Bool.not_eq_true', Bool.eq_false_iff, ne_eq, hpinned]
    exact htest

/-- What an initializer accesses is accessed. -/
theorem IsPinned.accessed (h : IsPinned p m) : Accessed p m := by
  obtain ⟨φ, hm, m', hm', hφ⟩ := h
  refine ⟨m', ?_, hφ.trans hm.symm⟩
  obtain ⟨b, hb, hm'⟩ := List.mem_flatMap.1 hm'
  obtain ⟨d, hd, hb⟩ := List.mem_filterMap.1 hb
  exact List.mem_flatMap.2 ⟨b, List.mem_filterMap.2 ⟨d, List.mem_of_mem_filter hd, hb⟩, hm'⟩

/-- An initializer still accesses a family that has kept its links, if its access is kept. -/
theorem isPinned_of_links (h : IsPinned p m)
    (hlinks : ∀ link ∈ Families.links p, IsPinned p link.1 → isMethod link.1 = isMethod m →
      link ∈ Families.links q)
    (haccess : ∀ m' ∈ fieldReferences (p.methods.filter Method.isInitializer), IsPinned p m' →
      m' ∈ fieldReferences (q.methods.filter Method.isInitializer))
    (hdeclared : ∃ c ∈ q.classes, m ∈ declared c) : IsPinned q m := by
  obtain ⟨φ, hm, m', hm', hφ⟩ := h
  obtain ⟨c, hc, hmem⟩ := hdeclared
  obtain ⟨ψ, hψ⟩ := Option.isSome_iff_exists.1 (Families.isSome_family?_of_declared hc hmem)
  refine ⟨ψ, hψ, m', haccess m' hm' ⟨φ, hφ, m', hm', hφ⟩, ?_⟩
  rw [← hψ]
  refine Families.family?_eq_of_links (fun link hlink hfamily => ?_) hφ hm
  exact hlinks link hlink ⟨φ, hfamily, m', hm', hφ⟩
    (isMethod_eq (Families.eq_of_family?_eq hfamily hm).2)

/-! ### Removing unused fields -/

/-- Removing unused fields leaves the methods. -/
theorem methods_removeUnusedFields (p : Codebase) : (removeUnusedFields p).2.methods = p.methods := by
  rw [removeUnusedFields_eq, Codebase.methods, List.flatMap_map]
  rfl

/-- The links of the families that are accessed are kept. -/
theorem mem_links_removeUnusedFields {link : Member × Member} (hlink : link ∈ Families.links p)
    (h : Accessed p link.1) : link ∈ Families.links (removeUnusedFields p).2 := by
  obtain ⟨heir, hheir, o, ho, d, hd, hne, hmem, hheirs⟩ := Families.mem_links_iff_class?.1 hlink
  have hancestors : (Hierarchy.ofCodebase (removeUnusedFields p).2).ancestors =
      (Hierarchy.ofCodebase p).ancestors := by
    refine Hierarchy.ancestors_congr ?_
    rw [removeUnusedFields_eq, List.map_map]
    rfl
  have hleft : (removeUnusedFields p).2.class? o = some (withoutUnused p d) := by
    rw [class?_removeUnusedFields, hd]
    rfl
  refine Families.mem_links_iff_class?.2 ⟨withoutUnused p heir, List.mem_map_of_mem hheir, o,
    hancestors ▸ ho, withoutUnused p d, hleft, hne, ?_, hheirs⟩
  rcases List.mem_append.1 hmem with hmem | hmem
  · obtain ⟨f, hf, hkey⟩ := List.mem_map.1 hmem
    obtain ⟨hf, hshown⟩ := List.mem_filter.1 hf
    have hused := (isUsed_iff (Codebase.class?_spec hd).1 hf).2 (hkey ▸ h)
    exact List.mem_append_left _ (List.mem_map.2
      ⟨f, List.mem_filter.2 ⟨List.mem_filter.2 ⟨hf, hused⟩, hshown⟩, hkey⟩)
  · exact List.mem_append_right _ hmem

/-- If all fields are accessed, none is removed. -/
theorem removeUnusedFields_eq_self (h : ∀ c ∈ p.classes, ∀ f ∈ c.fields, Accessed p f.key) :
    removeUnusedFields p = (0, p) := by
  have hclasses : p.classes.map (withoutUnused p) = p.classes := by
    refine (List.map_congr_left fun c hc => ?_).trans (List.map_id' _)
    rw [withoutUnused, List.filter_eq_self.2 fun f hf => (isUsed_iff hc hf).2 (h c hc f hf)]
  have hleft : (removeUnusedFields p).2 = p := by
    rw [removeUnusedFields_eq, hclasses]
  have hcount : (removeUnusedFields p).1 =
      p.fields.length - (removeUnusedFields p).2.fields.length := rfl
  rw [hleft, Nat.sub_self] at hcount
  exact Prod.ext hcount hleft

/-- **A second removal finds nothing to remove.** -/
theorem removeUnusedFields_again (p : Codebase) :
    removeUnusedFields (removeUnusedFields p).2 = (0, (removeUnusedFields p).2) := by
  refine removeUnusedFields_eq_self fun c' hc' f hf => ?_
  obtain ⟨c, hc, rfl⟩ := List.mem_map.1 hc'
  obtain ⟨hmem, m, hm, hfamily⟩ := (mem_fields_withoutUnused_iff hc).1 hf
  have hdeclared : f.key ∈ declared c := List.mem_append_left _ (List.mem_map_of_mem hmem)
  obtain ⟨φ, hφ⟩ := Option.isSome_iff_exists.1 (Families.isSome_family?_of_declared hc hdeclared)
  refine ⟨m, methods_removeUnusedFields p ▸ hm, ?_⟩
  refine Families.family?_eq_of_links (fun link hlink hlinkφ => ?_) (hfamily.trans hφ) hφ
  exact mem_links_removeUnusedFields hlink ⟨m, hm, (hfamily.trans hφ).trans hlinkφ.symm⟩

/-- If no field is to move, none is to move after a removal. -/
theorem movingFields_removeUnusedFields (h : movingFields holder p = []) :
    movingFields holder (removeUnusedFields p).2 = [] := by
  rw [List.eq_nil_iff_forall_not_mem]
  rintro ⟨c', f⟩ hx
  obtain ⟨hc', hf, hname, hclass, hstatic, hfree⟩ := mem_movingFields_iff.1 hx
  obtain ⟨c, hc, rfl⟩ := List.mem_map.1 hc'
  have hmem := ((mem_fields_withoutUnused_iff hc).1 hf).1
  have hpinned : IsPinned p f.key := by
    by_contra hpinned
    have hmoves : (c, f) ∈ movingFields holder p :=
      mem_movingFields_iff.2 ⟨hc, hmem, hname, hclass, hstatic, hpinned⟩
    rw [h] at hmoves
    cases hmoves
  refine hfree (isPinned_of_links hpinned
    (fun link hlink hlinked _ => mem_links_removeUnusedFields hlink hlinked.accessed) ?_
    ⟨_, hc', List.mem_append_left _ (List.mem_map_of_mem hf)⟩)
  exact fun m' hm' _ => methods_removeUnusedFields p ▸ hm'

/-- A sound codebase stays so without its unused fields. -/
theorem sound_removeUnusedFields (hp : p.Sound) : (removeUnusedFields p).2.Sound where
  distinct := by
    rw [removeUnusedFields_eq, List.map_map]
    exact hp.distinct
  owners c' hc' m hm := by
    obtain ⟨c, hc, rfl⟩ := List.mem_map.1 hc'
    refine hp.owners c hc m ?_
    rcases List.mem_append.1 hm with hm | hm
    · exact List.mem_append_left _ ((List.filter_sublist.map _).subset hm)
    · exact List.mem_append_right _ hm
  kinds c' hc' := by
    obtain ⟨c, hc, rfl⟩ := List.mem_map.1 hc'
    exact ⟨fun f hf => (hp.kinds c hc).1 f (List.mem_of_mem_filter hf), (hp.kinds c hc).2⟩

/-- The fields that are left of a class still differ. -/
theorem distinct_removeUnusedFields
    (h : ∀ c ∈ p.classes, (c.fields.map fun f => (f.name, f.descriptor)).Nodup) :
    ∀ c ∈ (removeUnusedFields p).2.classes, (c.fields.map fun f => (f.name, f.descriptor)).Nodup := by
  intro c' hc'
  obtain ⟨c, hc, rfl⟩ := List.mem_map.1 hc'
  exact (h c hc).sublist (List.filter_sublist.map _)

/-! ### Moving static fields -/

/-- The class that a field is in once the fields that move have moved. -/
def fieldHome (holder : String) (p : Codebase) (m : Member) : String :=
  if m ∈ (movingFields holder p).map (fun x => x.2.key) then holder else m.owner

/-- The fields that move do move, and all others stay. -/
theorem exists_settled_movingFields (holder : String) (hp : p.Sound)
    (hkeys : (p.fields.map Field.key).Nodup) : ∃ q,
      relocate (ensureHolder holder p) ((movingFields holder p).map fun x => (x.2.key, holder)) =
        ([], .ok ((movingFields holder p).length, q)) ∧
      Part.ofFields.Settled (fieldHome holder p) (ensureHolder holder p) q := by
  have hall : Part.ofFields.all (ensureHolder holder p) = p.fields := fields_ensureHolder holder p
  have hmoves : ((movingFields holder p).map fun x => (x.2, holder)).map
      (fun x => Part.ofFields.key x.1) = (movingFields holder p).map fun x => x.2.key := by
    rw [List.map_map]
    rfl
  have hhome : ∀ x ∈ (movingFields holder p).map (fun x => (x.2, holder)),
      fieldHome holder p (Part.ofFields.key x.1) = x.2 := by
    intro x hx
    obtain ⟨y, hy, rfl⟩ := List.mem_map.1 hx
    exact if_pos (List.mem_map_of_mem (f := fun x : Class × Field => x.2.key) hy)
  obtain ⟨q, hq, hsettled⟩ := Part.relocate_settles (sound_ensureHolder hp holder) (hall ▸ hkeys)
    (movable_movingFields hp hkeys) (fieldHome holder p) hhome
    fun f _ hf => if_neg (hmoves ▸ hf)
  rw [List.map_map, List.length_map] at hq
  exact ⟨q, hq, hsettled⟩

/-- The codebase that moving static fields makes, if some move. -/
theorem exists_gathered (hp : p.Sound) (hkeys : (p.fields.map Field.key).Nodup)
    (hne : movingFields holder p ≠ []) : ∃ q pairs,
      Part.ofFields.Settled (fieldHome holder p) (ensureHolder holder p) q ∧
      List.Forall₂ (IsPlanned holder) (movingFields holder p) pairs ∧
      moveStaticFields holder p =
        { result := .ok (movingFields holder p).length
          codebase := (Renaming.ofFamilies (Families.ofCodebase p) pairs).apply
            (q.modifyClass holder publishFields) } := by
  obtain ⟨pairs, hmoves, hnames, hplanned, -⟩ := fieldPlan_spec holder p
  obtain ⟨q, hq, hsettled⟩ := exists_settled_movingFields holder hp hkeys
  have hkeys' : pairs.map (·.1) = (movingFields holder p).map fun x => x.2.key := by
    refine eq_map_of_forall₂ ?_
    rw [List.forall₂_map_right_iff]
    exact hplanned.imp fun _ _ hpair => hpair.1
  have hsame : (movingFields holder p).map (fun x => (x.2.key, holder)) =
      pairs.map fun x => (x.1, holder) := by
    have hwith := congrArg (List.map fun m => (m, holder)) hkeys'
    rw [List.map_map, List.map_map] at hwith
    exact hwith.symm
  have hpairs : pairs ≠ [] := by
    rintro rfl
    exact hne (List.forall₂_nil_right_iff.1 hplanned)
  rw [hsame] at hq
  exact ⟨q, pairs, hsettled, hplanned, moveStaticFields_eq hpairs hmoves hnames hq⟩

section

variable {pairs : List (Member × Member)}
  (hplanned : List.Forall₂ (IsPlanned holder) (movingFields holder p) pairs)

include hplanned

/-- A reference that gets a new one shares its family with a field that moves. -/
theorem exists_moving_of_onMember
    (h : (Renaming.ofFamilies (Families.ofCodebase p) pairs).onMember m ≠ m) :
    ∃ x ∈ movingFields holder p, ∃ φ, (Families.ofCodebase p).family? x.2.key = some φ ∧
      (Families.ofCodebase p).family? m = some φ := by
  rw [Renaming.onMember_ofFamilies] at h
  cases hfound : pairs.reverse.find? fun x => decide (m ∈ (Families.ofCodebase p).linked x.1) with
  | none =>
    rw [hfound] at h
    exact absurd rfl h
  | some pair =>
    have hlinked : m ∈ (Families.ofCodebase p).linked pair.1 := by
      simpa using List.find?_some hfound
    obtain ⟨x, hx, hkey, -⟩ :=
      exists_of_mem_right hplanned (List.mem_reverse.1 (List.mem_of_find?_eq_some hfound))
    obtain ⟨hc, hf, -⟩ := mem_movingFields hx
    obtain ⟨φ, hφ⟩ := Option.isSome_iff_exists.1 (Families.isSome_family?_of_declared hc
      (List.mem_append_left _ (List.mem_map_of_mem hf) : x.2.key ∈ declared x.1))
    rw [hkey] at hlinked
    exact ⟨x, hx, φ, hφ, (Families.mem_linked_iff hφ).1 hlinked⟩

/-- References that an initializer accesses stay as they are. -/
theorem onMember_of_isPinned (h : IsPinned p m) :
    (Renaming.ofFamilies (Families.ofCodebase p) pairs).onMember m = m := by
  by_contra hchanged
  obtain ⟨x, hx, φ, hφ, hmφ⟩ := exists_moving_of_onMember hplanned hchanged
  obtain ⟨-, -, -, -, -, hfree⟩ := mem_movingFields_iff.1 hx
  obtain ⟨ψ, hψ, m', hm', hφ'⟩ := h
  rw [hψ] at hmφ
  cases hmφ
  exact hfree ⟨φ, hφ, m', hm', hφ'⟩

/-- References to methods stay as they are. -/
theorem onMember_of_isMethod (hp : p.Sound) (h : isMethod m = true) :
    (Renaming.ofFamilies (Families.ofCodebase p) pairs).onMember m = m := by
  by_contra hchanged
  obtain ⟨x, hx, φ, hφ, hmφ⟩ := exists_moving_of_onMember hplanned hchanged
  obtain ⟨hc, hf, -⟩ := mem_movingFields hx
  have hkind := (hp.kinds x.1 hc).1 x.2 hf
  rw [isMethod_eq (Families.eq_of_family?_eq hφ hmφ).2, h] at hkind
  cases hkind

end

/-- The codebase in which fields have moved, with public fields in the holder and new references. -/
def gathered (holder : String) (r : Renaming) (q : Codebase) : Codebase :=
  r.apply (q.modifyClass holder publishFields)

/-- A field that an initializer accesses keeps its reference. -/
theorem key_onField_of_isPinned {pairs : List (Member × Member)}
    (hplanned : List.Forall₂ (IsPlanned holder) (movingFields holder p) pairs) {f : Field}
    (h : IsPinned p f.key) :
    ((Renaming.ofFamilies (Families.ofCodebase p) pairs).onField f.owner f).key = f.key := by
  have hself := onMember_of_isPinned hplanned h
  exact congrArg (Member.withOwner · f.owner) hself

/-- What becomes of a class when fields move: it keeps its place among the others and the fields that
initializers access. -/
structure KeepsPinned (p : Codebase) (c c' : Class) : Prop where
  /-- It has its name. -/
  name : c'.name = c.name
  /-- It has its supertypes. -/
  supertypes : c'.supertypes = c.supertypes
  /-- Fields that initializers access are still there and as visible as before. -/
  fields : ∀ f ∈ c.fields, IsPinned p f.key →
    ∃ f' ∈ c'.fields, f'.key = f.key ∧ (f.isPrivate = false → f'.isPrivate = false)

/-- What inherits from what still does if every class is still there. -/
theorem exists_reflTransGen_supertype
    (h : ∀ c ∈ p.classes, ∃ c' ∈ q.classes, KeepsPinned p c c') {c d c' : Class}
    (hancestor : Relation.ReflTransGen (Supertype p) c d) (hc' : c' ∈ q.classes)
    (hkeeps : KeepsPinned p c c') :
    ∃ d' ∈ q.classes, KeepsPinned p d d' ∧ Relation.ReflTransGen (Supertype q) c' d' := by
  induction hancestor with
  | refl => exact ⟨c', hc', hkeeps, .refl⟩
  | tail _ hstep ih =>
    obtain ⟨d', hd', hd, hancestor'⟩ := ih
    obtain ⟨e', he', he⟩ := h _ hstep.1
    exact ⟨e', he', he, hancestor'.tail ⟨he', by rw [he.name, hd.supertypes]; exact hstep.2⟩⟩

/-- Families that initializers access keep the links between fields. -/
theorem mem_links_of_keepsPinned (hp : p.Sound) (hdistinct : (q.classes.map (·.name)).Nodup)
    (h : ∀ c ∈ p.classes, ∃ c' ∈ q.classes, KeepsPinned p c c') {link : Member × Member}
    (hlink : link ∈ Families.links p) (hpinned : IsPinned p link.1)
    (hfield : isMethod link.1 = false) : link ∈ Families.links q := by
  obtain ⟨heir, hheir, c, hancestor, hne, hmem, hheirs⟩ :=
    (Families.mem_links_iff hp.distinct).1 hlink
  obtain ⟨heir', hheir', hkeeps⟩ := h heir hheir
  obtain ⟨c', hc', hc, hancestor'⟩ := exists_reflTransGen_supertype h hancestor hheir' hkeeps
  refine (Families.mem_links_iff hdistinct).2 ⟨heir', hheir', c', hancestor', ?_, ?_, ?_⟩
  · rwa [hc.name, hkeeps.name]
  · rcases List.mem_append.1 hmem with hmem | hmem
    · obtain ⟨f, hf, hkey⟩ := List.mem_map.1 hmem
      obtain ⟨hf, hshown⟩ := List.mem_filter.1 hf
      obtain ⟨f', hf', hkey', hshown'⟩ := hc.fields f hf (hkey ▸ hpinned)
      refine List.mem_append_left _ (List.mem_map.2 ⟨f', List.mem_filter.2 ⟨hf', ?_⟩,
        hkey'.trans hkey⟩)
      simpa using hshown' (by simpa using hshown)
    · obtain ⟨d, hd, hkey⟩ := List.mem_map.1 hmem
      have hkind := (hp.kinds c (mem_classes_of_reflTransGen hancestor hheir)).2 d
        (List.mem_of_mem_filter hd)
      rw [hkey, hfield] at hkind
      cases hkind
  · rw [hkeeps.name]
    exact hheirs

section

variable {pairs : List (Member × Member)} (hp : p.Sound)
  (hplanned : List.Forall₂ (IsPlanned holder) (movingFields holder p) pairs)
  (hsettled : Part.ofFields.Settled (fieldHome holder p) (ensureHolder holder p) q)

/-- A field that an initializer accesses stays in its class. -/
theorem fieldHome_of_isPinned (h : IsPinned p m) : fieldHome holder p m = m.owner := by
  refine if_neg fun hmem => ?_
  obtain ⟨x, hx, rfl⟩ := List.mem_map.1 hmem
  exact (mem_movingFields_iff.1 hx).2.2.2.2.2 h

include hp hsettled

/-- The classes afterwards are those of the moves, the holder with public fields. -/
theorem mem_classes_gathered {r : Renaming} {c' : Class} :
    c' ∈ (gathered holder r q).classes ↔ ∃ c ∈ q.classes,
      c' = r.onClass (if c.name = holder then publishFields c else c) := by
  have hdistinct : (q.classes.map (·.name)).Nodup :=
    hsettled.names ▸ (sound_ensureHolder hp holder).distinct
  rw [gathered, Renaming.apply, Part.classes_modifyClass hdistinct, List.map_map, List.mem_map]
  simp only [Function.comp_apply, eq_comm]

include hplanned

/-- Every class is still there with what initializers access. -/
theorem exists_keepsPinned : ∀ c ∈ p.classes, ∃ c' ∈ (gathered holder
    (Renaming.ofFamilies (Families.ofCodebase p) pairs) q).classes, KeepsPinned p c c' := by
  intro c hc
  have hc₁ : c ∈ (ensureHolder holder p).classes := mem_classes_ensureHolder hc
  obtain ⟨c₂, hc₂, hsame⟩ := hsettled.exists_class hc₁
  have hname := congrArg Class.name hsame
  have hsupertypes := congrArg Class.supertypes hsame
  change c₂.name = c.name at hname
  change c₂.supertypes = c.supertypes at hsupertypes
  set r := Renaming.ofFamilies (Families.ofCodebase p) pairs with hr
  have hclasses : ∀ n, r.onClassName n = n := Renaming.onClassName_ofFamilies _
  have hfield : ∀ f ∈ c.fields, IsPinned p f.key →
      (r.onField (r.onClassName c₂.name) f).key = f.key := by
    intro f hf hpinned
    have howner : f.owner = c.name := (Part.ofFields.owner_and_kind hp hc hf).1
    rw [hclasses, hname, ← howner, hr, key_onField_of_isPinned hplanned hpinned]
  refine ⟨_, (mem_classes_gathered hp hsettled).2 ⟨c₂, hc₂, rfl⟩, ?_, ?_, fun f hf hpinned => ?_⟩
  · split <;> exact (hclasses _).trans hname
  · have hself : r.onClassName = id := funext hclasses
    rw [← hsupertypes]
    split <;> simp [Renaming.onClass, Class.supertypes, hself, publishFields]
  · have hmem : f ∈ c₂.fields := by
      refine (hsettled.mem_iff c₂ hc₂ f).2 ⟨?_, ?_⟩
      · exact List.mem_flatMap.2 ⟨c, hc₁, hf⟩
      · exact (fieldHome_of_isPinned hpinned).trans
          ((Part.ofFields.owner_and_kind hp hc hf).1.trans hname.symm)
    split
    -- in the holder fields become public, elsewhere they are as they were
    · let f₂ : Field := { f with access := f.access.publish }
      have hmem₂ : f₂ ∈ (publishFields c₂).fields := List.mem_map_of_mem hmem
      refine ⟨_, List.mem_map_of_mem hmem₂, hfield f hf hpinned, fun _ => ?_⟩
      exact Access.contains_privateFlag_publish f.access
    · exact ⟨_, List.mem_map_of_mem hmem, hfield f hf hpinned, fun hshown => hshown⟩

end

/-- An instruction that keeps its references stays in a listing. -/
theorem mem_instructions_onListing {r : Renaming} {l : Listing} {i : Instruction Label}
    (hi : i ∈ l.instructions) (hself : r.onInstruction i = i) :
    i ∈ (r.onListing l).instructions := by
  obtain ⟨a, ha, hget⟩ := List.mem_map.1 hi
  have hhandles : (r.onListing l).handles = l.handles := Listing.handles_foldl_modify ..
  refine List.mem_map.2 ⟨a, hhandles ▸ ha, ?_⟩
  -- An edit does not change it, however often it is made.
  have hkept : ∀ (hs : List Handle) (l : Listing), l.get a = i →
      (hs.foldl (fun l h => l.modify h r.onInstruction) l).get a = i := by
    intro hs
    induction hs with
    | nil => exact fun l hl => hl
    | cons h hs ih =>
      intro l hl
      refine ih _ ?_
      rw [Listing.get_modify rfl]
      split
      · rw [hl, hself]
      · exact hl
  exact hkept l.handles l hget

section

variable {pairs : List (Member × Member)} (hp : p.Sound)
  (hplanned : List.Forall₂ (IsPlanned holder) (movingFields holder p) pairs)
  (hsettled : Part.ofFields.Settled (fieldHome holder p) (ensureHolder holder p) q)

include hsettled

/-- Making moved fields public leaves the methods. -/
theorem methods_modifyClass_publishFields :
    (q.modifyClass holder publishFields).methods = p.methods :=
  (Codebase.methods_modifyClass (fun _ => by rfl) q holder).trans
    ((methods_of_settled hsettled).trans (methods_ensureHolder holder p))

include hp

/-- The classes keep their names. -/
theorem nodup_names_gathered {r : Renaming} (hclasses : ∀ n, r.onClassName n = n) :
    ((gathered holder r q).classes.map (·.name)).Nodup := by
  have hdistinct : (q.classes.map (·.name)).Nodup :=
    hsettled.names ▸ (sound_ensureHolder hp holder).distinct
  have hnames : (gathered holder r q).classes.map (·.name) = q.classes.map (·.name) := by
    rw [gathered, Renaming.apply, Part.classes_modifyClass hdistinct, List.map_map, List.map_map]
    refine List.map_congr_left fun c _ => ?_
    rw [Function.comp_apply, Function.comp_apply]
    split <;> exact hclasses c.name
  rwa [hnames]

/-- A field outside the holder has stayed in its class. -/
theorem exists_of_mem_gathered {r : Renaming} (hclasses : ∀ n, r.onClassName n = n) {c' : Class}
    (hc' : c' ∈ (gathered holder r q).classes) (hother : c'.name ≠ holder) {f' : Field}
    (hf' : f' ∈ c'.fields) : ∃ c ∈ p.classes, c.name = c'.name ∧ c.isInterface = c'.isInterface ∧
      ∃ f ∈ c.fields, f' = r.onField f.owner f ∧
        f.key ∉ (movingFields holder p).map fun x => x.2.key := by
  obtain ⟨c₂, hc₂, rfl⟩ := (mem_classes_gathered hp hsettled).1 hc'
  have hname : c₂.name ≠ holder := by
    intro hholder
    rw [if_pos hholder] at hother
    exact hother ((hclasses _).trans hholder)
  rw [if_neg hname] at hf' ⊢
  obtain ⟨f, hf, rfl⟩ := List.mem_map.1 hf'
  -- The field is in the class of its home, which is not the holder, so it has not moved.
  obtain ⟨hmem, hhome⟩ := (hsettled.mem_iff c₂ hc₂ f).1 hf
  have hstays : f.key ∉ (movingFields holder p).map fun x => x.2.key := fun hmoves =>
    hname (hhome.symm.trans (if_pos hmoves))
  have howner : f.owner = c₂.name := (if_neg hstays).symm.trans hhome
  obtain ⟨c, hc, hsame⟩ := hsettled.exists_origin hc₂
  have hcname := congrArg Class.name hsame
  have hinterface := congrArg Class.isInterface hsame
  change c.name = c₂.name at hcname
  change c.isInterface = c₂.isInterface at hinterface
  obtain ⟨d, hd, hfd⟩ := List.mem_flatMap.1 (fields_ensureHolder holder p ▸ hmem : f ∈ p.fields)
  have hdname : d.name = c.name :=
    ((Part.ofFields.owner_and_kind hp hd hfd).1.symm.trans howner).trans hcname.symm
  have hd₁ : d ∈ (ensureHolder holder p).classes := mem_classes_ensureHolder hd
  obtain rfl := (sound_ensureHolder hp holder).class_eq hd₁ hc hdname
  refine ⟨d, hd, hcname.trans (hclasses _).symm, hinterface, f, hfd, ?_, hstays⟩
  rw [hclasses, ← howner]

include hplanned

/-- Initializers still access what they access. -/
theorem mem_fieldReferences_gathered
    (hm : m ∈ fieldReferences (p.methods.filter Method.isInitializer)) (hpinned : IsPinned p m) :
    m ∈ fieldReferences ((gathered holder (Renaming.ofFamilies (Families.ofCodebase p) pairs)
      q).methods.filter Method.isInitializer) := by
  set r := Renaming.ofFamilies (Families.ofCodebase p) pairs
  obtain ⟨b, hb, hm⟩ := List.mem_flatMap.1 hm
  obtain ⟨d, hd, hb⟩ := List.mem_filterMap.1 hb
  obtain ⟨hd, hinit⟩ := List.mem_filter.1 hd
  obtain ⟨i, hi, hmi⟩ := List.mem_filterMap.1 hm
  obtain ⟨op, rfl⟩ : ∃ op, i = .field op m := by
    split at hmi
    · cases hmi
      exact ⟨_, rfl⟩
    · cases hmi
  have hkind : isMethod d.key = true := by
    obtain ⟨c, hc, hd⟩ := List.mem_flatMap.1 hd
    exact (hp.kinds c hc).2 d hd
  rw [← methods_modifyClass_publishFields hsettled] at hd
  obtain ⟨c, hc, hd⟩ := List.mem_flatMap.1 hd
  have hname : (r.onMethod (r.onClassName c.name) d).name = d.name :=
    congrArg Member.name (onMember_of_isMethod hplanned hp hkind)
  have hbody : (r.onMethod (r.onClassName c.name) d).body = some (r.onBody b) := by
    show d.body.map r.onBody = _
    rw [hb]
    rfl
  have hself : r.onInstruction (.field op m : Instruction Label) = .field op m :=
    congrArg (Instruction.field op) (onMember_of_isPinned hplanned hpinned)
  refine List.mem_flatMap.2 ⟨r.onBody b, List.mem_filterMap.2
    ⟨r.onMethod (r.onClassName c.name) d, List.mem_filter.2 ⟨?_, ?_⟩, hbody⟩,
    List.mem_filterMap.2 ⟨_, mem_instructions_onListing hi hself, rfl⟩⟩
  · exact List.mem_flatMap.2 ⟨r.onClass c, List.mem_map_of_mem hc, List.mem_map_of_mem hd⟩
  · rw [Method.isInitializer, hname]
    exact hinit

end

/-- Without fields that move nothing changes. -/
theorem moveStaticFields_of_movingFields (h : movingFields holder p = []) :
    moveStaticFields holder p = { result := .ok 0, codebase := p } := by
  obtain ⟨pairs, hmoves, -, hplanned, -⟩ := fieldPlan_spec holder p
  rw [h, List.forall₂_nil_left_iff] at hplanned
  subst hplanned
  exact moveStaticFields_eq_self hmoves

/-- **Once static fields have moved, none is left to move,** in a sound codebase in which the fields of
each class differ in name or type. -/
theorem movingFields_moveStaticFields (hp : p.Sound)
    (hdistinct : ∀ c ∈ p.classes, (c.fields.map fun f => (f.name, f.descriptor)).Nodup) :
    movingFields holder (moveStaticFields holder p).codebase = [] := by
  have hkeys : (p.fields.map Field.key).Nodup := Part.nodup_keys .ofFields hp hdistinct
  by_cases hnone : movingFields holder p = []
  · rwa [moveStaticFields_of_movingFields hnone]
  obtain ⟨q, pairs, hsettled, hplanned, hmoved⟩ := exists_gathered hp hkeys hnone
  have hclasses : ∀ n, (Renaming.ofFamilies (Families.ofCodebase p) pairs).onClassName n = n :=
    Renaming.onClassName_ofFamilies pairs
  rw [hmoved, List.eq_nil_iff_forall_not_mem]
  rintro ⟨c', f'⟩ hx
  obtain ⟨hc', hf', hname, hclass, hstatic, hfree⟩ := mem_movingFields_iff.1 hx
  obtain ⟨c, hc, hcname, hinterface, f, hf, rfl, hstays⟩ :=
    exists_of_mem_gathered hp hsettled hclasses hc' hname hf'
  -- What has stayed is accessed by an initializer, and still is.
  have hpinned : IsPinned p f.key := by
    by_contra hpinned
    have hmoves : (c, f) ∈ movingFields holder p := mem_movingFields_iff.2
      ⟨hc, hf, hcname.trans_ne hname, hinterface.trans hclass, hstatic, hpinned⟩
    exact hstays (List.mem_map_of_mem (f := fun x : Class × Field => x.2.key) hmoves)
  have hkey := key_onField_of_isPinned hplanned hpinned
  refine hfree (hkey.symm ▸ isPinned_of_links hpinned (fun link hlink hlinked hkind => ?_)
    (fun m hm hmpinned => mem_fieldReferences_gathered hp hplanned hsettled hm hmpinned)
    ⟨c', hc', List.mem_append_left _ (hkey ▸ List.mem_map_of_mem hf')⟩)
  exact mem_links_of_keepsPinned hp (nodup_names_gathered hp hsettled hclasses)
    (exists_keepsPinned hp hplanned hsettled) hlink hlinked
    (hkind.trans ((hp.kinds c hc).1 f hf))

/-! ### Members outside the holder -/

variable {moves : List Move}

/-- The number of the members of a class. -/
def memberCount (c : Class) : Nat :=
  c.fields.length + c.methods.length

/-- The number of the members of some classes outside the holder. -/
def outsideOf (holder : String) (cs : List Class) : Nat :=
  ((cs.filter (·.name != holder)).map memberCount).sum

/-- The number of the members of a codebase outside the holder. -/
def outside (holder : String) (p : Codebase) : Nat :=
  outsideOf holder p.classes

/-- The members outside the class for them are those of the first class and of the others. -/
theorem outsideOf_cons (holder : String) (c : Class) (cs : List Class) : outsideOf holder (c :: cs) =
    (if c.name = holder then 0 else memberCount c) + outsideOf holder cs := by
  rw [outsideOf, outsideOf, List.filter_cons]
  by_cases hc : c.name = holder
  · rw [if_neg (by simpa using hc), if_pos hc, Nat.zero_add]
  · rw [if_pos (by simpa using hc), if_neg hc, List.map_cons, List.sum_cons]

/-- The members outside the class for them are those of both parts. -/
theorem outsideOf_append (holder : String) (cs ds : List Class) :
    outsideOf holder (cs ++ ds) = outsideOf holder cs + outsideOf holder ds := by
  rw [outsideOf, List.filter_append, List.map_append, List.sum_append]
  rfl

/-- What happens to the holder does not matter outside. -/
theorem outside_modifyClass_holder {f : Class → Class} (hname : ∀ c, (f c).name = c.name) :
    outside holder (p.modifyClass holder f) = outside holder p := by
  rw [outside, outside, Codebase.modifyClass]
  rcases modifyFirst_cases (·.name == holder) f p.classes with
    ⟨-, heq⟩ | ⟨front, c, back, hs, hfind, heq⟩
  · rw [heq]
  · have hc : c.name = holder := by simpa using List.find?_some hfind
    rw [heq, hs, outsideOf_append, outsideOf_append, outsideOf_cons, outsideOf_cons, hname,
      if_pos hc, if_pos hc]

/-- A member that another class loses is lost outside. -/
theorem outside_modifyClass {f : Class → Class} {c : Class} {name : String}
    (hc : p.class? name = some c) (hne : name ≠ holder) (hname : ∀ c, (f c).name = c.name)
    (hlost : memberCount (f c) + 1 = memberCount c) :
    outside holder (p.modifyClass name f) + 1 = outside holder p := by
  rw [outside, outside, Codebase.modifyClass]
  rcases modifyFirst_cases (·.name == name) f p.classes with
    ⟨hnone, -⟩ | ⟨front, d, back, hs, hfind, heq⟩
  · rw [Codebase.class?, hnone] at hc
    cases hc
  · rw [Codebase.class?, hfind] at hc
    cases hc
    have hout : c.name ≠ holder := by
      have hfound : c.name = name := by simpa using List.find?_some hfind
      rwa [hfound]
    rw [heq, hs, outsideOf_append, outsideOf_append, outsideOf_cons, outsideOf_cons, hname,
      if_neg hout, if_neg hout]
    omega

/-- A method that moves into the holder is one member fewer outside. -/
theorem outside_moveMethod {m : Member} {c : Class} {method : Method}
    (hc : p.class? m.owner = some c) (hne : m.owner ≠ holder)
    (hmethod : c.method? m.name m.descriptor = some method) :
    outside holder (moveMethod p m holder method) + 1 = outside holder p := by
  have hlost : c.methods.length = (c.methods.eraseP (Method.isNamed m.name m.descriptor)).length + 1 :=
    (cons_eraseP_perm hmethod).length_eq.symm
  have hcount : memberCount { c with
      methods := c.methods.eraseP (Method.isNamed m.name m.descriptor) } + 1 = memberCount c := by
    rw [memberCount, memberCount, hlost]
    rfl
  rw [moveMethod, outside_modifyClass_holder]
  · refine outside_modifyClass hc hne ?_ hcount
    exact fun _ => rfl
  · exact fun _ => rfl

/-- So is a field. -/
theorem outside_moveField {m : Member} {c : Class} {field : Field}
    (hc : p.class? m.owner = some c) (hne : m.owner ≠ holder)
    (hfield : c.field? m.name m.descriptor = some field) :
    outside holder (moveField p m holder field) + 1 = outside holder p := by
  have hlost : c.fields.length = (c.fields.eraseP (Field.isNamed m.name m.descriptor)).length + 1 :=
    (cons_eraseP_perm hfield).length_eq.symm
  have hcount : memberCount { c with
      fields := c.fields.eraseP (Field.isNamed m.name m.descriptor) } + 1 = memberCount c := by
    rw [memberCount, memberCount, hlost]
    dsimp only
    omega
  rw [moveField, outside_modifyClass_holder]
  · refine outside_modifyClass hc hne ?_ hcount
    exact fun _ => rfl
  · exact fun _ => rfl

/-- Every member that moves into the holder is one fewer outside. -/
theorem outside_makeMove (state : Nat × Codebase) (m : Member) :
    outside holder (makeMove state (m, holder)).2 + (makeMove state (m, holder)).1 =
      outside holder state.2 + state.1 := by
  obtain ⟨n, p⟩ := state
  rcases makeMove_cases n p m holder with heq | ⟨c, hc, hne, ⟨-, method, hmethod, heq⟩ |
    ⟨-, field, hfield, heq⟩⟩ <;> rw [heq]
  · have hlost := outside_moveMethod hc hne hmethod
    dsimp only
    omega
  · have hlost := outside_moveField hc hne hfield
    dsimp only
    omega

/-- So are all that a relocation moves there. -/
theorem outside_relocate (htargets : ∀ move ∈ moves, move.2 = holder)
    (h : (relocate p moves).2 = .ok (n, q)) : outside holder q + n = outside holder p := by
  obtain ⟨valid, hvalid, hmoved⟩ := relocate_cases h
  have hsub := (checkMoves_spec hvalid).1
  have hfold : ∀ (moves : List Move) (state : Nat × Codebase), (∀ move ∈ moves, move.2 = holder) →
      outside holder (moves.foldl makeMove state).2 + (moves.foldl makeMove state).1 =
        outside holder state.2 + state.1 := by
    intro moves
    induction moves with
    | nil => exact fun state _ => rfl
    | cons move moves ih =>
      intro state htargets
      obtain ⟨hfirst, hrest⟩ := List.forall_mem_cons.1 htargets
      rw [List.foldl_cons, ih _ hrest]
      obtain ⟨m, target⟩ := move
      cases hfirst
      exact outside_makeMove state m
  have hall := hfold valid (0, p) fun move hmove => htargets move (hsub.subset hmove)
  rw [hmoved] at hall
  exact hall

/-! ### Fields out of place -/

/-- The number of the fields and of the members outside the holder. -/
def scattered (holder : String) (p : Codebase) : Nat :=
  p.fields.length + outside holder p

/-- Each field that is removed is one field fewer. -/
theorem scattered_removeUnusedFields (holder : String) (p : Codebase) :
    scattered holder (removeUnusedFields p).2 + (removeUnusedFields p).1 ≤ scattered holder p := by
  -- Filtering the fields of every class takes away as many outside the holder at most.
  have hsub : ∀ (keep : Field → Bool) (cs : List Class),
      (cs.flatMap fun c => c.fields.filter keep).length ≤ (cs.flatMap (·.fields)).length ∧
        outsideOf holder (cs.map fun c => { c with fields := c.fields.filter keep }) ≤
          outsideOf holder cs := by
    intro keep cs
    induction cs with
    | nil => exact ⟨Nat.le_refl _, Nat.le_refl _⟩
    | cons c cs ih =>
      have hfields := List.length_filter_le keep c.fields
      constructor
      · rw [List.flatMap_cons, List.flatMap_cons, List.length_append, List.length_append]
        omega
      · rw [List.map_cons, outsideOf_cons, outsideOf_cons]
        have hcount : memberCount { c with fields := c.fields.filter keep } ≤ memberCount c :=
          Nat.add_le_add_right hfields _
        split <;> omega
  obtain ⟨hfields, houtside⟩ := hsub (fun f => ((Families.ofCodebase p).family? f.key).isNone ||
    belongsTo (Families.ofCodebase p)
      (familiesOf (Families.ofCodebase p) (fieldReferences p.methods)) f.key) p.classes
  have hleft : (removeUnusedFields p).2.fields = p.classes.flatMap fun c => c.fields.filter fun f =>
      ((Families.ofCodebase p).family? f.key).isNone || belongsTo (Families.ofCodebase p)
        (familiesOf (Families.ofCodebase p) (fieldReferences p.methods)) f.key := by
    show (List.map _ p.classes).flatMap _ = _
    rw [List.flatMap_map]
  have hcount : (removeUnusedFields p).1 =
      p.fields.length - (removeUnusedFields p).2.fields.length := rfl
  rw [scattered, scattered, hcount, hleft]
  have houtside : outside holder (removeUnusedFields p).2 ≤ outside holder p := houtside
  have hfields : _ ≤ p.fields.length := hfields
  omega

/-- Giving members new references leaves every class its members. -/
theorem scattered_apply {r : Renaming} (hclass : ∀ name, r.onClassName name = name) :
    scattered holder (r.apply p) = scattered holder p := by
  have hboth : ∀ cs : List Class, ((cs.map r.onClass).flatMap (·.fields)).length =
      (cs.flatMap (·.fields)).length ∧ outsideOf holder (cs.map r.onClass) = outsideOf holder cs := by
    intro cs
    induction cs with
    | nil => exact ⟨rfl, rfl⟩
    | cons c cs ih =>
      have hname : (r.onClass c).name = c.name := hclass c.name
      have hfields : (r.onClass c).fields.length = c.fields.length := List.length_map _
      have hmethods : (r.onClass c).methods.length = c.methods.length := List.length_map _
      have hcount : memberCount (r.onClass c) = memberCount c := by
        rw [memberCount, memberCount, hfields, hmethods]
      constructor
      · rw [List.map_cons, List.flatMap_cons, List.flatMap_cons, List.length_append,
          List.length_append, ih.1, hfields]
      · rw [List.map_cons, outsideOf_cons, outsideOf_cons, ih.2, hname, hcount]
  obtain ⟨hfields, houtside⟩ := hboth p.classes
  show ((p.classes.map r.onClass).flatMap (·.fields)).length +
    outsideOf holder (p.classes.map r.onClass) = _
  rw [hfields, houtside]
  rfl

/-- Each field that moves into the holder is one member fewer outside. -/
theorem scattered_moveStaticFields (h : (moveStaticFields holder p).result = .ok n) :
    scattered holder (moveStaticFields holder p).codebase + n = scattered holder p := by
  obtain ⟨pairs, hmoves, hnames, -⟩ := fieldPlan_spec holder p
  by_cases hempty : pairs = []
  · subst hempty
    rw [moveStaticFields_eq_self hmoves] at h ⊢
    cases h
    rfl
  -- If there is something to move, the moves are made and then the fields are published, which
  -- moves nothing.
  · obtain ⟨q, hq, hcodebase⟩ : ∃ q, (relocate (ensureHolder holder p)
        (pairs.map fun x => (x.1, holder))).2 = .ok (n, q) ∧ (moveStaticFields holder p).codebase =
          (fieldPlan holder p).names.apply (q.modifyClass holder publishFields) := by
      have hsome : (fieldPlan holder p).moves.isEmpty = false := by
        rw [hmoves]
        simpa using hempty
      rw [moveStaticFields] at h ⊢
      dsimp only at h ⊢
      rw [hsome, if_neg Bool.false_ne_true, hmoves, List.reverse_reverse] at h ⊢
      cases hmoved : (relocate (ensureHolder holder p) (pairs.map fun x => (x.1, holder))).2 with
      | error e =>
        rw [hmoved] at h
        cases h
      | ok moved =>
        rw [hmoved] at h
        cases h
        exact ⟨moved.2, rfl, rfl⟩
    have htargets : ∀ move ∈ pairs.map fun x => (x.1, holder), move.2 = holder := by
      intro move hmove
      obtain ⟨x, -, rfl⟩ := List.mem_map.1 hmove
      rfl
    have hmoved := outside_relocate htargets hq
    have hfields : (q.modifyClass holder publishFields).fields.length = p.fields.length := by
      have hpublished : (q.modifyClass holder publishFields).fields.map Field.key =
          q.fields.map Field.key := by
        rw [Codebase.fields, Codebase.fields, List.map_flatMap, List.map_flatMap]
        refine flatMap_modifyFirst (fun c => ?_) _ _
        rw [publishFields, List.map_map]
        rfl
      have hpublished := congrArg List.length hpublished
      rw [List.length_map, List.length_map] at hpublished
      rw [hpublished, (relocate_perm hq).2.length_eq, fields_ensureHolder]
    have hholder : outside holder (ensureHolder holder p) = outside holder p := by
      rcases ensureHolder_cases holder p with ⟨-, heq⟩ | ⟨-, heq⟩ <;> rw [heq]
      rw [outside, outsideOf_append]
      simp [outside, outsideOf, emptyHolder]
    rw [hcodebase, scattered_apply, scattered, scattered, hfields, outside_modifyClass_holder]
    · omega
    · exact fun _ => rfl
    · rw [hnames]
      exact Renaming.onClassName_ofFamilies _

end Tidy

end Unscramble
