import Unscramble.Proofs.Tidy.Holder

/-! # Gathering static fields

The fields that move into the holder get names there that are free, one after the other.

Main definitions: `movingFields`, `Gatherable`. Main statements: `freeName_not_mem`,
`fieldPlan_spec`, `found?_moveStaticFields`. -/

namespace Unscramble.Tidy

open Naming

/-! ### The plan -/

/-- One of the preferred names is free, as there are more of them than names in use. -/
theorem freeName_not_mem (taken : Std.HashSet (String × String)) (c : Class) (f : Field) :
    (freeName taken c f, f.descriptor) ∉ taken := by
  rw [freeName]
  cases hfree : (holderNames (simpleName c.name) f.name taken.size).find?
      fun name => !taken.contains (name, f.descriptor) with
  | some name => simpa using List.find?_some hfree
  | none =>
    rw [List.find?_eq_none] at hfree
    -- the names with a number and the one without are too many to be all in use
    let stem := simpleName c.name ++ "_" ++ f.name
    let names := stem :: (List.range taken.size).map fun i => stem ++ toString (i + 2)
    have hnodup : (names.map fun name => (name, f.descriptor)).Nodup := by
      refine List.Nodup.map (fun _ _ h => (Prod.mk.inj h).1) (List.nodup_cons.2 ⟨?_, ?_⟩)
      · intro hmem
        obtain ⟨i, -, hi⟩ := List.mem_map.1 hmem
        simpa using congrArg String.length hi
      · refine List.nodup_range.map fun i j hij => ?_
        simpa using numbered_inj.1 hij
    have hsub : (names.map fun name => (name, f.descriptor)) ⊆ taken.toList := by
      intro x hx
      obtain ⟨name, hname, rfl⟩ := List.mem_map.1 hx
      have hused := hfree name (List.mem_cons_of_mem _ hname)
      simpa using hused
    have hlength := (hnodup.subperm hsub).length_le
    rw [Std.HashSet.length_toList] at hlength
    simp [names] at hlength

/-- The fields that move, with their classes, in the order in which they are planned. -/
def movingFields (holder : String) (p : Codebase) : List (Class × Field) :=
  let families := Families.ofCodebase p
  let pinned := familiesOf families (fieldReferences (p.methods.filter Method.isInitializer))
  p.classes.flatMap fun c =>
    if c.name == holder || c.isInterface then [] else
      (c.fields.filter fun f => f.isStatic && !belongsTo families pinned f.key).map (c, ·)

/-- A planned new reference for a field. -/
def IsPlanned (holder : String) (x : Class × Field) (pair : Member × Member) : Prop :=
  pair.1 = x.2.key ∧ pair.2.owner = holder ∧ pair.2.descriptor = x.2.descriptor

/-- Planning fields one after the other gives each of them a reference that was free. -/
theorem foldl_planField (families : Families) (holder : String) (xs : List (Class × Field))
    (plan : FieldPlan) : ∃ pairs : List (Member × Member),
      let plan' := xs.foldl (fun plan x => planField families holder x.1 plan x.2) plan
      plan'.moves = (pairs.map fun x => (x.1, holder)).reverse ++ plan.moves ∧
      plan'.names = pairs.foldl (fun r x =>
        (families.linked x.1).foldl (fun r old => r.mapMember old x.2) r) plan.names ∧
      List.Forall₂ (IsPlanned holder) xs pairs ∧
      (pairs.map fun x => (x.2.name, x.2.descriptor)).Nodup ∧
      ∀ x ∈ pairs, (x.2.name, x.2.descriptor) ∉ plan.taken := by
  -- On the fields, for every plan so far: a name that is given is taken from then on.
  induction xs generalizing plan with
  | nil => exact ⟨[], rfl, rfl, .nil, .nil, by simp⟩
  | cons x xs ih =>
    let name := freeName plan.taken x.1 x.2
    obtain ⟨pairs, hmoves, hnames, hplanned, hnodup, hfree⟩ :=
      ih (planField families holder x.1 plan x.2)
    have htaken : ∀ y ∈ pairs, (y.2.name, y.2.descriptor) ≠ (name, x.2.descriptor) ∧
        (y.2.name, y.2.descriptor) ∉ plan.taken := by
      intro y hy
      have hy := hfree y hy
      rw [planField, Std.HashSet.mem_insert, not_or, beq_iff_eq] at hy
      exact ⟨Ne.symm hy.1, hy.2⟩
    refine ⟨(x.2.key, ⟨holder, name, x.2.descriptor⟩) :: pairs, ?_, hnames,
      .cons ⟨rfl, rfl, rfl⟩ hplanned, List.nodup_cons.2 ⟨?_, hnodup⟩, ?_⟩
    · rw [List.foldl_cons, hmoves, planField]
      simp
    · intro hmem
      obtain ⟨y, hy, heq⟩ := List.mem_map.1 hmem
      exact (htaken y hy).1 heq
    · intro y hy
      rcases List.mem_cons.1 hy with rfl | hy
      · exact freeName_not_mem plan.taken x.1 x.2
      · exact (htaken y hy).2

/-- The fields that move are planned one after the other. -/
theorem fieldPlan_eq (holder : String) (p : Codebase) :
    fieldPlan holder p = (movingFields holder p).foldl
      (fun plan x => planField (Families.ofCodebase p) holder x.1 plan x.2)
      { taken := (((p.class? holder).map (·.fields)).getD []).foldl
          (fun s f => s.insert (f.name, f.descriptor)) ∅ } := by
  rw [fieldPlan, movingFields, List.foldl_flatMap]
  refine congrArg (fun step => p.classes.foldl step _) ?_
  funext plan c
  rw [planFields]
  split
  · rfl
  · rw [List.foldl_map]

/-- The plan moves each field into the holder, under a name that no other field has there. -/
theorem fieldPlan_spec (holder : String) (p : Codebase) : ∃ pairs : List (Member × Member),
    (fieldPlan holder p).moves = (pairs.map fun x => (x.1, holder)).reverse ∧
    (fieldPlan holder p).names = Renaming.ofFamilies (Families.ofCodebase p) pairs ∧
    List.Forall₂ (IsPlanned holder) (movingFields holder p) pairs ∧
    (pairs.map fun x => (x.2.name, x.2.descriptor)).Nodup ∧
    ∀ x ∈ pairs, ∀ c, p.class? holder = some c → ∀ f ∈ c.fields,
      (f.name, f.descriptor) ≠ (x.2.name, x.2.descriptor) := by
  obtain ⟨pairs, hmoves, hnames, hplanned, hnodup, hfree⟩ :=
    foldl_planField (Families.ofCodebase p) holder (movingFields holder p)
      { taken := (((p.class? holder).map (·.fields)).getD []).foldl
          (fun s f => s.insert (f.name, f.descriptor)) ∅ }
  rw [← fieldPlan_eq] at hmoves hnames
  refine ⟨pairs, by simpa using hmoves, hnames, hplanned, hnodup, ?_⟩
  intro x hx c hc f hf heq
  refine hfree x hx ((mem_foldl_insert_iff _ _ _ _).2 (.inr ⟨f, ?_, heq⟩))
  rw [hc]
  exact hf

/-! ### References to gathered fields -/

/-- A codebase whose static fields can be gathered without mixing them up: no other declaration
shares the family of a field that moves, and the holder neither inherits from a class of the
codebase nor is inherited from. -/
structure Gatherable (holder : String) (p : Codebase) : Prop where
  /-- The declarations are told by their references. -/
  sound : p.Sound
  /-- The fields of a class differ in name or type. -/
  distinct : ∀ c ∈ p.classes, (c.fields.map fun f => (f.name, f.descriptor)).Nodup
  /-- Listings link each instruction once. -/
  bodies : ∀ b ∈ p.bodies, b.listing.handles.Nodup
  /-- A field that moves hides no field and is hidden by none. -/
  alone : ∀ x ∈ movingFields holder p, ∀ d ∈ p.declarations,
    (Families.ofCodebase p).family? d.1 = (Families.ofCodebase p).family? x.2.key → d.1 = x.2.key
  /-- No class inherits from the holder. -/
  noHeirs : ∀ c ∈ p.classes, holder ∉ c.supertypes
  /-- The holder inherits from no class of the codebase. -/
  noParents : ∀ c ∈ p.classes, c.name = holder → ∀ c' ∈ p.classes, c'.name ∉ c.supertypes

variable {holder : String} {p : Codebase} {pairs : List (Member × Member)} {x : Class × Field}

/-- A field that moves is a static one of a class other than the holder. -/
theorem mem_movingFields (hx : x ∈ movingFields holder p) :
    x.1 ∈ p.classes ∧ x.2 ∈ x.1.fields ∧ x.1.name ≠ holder ∧ x.2.isStatic = true := by
  obtain ⟨c, hc, hx⟩ := List.mem_flatMap.1 hx
  split at hx
  · cases hx
  · next hstays =>
    obtain ⟨f, hf, rfl⟩ := List.mem_map.1 hx
    obtain ⟨hf, hmoves⟩ := List.mem_filter.1 hf
    have hne : c.name ≠ holder := fun hname => hstays (by simp [hname])
    exact ⟨hc, hf, hne, (Bool.and_eq_true_iff.1 hmoves).1⟩

/-- Each field moves once. -/
theorem sublist_movingFields (holder : String) (p : Codebase) :
    ((movingFields holder p).map (·.2)).Sublist p.fields := by
  rw [movingFields, List.map_flatMap, Codebase.fields]
  refine List.Sublist.flatMap_right _ fun c _ => ?_
  split
  · exact List.nil_sublist _
  · rw [List.map_map]
    exact (List.map_id' _).symm ▸ List.filter_sublist

/-- The fields that move can be moved once the holder is there. -/
theorem movable_movingFields (hp : p.Sound) (hkeys : (p.fields.map Field.key).Nodup) :
    Part.ofFields.Movable (ensureHolder holder p)
      ((movingFields holder p).map fun x => (x.2, holder)) := by
  have hmem : ∀ x ∈ (movingFields holder p).map (fun x => (x.2, holder)), x.2 = holder ∧
      x.1 ∈ p.fields ∧ x.1.isStatic = true ∧ x.1.owner ≠ holder := by
    intro x hx
    obtain ⟨y, hy, rfl⟩ := List.mem_map.1 hx
    obtain ⟨hc, hf, hne, hstatic⟩ := mem_movingFields hy
    refine ⟨rfl, List.mem_flatMap.2 ⟨y.1, hc, hf⟩, hstatic, ?_⟩
    -- A field that moves is outside the holder, so no home is also a target.
    have howner : y.2.owner = y.1.name := (Part.ofFields.owner_and_kind hp hc hf).1
    rwa [howner]
  have hnodup : (((movingFields holder p).map fun x => (x.2, holder)).map
      fun x => Part.ofFields.key x.1).Nodup := by
    rw [List.map_map]
    have hsub := (sublist_movingFields holder p).map Field.key
    rw [List.map_map] at hsub
    exact hkeys.sublist hsub
  refine ⟨hnodup, fun x hx => ?_, fun x hx => (hmem x hx).2.2.1, fun x hx => ?_, fun x hx => ?_,
    fun x hx y hy hown => ?_⟩
  · have hfields : Part.ofFields.all (ensureHolder holder p) = p.fields :=
      fields_ensureHolder holder p
    rw [hfields]
    exact (hmem x hx).2.1
  · rw [(hmem x hx).1]
    exact holder_mem_ensureHolder holder p
  · rw [(hmem x hx).1]
    exact (hmem x hx).2.2.2
  · rw [(hmem y hy).1] at hown
    exact absurd hown.symm (hmem x hx).2.2.2

namespace Gatherable

/-- All fields have different references. -/
theorem keys (h : Gatherable holder p) : (p.fields.map Field.key).Nodup :=
  Part.nodup_keys .ofFields h.sound h.distinct

/-- What is planned for fields that move keeps them apart. -/
theorem resettlement (h : Gatherable holder p)
    (hplanned : List.Forall₂ (IsPlanned holder) (movingFields holder p) pairs)
    (hnodup : (pairs.map fun x => (x.2.name, x.2.descriptor)).Nodup)
    (hfree : ∀ x ∈ pairs, ∀ c, p.class? holder = some c → ∀ f ∈ c.fields,
      (f.name, f.descriptor) ≠ (x.2.name, x.2.descriptor)) : Resettlement p pairs := by
  have hkeys : pairs.map (·.1) = ((movingFields holder p).map (·.2)).map Field.key := by
    rw [List.map_map]
    refine eq_map_of_forall₂ ?_
    rw [List.forall₂_map_right_iff]
    exact hplanned.imp fun _ _ hpair => hpair.1
  -- The first reference of a pair is that of a field that moves, the second one is in the holder
  -- and was free.
  refine ⟨?_, ?_, ?_, ?_, ?_, ?_, ?_⟩
  · rw [hkeys]
    exact h.keys.sublist ((sublist_movingFields holder p).map _)
  · refine List.Nodup.of_map (fun m : Member => (m.name, m.descriptor)) ?_
    rwa [List.map_map]
  · intro pair hpair
    obtain ⟨x, hx, hkey, -⟩ := exists_of_mem_right hplanned hpair
    obtain ⟨hc, hf, -⟩ := mem_movingFields hx
    rw [hkey]
    exact ⟨_, ((Part.ofFields.mem_declarations_iff h.sound _).2
      ⟨x.2, List.mem_flatMap.2 ⟨x.1, hc, hf⟩, rfl⟩).1⟩
  -- A field that had the new reference would be one of the holder, where the name was chosen to be
  -- free.
  · intro pair hpair b hd
    obtain ⟨x, hx, -, howner, hdescriptor⟩ := exists_of_mem_right hplanned hpair
    obtain ⟨hc, hf, -⟩ := mem_movingFields hx
    have hkind : isMethod pair.2 = Part.ofFields.areMethods :=
      (isMethod_eq hdescriptor).trans (Part.ofFields.owner_and_kind h.sound hc hf).2
    obtain ⟨f, hf, hfd⟩ := (Part.ofFields.mem_declarations_iff h.sound _).1 ⟨hd, hkind⟩
    obtain ⟨c, hc, hf⟩ := List.mem_flatMap.1 hf
    have hfkey : f.key = pair.2 := congrArg Prod.fst hfd
    have hname : c.name = holder := by
      rw [← (Part.ofFields.owner_and_kind h.sound hc hf).1, ← howner]
      exact congrArg Member.owner hfkey
    have hmem : holder ∈ p.classes.map (·.name) := by
      rw [← hname]
      exact List.mem_map_of_mem hc
    obtain ⟨c', hc', hname', hclass⟩ := Part.exists_class? hmem
    rw [h.sound.class_eq hc hc' (hname.trans hname'.symm)] at hf
    exact hfree pair hpair c' hclass f hf (hfkey ▸ rfl)
  · intro pair hpair
    obtain ⟨x, -, hkey, -, hdescriptor⟩ := exists_of_mem_right hplanned hpair
    rw [hdescriptor, hkey]
    rfl
  · intro pair hpair hinit
    obtain ⟨x, hx, hkey, -⟩ := exists_of_mem_right hplanned hpair
    obtain ⟨hc, hf, -⟩ := mem_movingFields hx
    have hkind := (h.sound.kinds x.1 hc).1 x.2 hf
    rw [← hkey, hinit.2] at hkind
    cases hkind
  · intro pair hpair d hd hfamily
    obtain ⟨x, hx, hkey, -⟩ := exists_of_mem_right hplanned hpair
    rw [hkey] at hfamily ⊢
    exact h.alone x hx d hd hfamily

/-- Nothing that moves gets in front of a field that stays. -/
theorem clear (h : Gatherable holder p) (hresettled : Resettlement p pairs)
    (hholder : ∀ x ∈ pairs, x.2.owner = holder) : ∀ m D n, isMethod m = false →
    p.found? m = some D → D ∉ pairs.map (·.1) → n ∈ (Hierarchy.ofCodebase p).ancestors m.owner →
    ∀ d ∈ p.declarations, (d.1 ∈ pairs.map (·.1) ∨
      ((Renaming.ofFamilies (Families.ofCodebase p) pairs).onMember d.1).owner = holder) →
    (Renaming.ofFamilies (Families.ofCodebase p) pairs).onMember d.1 = m.withOwner n →
    d.1 = D := by
  intro m D n _ hD hkey hn d hd hmoves hnew
  have hnew_owner : ((Renaming.ofFamilies (Families.ofCodebase p) pairs).onMember d.1).owner =
      holder := by
    rcases hmoves with hmoves | hopened
    · obtain ⟨x, hx, hxd⟩ := List.mem_map.1 hmoves
      rw [← hxd, hresettled.onMember_key hx]
      exact hholder x hx
    · exact hopened
  -- only references to the holder itself look into it, and they look nowhere else
  have hnholder : n = holder := by
    rw [← hnew_owner, hnew]
    rfl
  have hmowner : holder = m.owner := by
    rcases Hierarchy.eq_or_supertype_of_mem_ancestors h.sound.distinct (hnholder ▸ hn) with
      heq | ⟨c, hc, hsupertype⟩
    · exact heq
    · exact absurd hsupertype (h.noHeirs c hc)
  obtain ⟨hancestor, hDm, b, hb, -⟩ := h.sound.declared_of_found hD
  obtain ⟨c, hc, hname⟩ := h.sound.exists_heir hancestor
  have hDowner : D.owner = holder := by
    rw [← hmowner] at hancestor
    rw [h.sound.ancestors_of_no_parents hc (hname.trans hmowner.symm)
      (h.noParents c hc (hname.trans hmowner.symm))] at hancestor
    exact List.mem_singleton.1 hancestor
  have hDnew : (Renaming.ofFamilies (Families.ofCodebase p) pairs).onMember d.1 = D := by
    rw [hnew, hnholder, ← hDowner, ← hDm]
  have hstay := hresettled.onMember_of_not_mem hb hkey
  exact hresettled.onMember_inj hd hb (hDnew.trans hstay.symm)

end Gatherable

/-- If fields are to move, they move into the holder and are renamed there. -/
theorem moveStaticFields_eq {n : Nat} {q : Codebase} {r : Renaming} (hne : pairs ≠ [])
    (hmoves : (fieldPlan holder p).moves = (pairs.map fun x => (x.1, holder)).reverse)
    (hnames : (fieldPlan holder p).names = r)
    (hq : relocate (ensureHolder holder p) (pairs.map fun x => (x.1, holder)) = ([], .ok (n, q))) :
    moveStaticFields holder p =
      { result := .ok n, codebase := r.apply (q.modifyClass holder publishFields) } := by
  have hsome : (fieldPlan holder p).moves.isEmpty = false := by
    rw [hmoves]
    simpa using hne
  rw [moveStaticFields]
  dsimp only
  rw [hsome, if_neg Bool.false_ne_true, hmoves, List.reverse_reverse, hq, hnames]

/-- If no field is to move, nothing changes. -/
theorem moveStaticFields_eq_self (hmoves : (fieldPlan holder p).moves = []) :
    moveStaticFields holder p = { result := .ok 0, codebase := p } := by
  rw [moveStaticFields, hmoves]
  rfl

/-- Moves of fields leave the methods where they are. -/
theorem methods_of_settled {p₁ q : Codebase} {home : Member → String}
    (h : Part.ofFields.Settled home p₁ q) : q.methods = p₁.methods := by
  have hmethods : ∀ q : Codebase,
      q.methods = (q.classes.map (Part.ofFields.withItems · [])).flatMap (·.methods) := fun q => by
    rw [List.flatMap_map]
    rfl
  rw [hmethods, h.rest, ← hmethods]

/-- Planned fields arrive under their new references. -/
theorem Gatherable.arrived (h : Gatherable holder p) (hresettled : Resettlement p pairs)
    (hplanned : List.Forall₂ (IsPlanned holder) (movingFields holder p) pairs) :
    ∃ q : Codebase,
      relocate (ensureHolder holder p) (pairs.map fun x => (x.1, holder)) =
        ([], .ok (pairs.length, q)) ∧
      (q.modifyClass holder publishFields).methods = p.methods ∧
      Part.ofFields.Arrived (Renaming.ofFamilies (Families.ofCodebase p) pairs)
        (fun m => ((Renaming.ofFamilies (Families.ofCodebase p) pairs).onMember m).owner = holder)
        p ((Renaming.ofFamilies (Families.ofCodebase p) pairs).apply
          (q.modifyClass holder publishFields)) ∧
      Hierarchy.Extends p ((Renaming.ofFamilies (Families.ofCodebase p) pairs).apply
        (q.modifyClass holder publishFields)) := by
  have hp₁ := sound_ensureHolder h.sound holder
  have hpairs : List.Forall₂ (fun x pair => pair.1 = Part.ofFields.key x.1 ∧ pair.2.owner = x.2)
      ((movingFields holder p).map fun x => (x.2, holder)) pairs := by
    rw [List.forall₂_map_left_iff]
    exact hplanned.imp fun x pair hpair => ⟨hpair.1, hpair.2.1⟩
  have hmethods : ∀ {home : Member → String} {q : Codebase},
      Part.ofFields.Settled home (ensureHolder holder p) q →
      (q.modifyClass holder publishFields).methods = p.methods := fun {_ q} hsettled =>
    (Codebase.methods_modifyClass (fun _ => by rfl) q holder).trans
      ((methods_of_settled hsettled).trans (methods_ensureHolder holder p))
  -- Publishing widens fields only, and methods are those of the codebase.
  obtain ⟨q, hq, hsettled, harrived, hextends⟩ := Part.ofFields.exists_arrived hresettled h.sound hp₁
    (fields_ensureHolder holder p) h.keys (extends_ensureHolder h.sound fun _ => h.noHeirs)
    (movable_movingFields h.sound h.keys) hpairs (·.modifyClass holder publishFields)
    fun q hsettled => by
      have hdistinct : (q.classes.map (·.name)).Nodup := hsettled.names ▸ hp₁.distinct
      have hopened := opened_publishFields holder hdistinct hsettled
      refine ⟨hopened, fun f hf => hopened.isMethod_key hsettled hp₁ hf, fun m hm => ?_⟩
      rw [hmethods hsettled] at hm
      obtain ⟨c, hc, hm⟩ := List.mem_flatMap.1 hm
      exact (h.sound.kinds c hc).2 m hm
  have hmoves : pairs.map (fun x => (x.1, x.2.owner)) = pairs.map fun x => (x.1, holder) := by
    refine List.map_congr_left fun x hx => ?_
    obtain ⟨y, -, -, howner, -⟩ := exists_of_mem_right hplanned hx
    rw [howner]
  exact ⟨q, hmoves ▸ hq, hmethods hsettled, harrived, hextends⟩

/-- **Gathering static fields keeps them apart**, if no field that moves hides another one or is
hidden and the holder stands apart: the fields of every class differ in name or type, every field
has an image of its own with its value and its attributes, unmoved or in the holder, and every
instruction is rewritten so that what resolved to a field resolves to its image. -/
theorem found?_moveStaticFields (h : Gatherable holder p) :
    ∃ (n : Nat) (r : Renaming) (p' : Codebase),
      moveStaticFields holder p = { result := .ok n, codebase := p' } ∧
      (∀ c ∈ p'.classes, (c.fields.map fun f => (f.name, f.descriptor)).Nodup) ∧
      (∀ f ∈ p.fields, (r.onMember f.key = f.key ∨ (r.onMember f.key).owner = holder) ∧
        ∃ f' ∈ p'.fields, f'.key = r.onMember f.key ∧ f'.value = f.value ∧
          f'.attributes = f.attributes) ∧
      (∀ f ∈ p.fields, ∀ g ∈ p.fields, r.onMember f.key = r.onMember g.key → f.key = g.key) ∧
      p'.bodies.map (·.listing.instructions) =
        p.bodies.map (fun b => b.listing.instructions.map r.onInstruction) ∧
      ∀ m D, isMethod m = false → p.found? m = some D →
        p'.found? (r.onMember m) = some (r.onMember D) := by
  obtain ⟨pairs, hmoves, hnames, hplanned, hnodup, hfree⟩ := fieldPlan_spec holder p
  have hresettled := h.resettlement hplanned hnodup hfree
  have hholder : ∀ x ∈ pairs, x.2.owner = holder := fun x hx => by
    obtain ⟨y, -, -, howner, -⟩ := exists_of_mem_right hplanned hx
    exact howner
  have hdeclared : ∀ f ∈ p.fields, ∃ b, (f.key, b) ∈ p.declarations := fun f hf =>
    ⟨_, ((Part.ofFields.mem_declarations_iff h.sound _).2 ⟨f, hf, rfl⟩).1⟩
  -- Without moves the codebase is left as it is, and every reference with it.
  by_cases hempty : pairs = []
  · subst hempty
    have hself : ∀ m, (Renaming.ofFamilies (Families.ofCodebase p) []).onMember m = m := fun m => by
      rw [Renaming.onMember_ofFamilies]
      rfl
    refine ⟨0, Renaming.ofFamilies (Families.ofCodebase p) [], p, moveStaticFields_eq_self hmoves,
      h.distinct, ?_, ?_, ?_, ?_⟩
    · exact fun f hf => ⟨.inl (hself _), f, hf, (hself _).symm, rfl, rfl⟩
    · intro f _ g _ heq
      rwa [hself, hself] at heq
    · refine List.map_congr_left fun b _ => ?_
      rw [funext (Renaming.onInstruction_eq_self (Renaming.classes_ofFamilies []) hself)]
      exact (List.map_id' _).symm
    · intro m D _ hD
      rwa [hself, hself]
  -- Otherwise the fields arrive, and what is asked of them is asked of their arrival.
  · obtain ⟨q, hq, hmethods, harrived, hextends⟩ := h.arrived hresettled hplanned
    have hbodies : (q.modifyClass holder publishFields).bodies = p.bodies :=
      congrArg (List.filterMap Method.body) hmethods
    refine ⟨_, Renaming.ofFamilies (Families.ofCodebase p) pairs, _,
      moveStaticFields_eq hempty hmoves hnames hq,
      fun c hc => Part.ofFields.nodup_signatures harrived.sound hc (harrived.nodup c hc),
      ?_, ?_, ?_, ?_⟩
    · intro f hf
      constructor
      · obtain ⟨b, hb⟩ := hdeclared f hf
        rcases hresettled.onMember_cases hb with ⟨x, hx, -, hnew⟩ | ⟨-, hstay⟩
        · exact .inr (hnew ▸ hholder x hx)
        · exact .inl hstay
      · obtain ⟨f', hf', hkey, g, ⟨⟨flags, rfl⟩, -⟩, rfl⟩ := harrived.arrived f hf
        exact ⟨_, hf', hkey, rfl, rfl⟩
    · intro f hf g hg heq
      obtain ⟨b, hb⟩ := hdeclared f hf
      obtain ⟨b', hb'⟩ := hdeclared g hg
      exact hresettled.onMember_inj hb hb' heq
    · rw [instructions_apply _ (hbodies ▸ h.bodies), hbodies]
    · intro m D hm hD
      exact hresettled.found?_onMember h.sound harrived.sound hextends
        (fun m => ((Renaming.ofFamilies (Families.ofCodebase p) pairs).onMember m).owner = holder)
        (harrived.kept h.sound) (harrived.stems h.sound) (h.clear hresettled hholder) hm hD

/-! ### Two small codebases -/

/-- The static field `x` of a class. -/
def fieldX (owner : String) : Field :=
  { owner, name := "x", descriptor := "I", access := ⟨0x0009⟩ }

/-- A method that adds the field `x` as named through a class `A` and through a class `B`. -/
def addition : Method :=
  { owner := "B", name := "run", descriptor := "()I", access := ⟨0x0009⟩
    body := some
      { listing :=
          { nodes := #[⟨.field .getstatic ⟨"A", "x", "I"⟩, none⟩,
              ⟨.field .getstatic ⟨"B", "x", "I"⟩, none⟩, ⟨.plain ⟨96⟩, none⟩,
              ⟨.plain .ireturn, none⟩]
            order := #[0, 1, 2, 3] }
        maxStack := 2 } }

/-- A class `A` with the field, a subclass `B` with the method, and other classes. -/
def withAddition (fields : List Field) (others : List Class) : Codebase :=
  { classes :=
      { name := "A", superclass := some "java/lang/Object", access := ⟨0x0021⟩
        fields := [fieldX "A"] } ::
      { name := "B", superclass := some "A", access := ⟨0x0021⟩, fields
        methods := [addition] } :: others }

/-- The subclass inherits the field, and an unrelated class has a field of the same name. -/
def inheriting : Codebase :=
  withAddition [] [{ name := "C", superclass := some "java/lang/Object", access := ⟨0x0021⟩
                     fields := [fieldX "C"] }]

/-- The subclass hides the field by one of its own. -/
def shadowing : Codebase :=
  withAddition [fieldX "B"] []

/-- The fields of the classes may be gathered. -/
theorem gatherable_inheriting : Gatherable "H" inheriting := by
  have hsound : inheriting.Sound := ⟨by decide, by decide, by decide⟩
  refine ⟨hsound, by decide, by decide, ?_, by decide, by decide⟩
  intro x hx d hd hfamily
  obtain ⟨hc, hf, -⟩ := mem_movingFields hx
  have hfield : x.2.key = (fieldX "A").key ∨ x.2.key = (fieldX "C").key := by
    have hkeys : ∀ c ∈ inheriting.classes, ∀ k ∈ c.fields.map Field.key,
        k = (fieldX "A").key ∨ k = (fieldX "C").key := by decide
    exact hkeys _ hc _ (List.mem_map_of_mem hf)
  have hdeclared : ∀ d ∈ inheriting.declarations, d.1.name = "x" →
      d.1 = (fieldX "A").key ∨ d.1 = (fieldX "C").key := by decide
  obtain ⟨φ, hφ⟩ : ∃ φ, (Families.ofCodebase inheriting).family? d.1 = some φ := by
    obtain ⟨c, hc, hmem⟩ := List.mem_flatMap.1 hd
    exact Option.isSome_iff_exists.1
      (Families.isSome_family?_of_declared hc (mem_declared_of_members hmem))
  have hφ' := hfamily.symm.trans hφ
  -- `C` is connected with no other class, so the families of the two fields differ
  have hapart : ∀ {k k' : Member}, (Families.ofCodebase inheriting).family? k = some φ →
      (Families.ofCodebase inheriting).family? k' = some φ → k.owner = "C" → k = k' :=
    hsound.eq_of_family?_eq_of_apart (by decide)
      (List.mem_cons_of_mem _ (List.mem_cons_of_mem _ List.mem_cons_self)) rfl (by decide)
  have hname : d.1.name = "x" := by
    rw [(Families.eq_of_family?_eq hφ hφ').1]
    rcases hfield with h | h <;> rw [h] <;> rfl
  rcases hdeclared d hd hname with hdA | hdC
  · rcases hfield with hA | hC
    · rw [hdA, hA]
    · exact (hapart hφ' hφ (congrArg Member.owner hC)).symm
  · exact hapart hφ hφ' (congrArg Member.owner hdC)

/-- The moved field is found under its new name, also through the class that inherits it. -/
theorem found?_moveStaticFields_inheriting :
    Gatherable "H" inheriting ∧
    inheriting.found? ⟨"B", "x", "I"⟩ = some (fieldX "A").key ∧
    inheriting.found? (fieldX "C").key = some (fieldX "C").key ∧
    ∃ (n : Nat) (r : Renaming) (p' : Codebase),
      moveStaticFields "H" inheriting = { result := .ok n, codebase := p' } ∧
      (∀ c ∈ p'.classes, (c.fields.map fun f => (f.name, f.descriptor)).Nodup) ∧
      p'.found? (r.onMember ⟨"B", "x", "I"⟩) = some (r.onMember (fieldX "A").key) ∧
      p'.found? (r.onMember (fieldX "C").key) = some (r.onMember (fieldX "C").key) ∧
      r.onMember (fieldX "A").key ≠ r.onMember (fieldX "C").key := by
  have h := gatherable_inheriting
  have hB : inheriting.found? ⟨"B", "x", "I"⟩ = some (fieldX "A").key := by
    have hparent := h.sound.supertype_mem_ancestors (List.mem_cons_of_mem _ List.mem_cons_self)
      List.mem_cons_self (List.mem_cons_self : "A" ∈ ["A"])
    refine h.sound.found?_eq_of_unique hparent (by decide) fun n hn hshows => ?_
    -- `C` would show a field as well but is no supertype of any class
    have hsupertypes : ∀ c ∈ inheriting.classes, ∀ n ∈ c.supertypes,
        n = "java/lang/Object" ∨ n = "A" := by decide
    rcases Hierarchy.eq_or_supertype_of_mem_ancestors h.sound.distinct hn with rfl | ⟨c, hc, hsuper⟩
    · exact absurd hshows (by decide)
    · rcases hsupertypes c hc n hsuper with rfl | rfl
      · exact absurd hshows (by decide)
      · rfl
  have hC : inheriting.found? (fieldX "C").key = some (fieldX "C").key :=
    h.sound.found_own (b := false) (by decide)
  obtain ⟨n, r, p', heq, hdistinct, -, happart, -, hfound⟩ := found?_moveStaticFields h
  refine ⟨h, hB, hC, n, r, p', heq, hdistinct, hfound _ _ (by decide) hB,
    hfound _ _ (by decide) hC, fun hsame => ?_⟩
  have hfields : inheriting.fields = [fieldX "A", fieldX "C"] := rfl
  exact absurd (happart (fieldX "A") (hfields ▸ List.mem_cons_self) (fieldX "C")
    (hfields ▸ List.mem_cons_of_mem _ List.mem_cons_self) hsame) (by decide)

/-- The fields of both classes are to move. -/
theorem movingFields_shadowing : movingFields "H" shadowing =
    shadowing.classes.zip [fieldX "A", fieldX "B"] := by
  have hpinned : fieldReferences (shadowing.methods.filter Method.isInitializer) = [] := rfl
  have hfree : ∀ m, belongsTo (Families.ofCodebase shadowing)
      (familiesOf (Families.ofCodebase shadowing) []) m = false := by
    intro m
    rw [belongsTo, familiesOf, List.foldl_nil]
    cases (Families.ofCodebase shadowing).family? m with
    | none => rfl
    | some φ => simp
  rw [movingFields, hpinned]
  simp only [hfree]
  rfl

/-- The new references that are planned for the two fields. -/
def shadowingPairs : List (Member × Member) :=
  [((fieldX "A").key, ⟨"H", "x", "I"⟩), ((fieldX "B").key, ⟨"H", "B_x", "I"⟩)]

/-- The second field that moves finds its name taken. -/
theorem fieldPlan_shadowing :
    (fieldPlan "H" shadowing).moves = (shadowingPairs.map fun x => (x.1, "H")).reverse ∧
    (fieldPlan "H" shadowing).names =
      Renaming.ofFamilies (Families.ofCodebase shadowing) shadowingPairs := by
  have hmoving : movingFields "H" shadowing =
      [(shadowing.classes[0], fieldX "A"), (shadowing.classes[1], fieldX "B")] :=
    movingFields_shadowing
  have htaken : (shadowing.class? "H").map (·.fields) = none := rfl
  have hfirst : freeName ∅ shadowing.classes[0] (fieldX "A") = "x" := by
    simp [freeName, holderNames, fieldX]
  have hsecond : freeName (Std.HashSet.insert ∅ ("x", (fieldX "A").descriptor))
      shadowing.classes[1] (fieldX "B") = "B_x" := by
    have hsimple : simpleName shadowing.classes[1].name = "B" := by decide
    rw [freeName, hsimple]
    simp [holderNames, fieldX]
  rw [fieldPlan_eq, hmoving, htaken, Option.getD_none, List.foldl_nil, List.foldl_cons,
    List.foldl_cons, List.foldl_nil]
  simp only [planField, hfirst, hsecond]
  exact ⟨rfl, rfl⟩

/-- Both references are linked, and the name that was planned last is written for both. -/
theorem onMember_shadowing :
    (Renaming.ofFamilies (Families.ofCodebase shadowing) shadowingPairs).onMember
      (fieldX "A").key = ⟨"H", "B_x", "I"⟩ ∧
    (Renaming.ofFamilies (Families.ofCodebase shadowing) shadowingPairs).onMember
      (fieldX "B").key = ⟨"H", "B_x", "I"⟩ := by
  have hsound : shadowing.Sound := ⟨by decide, by decide, by decide⟩
  have hA : shadowing.classes[0] ∈ shadowing.classes := List.mem_cons_self
  have hB : shadowing.classes[1] ∈ shadowing.classes := List.mem_cons_of_mem _ List.mem_cons_self
  have hlink : ((fieldX "A").key, (fieldX "B").key) ∈ Families.links shadowing :=
    mem_links hsound.distinct hB hA
      (hsound.supertype_mem_ancestors hB hA (List.mem_cons_self : "A" ∈ ["A"])) (by decide)
      (by decide : (fieldX "A").key ∈ inheritable shadowing.classes[0])
  obtain ⟨hsome, hfamily⟩ := Families.family?_eq_of_link hlink
  obtain ⟨φ, hφ⟩ := Option.isSome_iff_exists.1 hsome
  have hlinkedA : (fieldX "A").key ∈ (Families.ofCodebase shadowing).linked (fieldX "B").key :=
    (Families.mem_linked_iff (hfamily ▸ hφ)).2 hφ
  have hlinkedB : (fieldX "B").key ∈ (Families.ofCodebase shadowing).linked (fieldX "B").key :=
    (Families.mem_linked_iff (hfamily ▸ hφ)).2 (hfamily ▸ hφ)
  rw [Renaming.onMember_ofFamilies, Renaming.onMember_ofFamilies]
  simp [shadowingPairs, hlinkedA, hlinkedB]

/-- The holder declares two fields of one name, and the method adds the later one to itself. -/
theorem moveStaticFields_shadowing :
    (shadowing.classes.map (·.name)).Nodup ∧
    (∀ c ∈ shadowing.classes, (c.fields.map fun f => (f.name, f.descriptor)).Nodup) ∧
    shadowing.found? (fieldX "A").key = some (fieldX "A").key ∧
    shadowing.found? (fieldX "B").key = some (fieldX "B").key ∧
    shadowing.bodies.map (·.listing.instructions) =
      [[.field .getstatic (fieldX "A").key, .field .getstatic (fieldX "B").key, .plain ⟨96⟩,
        .plain .ireturn]] ∧
    ∃ p', moveStaticFields "H" shadowing = { result := .ok 2, codebase := p' } ∧
      p'.classes.map (fun c => (c.name, c.fields.map Field.key)) =
        [("A", []), ("B", []), ("H", [⟨"H", "B_x", "I"⟩, ⟨"H", "B_x", "I"⟩])] ∧
      p'.bodies.map (·.listing.instructions) =
        [[.field .getstatic ⟨"H", "B_x", "I"⟩, .field .getstatic ⟨"H", "B_x", "I"⟩, .plain ⟨96⟩,
          .plain .ireturn]] := by
  have hsound : shadowing.Sound := ⟨by decide, by decide, by decide⟩
  obtain ⟨hmoves, hnames⟩ := fieldPlan_shadowing
  obtain ⟨hA, hB⟩ := onMember_shadowing
  -- Moves and publication compute; the classes of the result are then renamed name by name.
  obtain ⟨q, hq, hclasses, hbodies⟩ : ∃ q : Codebase,
      relocate (ensureHolder "H" shadowing) (shadowingPairs.map fun x => (x.1, "H")) =
        ([], .ok (2, q)) ∧
      (q.modifyClass "H" publishFields).classes.map (fun c => (c.name, c.fields)) =
        [("A", []), ("B", []), ("H", [fieldX "A", fieldX "B"])] ∧
      (q.modifyClass "H" publishFields).bodies = shadowing.bodies := ⟨_, rfl, rfl, rfl⟩
  let r := Renaming.ofFamilies (Families.ofCodebase shadowing) shadowingPairs
  have hname : ∀ n, r.onClassName n = n := Renaming.onClassName_ofFamilies _
  refine ⟨by decide, by decide, hsound.found_own (b := false) (by decide),
    hsound.found_own (b := false) (by decide), rfl, _,
    moveStaticFields_eq (List.cons_ne_nil _ _) hmoves hnames hq, ?_, ?_⟩
  · have hkeys : ∀ c : Class, ((r.onClass c).name, (r.onClass c).fields.map Field.key) =
        (c.name, c.fields.map fun f => (r.onMember f.key).withOwner c.name) := by
      intro c
      rw [Renaming.onClass]
      dsimp only
      rw [hname, List.map_map]
      rfl
    have hmap := congrArg (List.map fun x : String × List Field =>
      (x.1, x.2.map fun f => (r.onMember f.key).withOwner x.1)) hclasses
    rw [List.map_map] at hmap
    rw [Renaming.apply, List.map_map]
    refine (List.map_congr_left fun c _ => hkeys c).trans (hmap.trans ?_)
    simp [r, hA, hB, Member.withOwner]
  · rw [instructions_apply _ (by rw [hbodies]; decide), hbodies]
    have hinstructions : shadowing.bodies.map (·.listing.instructions) =
      [[.field .getstatic (fieldX "A").key, .field .getstatic (fieldX "B").key, .plain ⟨96⟩,
        .plain .ireturn]] := rfl
    have hmap := congrArg (List.map (List.map r.onInstruction)) hinstructions
    rw [List.map_map] at hmap
    refine Eq.trans hmap ?_
    simp [Renaming.onInstruction, r, hA, hB]

end Unscramble.Tidy
