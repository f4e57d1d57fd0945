import Unscramble.Proofs.Naming.Staying

/-! # Transfers

A move that is made takes a member out of its class and appends it to another one. The check sees
only the members that are there at first, but every member that comes later is static; so if no class
declares a member twice, a reference that has passed the check names nothing else than static members
for the rest of the relocation, whatever else has moved by then.

Main definitions: `Codebase.DistinctMembers`, `Transfer`, `Transfers`, `Class.KeepsInstances`,
`StaticOnly`. Main statements: `exists_transfers`, `Transfers.relocated`. -/

namespace Unscramble

open scoped List

/-- No class declares two fields or two methods of one name and descriptor. -/
def Codebase.DistinctMembers (p : Codebase) : Prop :=
  ∀ c ∈ p.classes, (c.fields.map fun f => (f.name, f.descriptor)).Nodup ∧
    (c.methods.map fun m => (m.name, m.descriptor)).Nodup

/-- A class with other static members: those of its instances are the same in the same order, and
nothing but the members differs. -/
structure Class.KeepsInstances (c c' : Class) : Prop where
  /-- Only the members differ. -/
  frame : c' = { c with fields := c'.fields, methods := c'.methods }
  /-- The fields of instances. -/
  fields : c'.instanceFields = c.instanceFields
  /-- The methods of instances. -/
  methods : c'.instanceMethods = c.instanceMethods

namespace Class.KeepsInstances

/-- A class keeps the members of its instances. -/
protected theorem refl (c : Class) : c.KeepsInstances c :=
  ⟨rfl, rfl, rfl⟩

/-- What is kept in two steps is kept. -/
protected theorem trans {c c' c'' : Class} (h : c.KeepsInstances c') (h' : c'.KeepsInstances c'') :
    c.KeepsInstances c'' := by
  refine ⟨?_, h'.fields.trans h.fields, h'.methods.trans h.methods⟩
  calc c'' = { c' with fields := c''.fields, methods := c''.methods } := h'.frame
    _ = { c with fields := c''.fields, methods := c''.methods } := by rw [h.frame]

end Class.KeepsInstances

/-- Two classes of a codebase that change one after the other. -/
theorem forall₂_modifyClass {R : Class → Class → Prop} (hrefl : ∀ c, R c c)
    (htrans : ∀ c c' c'', R c c' → R c' c'' → R c c'') {p : Codebase} {f g : Class → Class}
    {owner target : String} (hf : ∀ c, p.class? owner = some c → R c (f c)) (hg : ∀ c, R c (g c)) :
    List.Forall₂ R p.classes ((p.modifyClass owner f).modifyClass target g).classes := by
  have hfirst : List.Forall₂ R p.classes (p.modifyClass owner f).classes :=
    forall₂_modifyFirst hrefl hf
  have hsecond : List.Forall₂ R (p.modifyClass owner f).classes
      ((p.modifyClass owner f).modifyClass target g).classes :=
    forall₂_modifyFirst hrefl fun c _ => hg c
  exact forall₂_trans htrans hfirst hsecond

namespace Naming

variable {p p₁ p' : Codebase} {move : Move} {moves performed : List Move} {m k : Member}
  {target : String} {n : Nat}

/-! ### One step -/

/-- The first static member of the name and descriptor of a reference leaves the class of the
reference and comes last in another class of the codebase. -/
inductive Transfer (p : Codebase) : Move → Codebase → Prop
  | method {m : Member} {target : String} {c : Class} {method : Method}
    (hkind : isMethod m = true) (howner : p.class? m.owner = some c) (hne : m.owner ≠ target)
    (hfound : c.method? m.name m.descriptor = some method) (hstatic : method.isStatic = true)
    (htarget : (p.class? target).isSome = true) :
    Transfer p (m, target) (moveMethod p m target method)
  | field {m : Member} {target : String} {c : Class} {field : Field}
    (hkind : isMethod m = false) (howner : p.class? m.owner = some c) (hne : m.owner ≠ target)
    (hfound : c.field? m.name m.descriptor = some field) (hstatic : field.isStatic = true)
    (htarget : (p.class? target).isSome = true) :
    Transfer p (m, target) (moveField p m target field)

/-- Transfers one after the other. -/
inductive Transfers : Codebase → List Move → Codebase → Prop
  | nil {p : Codebase} : Transfers p [] p
  | cons {p p₁ p' : Codebase} {move : Move} {moves : List Move} (hfirst : Transfer p move p₁)
    (hrest : Transfers p₁ moves p') : Transfers p (move :: moves) p'

/-- A codebase whose static members are in other classes: it has the same members, every class keeps
those of its instances in order, and nothing else differs. -/
structure Relocated (p p' : Codebase) : Prop where
  /-- The methods of all classes together. -/
  methods : p'.methods ~ p.methods
  /-- The fields of all classes together. -/
  fields : p'.fields ~ p.fields
  /-- The classes one by one. -/
  classes : List.Forall₂ Class.KeepsInstances p.classes p'.classes
  /-- The name table. -/
  nameTable : p'.nameTable = p.nameTable

/-- Nothing is relocated where nothing moves. -/
theorem Relocated.refl (p : Codebase) : Relocated p p :=
  ⟨.refl _, .refl _, List.forall₂_same.2 fun c _ => .refl c, rfl⟩

/-- What is relocated in two steps is relocated. -/
theorem Relocated.trans (h : Relocated p p₁) (h' : Relocated p₁ p') : Relocated p p' :=
  ⟨h'.methods.trans h.methods, h'.fields.trans h.fields,
    forall₂_trans (fun _ _ _ h h' => h.trans h') h.classes h'.classes,
    h'.nameTable.trans h.nameTable⟩

/-- A step keeps all members, and every instance its own. -/
theorem Transfer.relocated (h : Transfer p move p') : Relocated p p' := by
  -- a static member leaves one list and joins another, and neither is seen among those of instances
  cases h with
  | method hkind howner hne hfound hstatic htarget =>
    obtain ⟨hmethods, hfields⟩ := moveMethod_perm howner hfound htarget
    refine ⟨hmethods, hfields, ?_, rfl⟩
    refine forall₂_modifyClass Class.KeepsInstances.refl (fun _ _ _ h h' => h.trans h') ?_ ?_
    · intro d hd
      obtain rfl := Option.some_inj.1 (howner.symm.trans hd)
      exact ⟨rfl, rfl, filter_eraseP_of_find? hfound (by simp [hstatic])⟩
    · intro d
      exact ⟨rfl, rfl, by simp [Class.instanceMethods, hstatic]⟩
  | field hkind howner hne hfound hstatic htarget =>
    obtain ⟨hmethods, hfields⟩ := moveField_perm howner hfound htarget
    refine ⟨hmethods, hfields, ?_, rfl⟩
    refine forall₂_modifyClass Class.KeepsInstances.refl (fun _ _ _ h h' => h.trans h') ?_ ?_
    · intro d hd
      obtain rfl := Option.some_inj.1 (howner.symm.trans hd)
      exact ⟨rfl, filter_eraseP_of_find? hfound (by simp [hstatic]), rfl⟩
    · intro d
      exact ⟨rfl, by simp [Class.instanceFields, hstatic], rfl⟩

/-- Transfers relocate. -/
theorem Transfers.relocated (h : Transfers p moves p') : Relocated p p' := by
  induction h with
  | nil => exact Relocated.refl _
  | cons hfirst _ ih => exact hfirst.relocated.trans ih

/-! ### References to static members -/

/-- All members that a reference names in its class are static. -/
def StaticOnly (p : Codebase) (m : Member) : Prop :=
  ∀ c, p.class? m.owner = some c →
    (isMethod m = true → ∀ method ∈ c.methods,
      Method.isNamed m.name m.descriptor method = true → method.isStatic = true) ∧
    (isMethod m = false → ∀ field ∈ c.fields,
      Field.isNamed m.name m.descriptor field = true → field.isStatic = true)

/-- Of items without a common key, the first one with a key is the only one. -/
theorem eq_of_find?_of_nodup {α κ : Type} {key : α → κ} {q : α → Bool} {as : List α} {a b : α}
    (hnodup : (as.map key).Nodup) (hq : ∀ a b, q a = true → q b = true → key a = key b)
    (ha : as.find? q = some a) (hb : b ∈ as) (hqb : q b = true) : b = a :=
  List.inj_on_of_nodup_map hnodup hb (List.mem_of_find?_eq_some ha)
    (hq b a hqb (List.find?_some ha))

/-- A member of a list with one more item at the end is old or that item. -/
theorem mem_or_of_mem_concat {α : Type} {good : α → Bool} {as : List α} {a b : α}
    (ha : good a = true) (hb : b ∈ as ++ [a]) : b ∈ as ∨ good b = true := by
  rcases List.mem_append.1 hb with hb | hb
  · exact .inl hb
  · rw [List.mem_singleton.1 hb]
    exact .inr ha

/-- What has passed the check names one member, which is static. -/
theorem staticOnly_of_checkMove (hp : p.DistinctMembers) (h : checkMove p move = .valid) :
    StaticOnly p move.1 := by
  intro c hc
  obtain ⟨hfields, hmethods⟩ := hp c (List.mem_of_find?_eq_some hc)
  have hstatic : isStaticIn? c move.1 = some true := by
    rw [checkMove, hc, Option.bind_some] at h
    split at h
    · cases h
    · split at h <;> first | assumption | cases h
  unfold isStaticIn? at hstatic
  refine ⟨fun hkind method hmem hnamed => ?_, fun hkind field hmem hnamed => ?_⟩
  · rw [if_pos hkind] at hstatic
    obtain ⟨found, hfound, hstatic⟩ := Option.map_eq_some_iff.1 hstatic
    rwa [eq_of_find?_of_nodup hmethods ?_ hfound hmem hnamed]
    intro a b ha hb
    simp only [Method.isNamed, Bool.and_eq_true, beq_iff_eq] at ha hb
    rw [ha.1, ha.2, hb.1, hb.2]
  · rw [if_neg (by simp [hkind])] at hstatic
    obtain ⟨found, hfound, hstatic⟩ := Option.map_eq_some_iff.1 hstatic
    rwa [eq_of_find?_of_nodup hfields ?_ hfound hmem hnamed]
    intro a b ha hb
    simp only [Field.isNamed, Bool.and_eq_true, beq_iff_eq] at ha hb
    rw [ha.1, ha.2, hb.1, hb.2]

/-- A change of a class that brings in only static members. -/
theorem StaticOnly.modifyClass (hk : StaticOnly p k) {f : Class → Class}
    (hname : ∀ c, (f c).name = c.name)
    (hmethods : ∀ c, ∀ method ∈ (f c).methods, method ∈ c.methods ∨ method.isStatic = true)
    (hfields : ∀ c, ∀ field ∈ (f c).fields, field ∈ c.fields ∨ field.isStatic = true)
    (name : String) : StaticOnly (p.modifyClass name f) k := by
  intro c hc
  rw [Codebase.class?_modifyClass hname] at hc
  split at hc
  · obtain ⟨d, hd, rfl⟩ := Option.map_eq_some_iff.1 hc
    refine ⟨fun hkind method hmem hnamed => ?_, fun hkind field hmem hnamed => ?_⟩
    · exact (hmethods d method hmem).elim (fun hmem => (hk d hd).1 hkind method hmem hnamed) id
    · exact (hfields d field hmem).elim (fun hmem => (hk d hd).2 hkind field hmem hnamed) id
  · exact hk c hc

/-- A step leaves every reference that names only static members one that does. -/
theorem StaticOnly.transfer (hk : StaticOnly p k) (h : Transfer p move p') : StaticOnly p' k := by
  cases h with
  | @method m target c method hkind howner hne hfound hstatic htarget =>
    unfold moveMethod
    refine StaticOnly.modifyClass (hk.modifyClass ?_ ?_ ?_ _) ?_ ?_ ?_ _
    · exact fun c => rfl
    · exact fun c d hd => .inl (List.mem_of_mem_eraseP hd)
    · exact fun c d hd => .inl hd
    · exact fun c => rfl
    · exact fun c d hd => mem_or_of_mem_concat hstatic hd
    · exact fun c d hd => .inl hd
  | @field m target c field hkind howner hne hfound hstatic htarget =>
    unfold moveField
    refine StaticOnly.modifyClass (hk.modifyClass ?_ ?_ ?_ _) ?_ ?_ ?_ _
    · exact fun c => rfl
    · exact fun c d hd => .inl hd
    · exact fun c d hd => .inl (List.mem_of_mem_eraseP hd)
    · exact fun c => rfl
    · exact fun c d hd => .inl hd
    · exact fun c d hd => mem_or_of_mem_concat hstatic hd

/-- A step takes no class away. -/
theorem Transfer.isSome_class? (h : Transfer p move p') (name : String) :
    (p'.class? name).isSome = (p.class? name).isSome := by
  cases h with
  | method =>
    refine (Codebase.isSome_class?_modifyClass ?_ _ _ _).trans
      (Codebase.isSome_class?_modifyClass ?_ _ _ _)
    · exact fun c => rfl
    · exact fun c => rfl
  | field =>
    refine (Codebase.isSome_class?_modifyClass ?_ _ _ _).trans
      (Codebase.isSome_class?_modifyClass ?_ _ _ _)
    · exact fun c => rfl
    · exact fun c => rfl

/-! ### All steps -/

/-- A move of static members is not made, or is one step and counts. -/
theorem makeMove_transfer (hm : StaticOnly p m) (htarget : (p.class? target).isSome = true)
    (n : Nat) : makeMove (n, p) (m, target) = (n, p) ∨
      ∃ p', makeMove (n, p) (m, target) = (n + 1, p') ∧ Transfer p (m, target) p' := by
  rcases makeMove_cases n p m target with heq | ⟨c, hc, hne, ⟨hkind, method, hfound, heq⟩ |
    ⟨hkind, field, hfound, heq⟩⟩
  · exact .inl heq
  · have hstatic := (hm c hc).1 hkind method (List.mem_of_find?_eq_some hfound)
      (List.find?_some hfound)
    exact .inr ⟨_, heq, .method hkind hc hne hfound hstatic htarget⟩
  · have hstatic := (hm c hc).2 hkind field (List.mem_of_find?_eq_some hfound)
      (List.find?_some hfound)
    exact .inr ⟨_, heq, .field hkind hc hne hfound hstatic htarget⟩

/-- Moves of static members into classes that are there are steps, and the count is their number. -/
theorem exists_transfers (hmoves : ∀ move ∈ moves, StaticOnly p move.1)
    (htargets : ∀ move ∈ moves, (p.class? move.2).isSome = true) (n : Nat) :
    ∃ performed, performed.Sublist moves ∧
      (moves.foldl makeMove (n, p)).1 = n + performed.length ∧
      Transfers p performed (moves.foldl makeMove (n, p)).2 := by
  -- what has passed the check is static whatever has moved, so it stays so for the moves to come
  induction moves generalizing n p with
  | nil => exact ⟨[], .slnil, rfl, .nil⟩
  | cons move moves ih =>
    obtain ⟨hmove, hmoves⟩ := List.forall_mem_cons.1 hmoves
    obtain ⟨htarget, htargets⟩ := List.forall_mem_cons.1 htargets
    rw [List.foldl_cons]
    rcases makeMove_transfer hmove htarget n with heq | ⟨p₁, heq, hstep⟩
    · obtain ⟨performed, hsub, hcount, hsteps⟩ := ih hmoves htargets n
      rw [show makeMove (n, p) move = (n, p) from heq]
      exact ⟨performed, hsub.cons move, hcount, hsteps⟩
    · obtain ⟨performed, hsub, hcount, hsteps⟩ := ih
        (fun move' hmove' => (hmoves move' hmove').transfer hstep)
        (fun move' hmove' => (hstep.isSome_class? _).trans (htargets move' hmove')) (n + 1)
      rw [show makeMove (n, p) move = (n + 1, p₁) from heq]
      refine ⟨move :: performed, hsub.cons_cons move, ?_, .cons hstep hsteps⟩
      rw [hcount, List.length_cons]
      omega

end Naming

end Unscramble
