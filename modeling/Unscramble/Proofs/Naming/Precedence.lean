import Unscramble.Proofs.Naming.Finding
import Unscramble.Proofs.Naming.Relocation
import Unscramble.Proofs.Naming.Stability

/-! # What a name table decides for families

A family of members gets one name, and the first of its members that is met decides which: if the
name table has an entry for that member, the whole family is called as the entry says. Entries for
other members of the family are not looked at.

Main definitions: `visited`, `Renaming.Redeclares`. Main statements: `name_onMember_of_first`,
`redeclares_rename`, `name_of_entry`, `rename_overlooks_entry`. -/

namespace Unscramble.Naming

open scoped List

/-- The key of a class in a name table; of several classes with one name the last gives it. -/
def ownerKey (p : Codebase) (c : Class) : String :=
  ((p.classes.reverse.find? (·.name == c.name)).map classKey).getD c.name

/-- The declarations that may get new names, in the order in which they are met. -/
def visited (policy : Policy) (p : Codebase) : List Candidate :=
  p.classes.flatMap fun c => candidates policy (ownerKey p c) c

namespace Assignment

variable {policy : Policy} {defaultPackage : String} {p : Codebase} {table : Table} {φ : Nat}
  {present : Std.HashMap String String} {a b : Assignment} {c : Class} {x : Candidate}
  {m : Member}

/-- The assignment when the classes of a codebase are named. -/
def ofClasses (policy : Policy) (defaultPackage : String) (p : Codebase) (table : Table) :
    Assignment :=
  p.classes.foldl (nameClass policy defaultPackage) (start table)

/-! ### Steps that leave a family alone -/

/-- A step that decides nothing about a family and keeps what the table says. -/
structure Leaves (p : Codebase) (φ : Nat) (a b : Assignment) : Prop where
  /-- The references of the family keep their new names. -/
  members : ∀ m : Member, (Families.ofCodebase p).family? m = some φ →
    b.names.members[m]? = a.names.members[m]?
  /-- The family stays decided or undecided. -/
  decided : b.decided.contains φ = a.decided.contains φ
  /-- The entries of the table stay. -/
  entries : ∀ key mapping, a.table.get? key = some mapping → b.table.get? key = some mapping

namespace Leaves

/-- A step that does nothing leaves a family alone. -/
protected theorem refl (p : Codebase) (φ : Nat) (a : Assignment) : Leaves p φ a a :=
  ⟨fun _ _ => rfl, rfl, fun _ _ h => h⟩

/-- Two steps that leave a family alone leave it alone together. -/
protected theorem trans {d : Assignment} (h : Leaves p φ a b) (h' : Leaves p φ b d) :
    Leaves p φ a d where
  members m hm := (h'.members m hm).trans (h.members m hm)
  decided := h'.decided.trans h.decided
  entries key mapping hget := h'.entries key mapping (h.entries key mapping hget)

/-- Steps that leave the family alone while a condition lasts that they keep. -/
theorem foldl {α : Type} {step : Assignment → α → Assignment} {xs : List α}
    {P : Assignment → Prop} (hP : ∀ a b, Leaves p φ a b → P a → P b) (ha : P a)
    (hstep : ∀ a, P a → ∀ x ∈ xs, Leaves p φ a (step a x)) :
    Leaves p φ a (xs.foldl step a) := by
  refine (List.foldlRecOn xs step (motive := fun b => Leaves p φ a b ∧ P b)
    ⟨.refl p φ a, ha⟩ fun b hb x hx => ?_).1
  have hnext := hstep b hb.2 x hx
  exact ⟨hb.1.trans hnext, hP b _ hnext hb.2⟩

end Leaves

/-- Naming a class decides nothing about members. -/
theorem leaves_nameClass (a : Assignment) (c : Class) :
    Leaves p φ a (nameClass policy defaultPackage a c) := by
  have hframe := namesClass_nameClass policy defaultPackage a c
  refine ⟨fun m _ => ?_, ?_, fun _ _ => hframe.table.get?⟩
  · rw [hframe.members]
  · rw [hframe.decided]

/-- Choosing a name decides nothing yet. -/
theorem leaves_chooseMapping (a : Assignment) (x : Candidate) :
    Leaves p φ a (chooseMapping a x).2 := by
  have hframe := chooses_chooseMapping a x
  refine ⟨fun m _ => ?_, ?_, fun _ _ => hframe.table.get?⟩
  · rw [hframe.names]
  · rw [hframe.decided]

/-- Naming a family leaves others alone. -/
theorem leaves_followMapping {ψ : Nat} (hψ : (Families.ofCodebase p).family? x.member = some ψ)
    (hne : ψ ≠ φ) (mapping? : Option Mapping) (a : Assignment) :
    Leaves p φ a (followMapping (Families.ofCodebase p) present x mapping? a) := by
  cases mapping? with
  | none => exact .refl p φ a
  | some mapping =>
    obtain ⟨b, target, hfollow, -, hnames, htable, -, hdecided, -⟩ :=
      followMapping_some (Families.ofCodebase p) present x mapping a
    rw [hfollow]
    refine ⟨fun m hm => ?_, congrArg (·.contains φ) hdecided, fun key old hget => ?_⟩
    · have hother : m ∉ (Families.ofCodebase p).linked x.member := by
        rw [Families.mem_linked_iff hψ, hm, Option.some_inj]
        exact hne.symm
      rw [(mapFamily_spec _ b x.member mapping.name target).2 m, if_neg hother, hnames]
    · exact (congrArg (Table.get? · key) htable).trans hget

/-- A member of another family decides nothing about a family, and no member does once the family is
decided. -/
theorem leaves_nameMember (h : (Families.ofCodebase p).family? x.member ≠ some φ ∨
    a.decided.contains φ = true) :
    Leaves p φ a (nameMember (Families.ofCodebase p) present a x) := by
  cases hψ : (Families.ofCodebase p).family? x.member with
  | none =>
    rw [nameMember, hψ]
    exact .refl p φ a
  | some ψ =>
    rw [nameMember_of_family hψ]
    split
    · exact .refl p φ a
    · next hundecided =>
      have hne : ψ ≠ φ := by
        rintro rfl
        exact h.elim (· hψ) hundecided
      have hmark : Leaves p φ a (markDecided ψ a) := by
        refine ⟨fun _ _ => rfl, ?_, fun _ _ h => h⟩
        rw [markDecided, Std.HashSet.contains_insert, beq_false_of_ne hne, Bool.false_or]
      exact (hmark.trans (leaves_chooseMapping _ x)).trans (leaves_followMapping hψ hne _ _)

/-! ### The step that decides -/

/-- What is chosen does not depend on what is decided. -/
theorem chooseMapping_markDecided (φ : Nat) (a : Assignment) (x : Candidate) :
    (chooseMapping (markDecided φ a) x).1 = (chooseMapping a x).1 := by
  simp only [chooseMapping, markDecided]
  split
  · rfl
  · split
    · rfl
    · split <;> rfl

/-- The first member of a family that is met decides what all its references are called. -/
theorem nameMember_decides (present : Std.HashMap String String)
    (hφ : (Families.ofCodebase p).family? x.member = some φ)
    (hundecided : a.decided.contains φ = false) :
    (nameMember (Families.ofCodebase p) present a x).decided.contains φ = true ∧
      ∀ m, (Families.ofCodebase p).family? m = some φ → a.names.members[m]? = none →
        ((nameMember (Families.ofCodebase p) present a x).names.members[m]?).map (·.name) =
          (chooseMapping a x).1.map Mapping.name := by
  have hmark : (markDecided φ a).decided.contains φ = true := by simp [markDecided]
  have hchoice := leaves_chooseMapping (p := p) (φ := φ) (markDecided φ a) x
  rw [nameMember_of_family hφ, if_neg (by simp [hundecided]), ← chooseMapping_markDecided φ]
  dsimp only
  generalize chooseMapping (markDecided φ a) x = choice at hchoice
  obtain ⟨mapping?, b⟩ := choice
  -- Nothing chosen leaves the references as they were; a mapping is given to the whole family.
  cases mapping? with
  | none =>
    refine ⟨hchoice.decided.trans hmark, fun m hm hnone => ?_⟩
    rw [followMapping, hchoice.members m hm]
    exact congrArg (Option.map (·.name)) hnone
  | some mapping =>
    obtain ⟨d, target, hfollow, -, hnames, -, -, hdecided, -⟩ :=
      followMapping_some (Families.ofCodebase p) present x mapping b
    rw [hfollow]
    refine ⟨?_, fun m hm _ => ?_⟩
    · exact (congrArg (·.contains φ) hdecided).trans (hchoice.decided.trans hmark)
    · rw [(mapFamily_spec _ d x.member mapping.name target).2 m,
        if_pos ((Families.mem_linked_iff hφ).2 hm)]
      rfl

/-! ### Whole runs -/

/-- The key of a class, when all classes are named. -/
theorem getD_classKeys_ofClasses (policy : Policy) (defaultPackage : String) (p : Codebase)
    (table : Table) (c : Class) :
    ((ofClasses policy defaultPackage p table).classKeys[c.name]?).getD c.name = ownerKey p c := by
  have hfold : ∀ (cs : List Class) (a : Assignment),
      (cs.foldl (nameClass policy defaultPackage) a).classKeys[c.name]? =
        ((cs.reverse.find? (·.name == c.name)).map classKey).or a.classKeys[c.name]? := by
    intro cs
    induction cs with
    | nil => exact fun a => rfl
    | cons d cs ih =>
      intro a
      rw [List.foldl_cons, ih, (namesClass_nameClass policy defaultPackage a d).classKeys,
        Std.HashMap.getElem?_insert, List.reverse_cons, List.find?_append]
      cases cs.reverse.find? (·.name == c.name) with
      | some e => rfl
      | none =>
        by_cases hd : d.name == c.name <;> simp [hd]
  rw [ofClasses, hfold, ownerKey, start, Std.HashMap.getElem?_empty, Option.or_none]

/-- Naming a member uses no key of a class. -/
theorem classKeys_nameMember (families : Families) (a : Assignment) (x : Candidate) :
    (nameMember families present a x).classKeys = a.classKeys := by
  cases hφ : families.family? x.member with
  | none => rw [nameMember, hφ]
  | some φ =>
    rw [nameMember_of_family hφ]
    split
    · rfl
    · rw [classKeys_followMapping, (chooses_chooseMapping (markDecided φ a) x).classKeys]
      rfl

/-- Naming members uses no key of a class. -/
theorem classKeys_foldl_nameMember (families : Families) (xs : List Candidate) (a : Assignment) :
    (xs.foldl (nameMember families present) a).classKeys = a.classKeys := by
  induction xs generalizing a with
  | nil => rfl
  | cons x xs ih => rw [List.foldl_cons, ih, classKeys_nameMember]

/-- The names of a codebase are assigned to its classes and then to what is met in them. -/
theorem ofCodebase_eq_foldl (policy : Policy) (defaultPackage : String) (p : Codebase)
    (table : Table) :
    ofCodebase policy defaultPackage p table =
      (visited policy p).foldl (nameMember (Families.ofCodebase p)
        (presentNames p (ofClasses policy defaultPackage p table).names))
        (ofClasses policy defaultPackage p table) := by
  have hfold : ∀ present (cs : List Class) (a : Assignment),
      a.classKeys = (ofClasses policy defaultPackage p table).classKeys →
      cs.foldl (nameMembers policy (Families.ofCodebase p) present) a =
        (cs.flatMap fun c => candidates policy (ownerKey p c) c).foldl
          (nameMember (Families.ofCodebase p) present) a := by
    intro present cs
    induction cs with
    | nil => exact fun a _ => rfl
    | cons c cs ih =>
      intro a ha
      have hmembers : nameMembers policy (Families.ofCodebase p) present a c =
          (candidates policy (ownerKey p c) c).foldl
            (nameMember (Families.ofCodebase p) present) a := by
        rw [nameMembers, ha, getD_classKeys_ofClasses]
      rw [List.foldl_cons, List.flatMap_cons, List.foldl_append, hmembers]
      exact ih _ ((classKeys_foldl_nameMember _ _ a).trans ha)
  exact hfold _ p.classes _ rfl

/-- What decides about a family has not been looked at before. -/
theorem leaves_foldl_nameMember (present : Std.HashMap String String) {xs : List Candidate}
    (h : ∀ y ∈ xs, (Families.ofCodebase p).family? y.member ≠ some φ) (a : Assignment) :
    Leaves p φ a (xs.foldl (nameMember (Families.ofCodebase p) present) a) :=
  Leaves.foldl (P := fun _ => True) (fun _ _ _ _ => trivial) trivial
    fun _ _ y hy => leaves_nameMember (.inl (h y hy))

/-- What comes after the decision does not change it. -/
theorem leaves_foldl_decided (h : a.decided.contains φ = true) (xs : List Candidate) :
    Leaves p φ a (xs.foldl (nameMember (Families.ofCodebase p) present) a) :=
  Leaves.foldl (P := fun b => b.decided.contains φ = true) (fun _ _ hb ha => hb.decided.trans ha) h
    fun _ hb _ _ => leaves_nameMember (.inr hb)

/-- Naming classes leaves a family alone. -/
theorem leaves_ofClasses (policy : Policy) (defaultPackage : String) (p : Codebase) (table : Table)
    (φ : Nat) : Leaves p φ (start table) (ofClasses policy defaultPackage p table) :=
  Leaves.foldl (P := fun _ => True) (fun _ _ _ _ => trivial) trivial
    fun a _ c _ => leaves_nameClass a c

/-- **The first decides**: the references of a family are called what is chosen for the first of its
members that is met, over a table that still says what it said. -/
theorem name_onMember_of_first {front back : List Candidate}
    (hvisited : visited policy p = front ++ x :: back)
    (hfront : ∀ y ∈ front, (Families.ofCodebase p).family? y.member ≠ some φ)
    (hφ : (Families.ofCodebase p).family? x.member = some φ) (defaultPackage : String)
    (table : Table) :
    ∃ a : Assignment, (∀ key mapping, table.get? key = some mapping →
        a.table.get? key = some mapping) ∧
      (front = [] → a = ofClasses policy defaultPackage p table) ∧
      ∀ m, (Families.ofCodebase p).family? m = some φ →
        ((ofCodebase policy defaultPackage p table).names.onMember m).name =
          ((chooseMapping a x).1.map Mapping.name).getD m.name := by
  have hbefore := (leaves_ofClasses policy defaultPackage p table φ).trans
    (leaves_foldl_nameMember (presentNames p (ofClasses policy defaultPackage p table).names)
      hfront _)
  refine ⟨_, hbefore.entries, ?_, fun m hm => ?_⟩
  · rintro rfl
    rfl
  · have hundecided := hbefore.decided.trans Std.HashSet.contains_empty
    have hnone := (hbefore.members m hm).trans Std.HashMap.getElem?_empty
    obtain ⟨hdecided, hname⟩ := nameMember_decides
      (presentNames p (ofClasses policy defaultPackage p table).names) hφ hundecided
    rw [ofCodebase_eq_foldl, hvisited, List.foldl_append, List.foldl_cons, name_onMember,
      (leaves_foldl_decided hdecided back).members m hm, hname m hm hnone]

end Assignment

/-! ### Declarations after a renaming -/

/-- The declarations of a codebase are those of an earlier one, each under its new name. -/
structure Renaming.Redeclares (r : Renaming) (p p' : Codebase) : Prop where
  /-- The fields. -/
  fields : ∃ fs, fs ~ p.fields ∧ List.Forall₂ (fun f f' => f' = r.onField f'.owner f) fs p'.fields
  /-- The methods. -/
  methods : ∃ ms, ms ~ p.methods ∧
    List.Forall₂ (fun m m' => m' = r.onMethod m'.owner m) ms p'.methods

/-- What classes hold that change one by one. -/
theorem forall₂_flatMap_map {α : Type} {R : α → α → Prop} {g : Class → Class}
    {part : Class → List α} (h : ∀ c, List.Forall₂ R (part c) (part (g c))) (cs : List Class) :
    List.Forall₂ R (cs.flatMap part) ((cs.map g).flatMap part) := by
  induction cs with
  | nil => exact .nil
  | cons c cs ih =>
    rw [List.map_cons, List.flatMap_cons, List.flatMap_cons]
    exact List.rel_append (h c) ih

/-- A renaming declares anew what was declared, in whatever class. -/
theorem redeclares_rename {policy : Policy} {defaultPackage : String} {p p' : Codebase}
    {table : Table} {s : Summary}
    (h : (rename policy defaultPackage p table).result = .ok (s, p')) :
    (Assignment.ofCodebase policy defaultPackage p table).names.Redeclares p p' := by
  rw [rename_result] at h
  dsimp only at h
  cases hmoved : (relocate p
      (Assignment.ofCodebase policy defaultPackage p table).moves.reverse).2 with
  | error e =>
    rw [hmoved] at h
    cases h
  | ok moved =>
    obtain ⟨count, q⟩ := moved
    rw [hmoved] at h
    cases h
    -- What is moved is permuted only, so the members are compared after the moves.
    obtain ⟨hmethods, hfields⟩ := relocate_perm hmoved
    generalize (Assignment.ofCodebase policy defaultPackage p table).names = r
    refine ⟨⟨q.fields, hfields, ?_⟩, ⟨q.methods, hmethods, ?_⟩⟩
    · rw [Codebase.fields, Codebase.fields, List.flatMap_def (l := (recordSources _ _).classes),
        map_recordSources fun _ _ => rfl, ← List.flatMap_def]
      refine forall₂_flatMap_map (fun c => ?_) q.classes
      exact List.forall₂_map_right_iff.2 (List.forall₂_same.2 fun f _ => rfl)
    · rw [Codebase.methods, Codebase.methods, List.flatMap_def (l := (recordSources _ _).classes),
        map_recordSources fun _ _ => rfl, ← List.flatMap_def]
      refine forall₂_flatMap_map (fun c => ?_) q.classes
      exact List.forall₂_map_right_iff.2 (List.forall₂_same.2 fun m _ => rfl)

/-! ### Entries -/

/-- **An entry for the first member decides**: if the name table has an entry for the first member
of a family that is met, then a renaming calls every declaration of the family, and every reference
to it, as the entry says. A renaming succeeds if the table moves nothing. -/
theorem name_of_entry (policy : Policy) (defaultPackage : String) {p : Codebase} {table : Table}
    {φ : Nat} {x : Candidate} {mapping : Mapping}
    (hfirst : (visited policy p).find?
      (fun y => (Families.ofCodebase p).family? y.member == some φ) = some x)
    (hentry : table.get? x.key = some mapping) :
    (table.Stationary → ∃ s p', (rename policy defaultPackage p table).result = .ok (s, p')) ∧
    ∀ s p', (rename policy defaultPackage p table).result = .ok (s, p') →
      ∃ r : Renaming, r.Redeclares p p' ∧
        ∀ m, (Families.ofCodebase p).family? m = some φ → (r.onMember m).name = mapping.name := by
  obtain ⟨hφ, front, back, hvisited, hfront⟩ := List.find?_eq_some_iff_append.1 hfirst
  obtain ⟨a, hentries, -, hname⟩ := Assignment.name_onMember_of_first hvisited
    (fun y hy => by simpa using hfront y hy) (beq_iff_eq.1 hφ) defaultPackage table
  constructor
  · intro hstationary
    obtain ⟨s, hs⟩ := rename_result_of_stationary policy defaultPackage p hstationary
    exact ⟨s, _, hs⟩
  · intro s p' hresult
    refine ⟨_, redeclares_rename hresult, fun m hm => ?_⟩
    rw [hname m hm, Assignment.chooseMapping, hentries x.key mapping hentry]
    rfl

/-! ### A method that is overridden -/

/-- A class with a method and a subclass that overrides it. -/
def overriding : Codebase :=
  { classes :=
      [{ name := "lib/Base", superclass := some "java/lang/Object", access := ⟨0x0421⟩
         methods :=
           [{ owner := "lib/Base", name := "a", descriptor := "()V", access := ⟨0x0401⟩ }] },
       { name := "lib/Heir", superclass := some "lib/Base", access := ⟨0x0421⟩
         methods :=
           [{ owner := "lib/Heir", name := "a", descriptor := "()V", access := ⟨0x0401⟩ }] }] }

/-- The members of both classes are candidates, in their order. -/
theorem visited_overriding : visited {} overriding =
    [⟨⟨"lib/Base", "a", "()V"⟩, "lib/Base.a()V", true⟩,
      ⟨⟨"lib/Heir", "a", "()V"⟩, "lib/Heir.a()V", true⟩] :=
  rfl

/-- Both declarations are of one family. -/
theorem exists_family_overriding :
    ∃ φ, (Families.ofCodebase overriding).family? ⟨"lib/Base", "a", "()V"⟩ = some φ ∧
      (Families.ofCodebase overriding).family? ⟨"lib/Heir", "a", "()V"⟩ = some φ := by
  have hsound : overriding.Sound := ⟨by decide, by decide, by decide⟩
  have hbase : overriding.classes[0] ∈ overriding.classes := List.mem_cons_self
  have hheir : overriding.classes[1] ∈ overriding.classes :=
    List.mem_cons_of_mem _ List.mem_cons_self
  have hlink : ((⟨"lib/Base", "a", "()V"⟩ : Member), ⟨"lib/Heir", "a", "()V"⟩) ∈
      Families.links overriding :=
    mem_links hsound.distinct hheir hbase
      (hsound.supertype_mem_ancestors hheir hbase (List.mem_cons_self : "lib/Base" ∈ ["lib/Base"]))
      (by decide)
      (by decide : (⟨"lib/Base", "a", "()V"⟩ : Member) ∈ inheritable overriding.classes[0])
  obtain ⟨hsome, hfamily⟩ := Families.family?_eq_of_link hlink
  obtain ⟨φ, hφ⟩ := Option.isSome_iff_exists.1 hsome
  exact ⟨φ, hφ, hfamily ▸ hφ⟩

/-- The entry of the first member names both. -/
theorem name_of_entry_overriding :
    ∃ φ x mapping, (visited {} overriding).find?
        (fun y => (Families.ofCodebase overriding).family? y.member == some φ) = some x ∧
      Table.get? ⟨[("lib/Base.a()V", .rename "foo")]⟩ x.key = some mapping ∧
      mapping = .rename "foo" ∧
      (Families.ofCodebase overriding).family? ⟨"lib/Heir", "a", "()V"⟩ = some φ ∧
      (Table.Stationary ⟨[("lib/Base.a()V", .rename "foo")]⟩ → ∃ s p',
        (rename {} "deob" overriding ⟨[("lib/Base.a()V", .rename "foo")]⟩).result = .ok (s, p')) ∧
      ∀ s p', (rename {} "deob" overriding ⟨[("lib/Base.a()V", .rename "foo")]⟩).result =
          .ok (s, p') →
        ∃ r : Renaming, r.Redeclares overriding p' ∧
          ∀ m, (Families.ofCodebase overriding).family? m = some φ →
            (r.onMember m).name = mapping.name := by
  obtain ⟨φ, hbase, hheir⟩ := exists_family_overriding
  have hfirst : (visited {} overriding).find?
      (fun y => (Families.ofCodebase overriding).family? y.member == some φ) =
        some ⟨⟨"lib/Base", "a", "()V"⟩, "lib/Base.a()V", true⟩ := by
    rw [visited_overriding, List.find?_cons_of_pos (by rw [hbase, beq_self_eq_true])]
  exact ⟨φ, _, _, hfirst, rfl, rfl, hheir, name_of_entry {} "deob" hfirst rfl⟩

/-- An entry for the second declaration is overlooked: both get a generated name. -/
theorem rename_overlooks_entry :
    (∃ φ, (Families.ofCodebase overriding).family? ⟨"lib/Base", "a", "()V"⟩ = some φ ∧
      (Families.ofCodebase overriding).family? ⟨"lib/Heir", "a", "()V"⟩ = some φ) ∧
    (visited {} overriding).map (·.key) = ["lib/Base.a()V", "lib/Heir.a()V"] ∧
    ∃ s p', (rename {} "deob" overriding ⟨[("lib/Heir.a()V", .rename "foo")]⟩).result =
        .ok (s, p') ∧ p'.methods.map (·.name) = ["method1", "method1"] := by
  refine ⟨exists_family_overriding, rfl, ?_⟩
  obtain ⟨φ, hbase, hheir⟩ := exists_family_overriding
  obtain ⟨s, hresult⟩ := rename_result_of_stationary {} "deob" overriding
    (Table.stationary_of_forall (t := ⟨[("lib/Heir.a()V", .rename "foo")]⟩)
      (by simp [Mapping.owner?]))
  -- The base class is visited first, and there is no entry for its method, so a name is generated.
  have hvisited : visited {} overriding = [] ++ _ :: _ := visited_overriding
  obtain ⟨a, -, ha, hname⟩ := Assignment.name_onMember_of_first hvisited
    (by simp) hbase "deob" ⟨[("lib/Heir.a()V", .rename "foo")]⟩
  obtain rfl := ha rfl
  have hchoice : (Assignment.chooseMapping (Assignment.ofClasses {} "deob" overriding
      ⟨[("lib/Heir.a()V", .rename "foo")]⟩) ⟨⟨"lib/Base", "a", "()V"⟩, "lib/Base.a()V", true⟩).1 =
        some (.rename "method1") := by
    decide +kernel
  refine ⟨s, _, hresult, ?_⟩
  rw [Codebase.methods, List.map_flatMap, List.flatMap_def, map_recordSources fun _ _ => rfl]
  have hmethod := hname _ hbase
  have hoverride := hname _ hheir
  rw [hchoice] at hmethod hoverride
  generalize (Assignment.ofCodebase {} "deob" overriding _).names = r at hmethod hoverride
  simp [overriding, Renaming.apply, Renaming.onClass, Renaming.onMethod, Method.key, hmethod,
    hoverride, Mapping.name]

end Unscramble.Naming
