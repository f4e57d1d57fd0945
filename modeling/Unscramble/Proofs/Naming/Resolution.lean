import Unscramble.Proofs.Naming.Lineage
import Unscramble.Proofs.Naming.Mention
import Unscramble.Proofs.Naming.Outcome

/-! # Resolving references under new names

A reference names a class and looks for a member in it and in its ancestors. Renaming a codebase from
scratch gives names to the families of members, renames the references and moves nothing, and after
it every reference finds the declaration that it found before.

In a codebase classes are told apart by their names, and the fields or the methods of a class by
name and descriptor. Generated names are numbered from one and are not compared with the names that are
already there, so they meet a generated name of an earlier renaming; in a codebase that was never
renamed they meet nothing.

Main definitions: `Codebase.resolve`, `Codebase.Pristine`, `Codebase.Distinct`. Main statements:
`resolve_rename`, `distinct_rename`, `rename_meets_class`. -/

namespace Unscramble

open Naming

/-! ### Resolution -/

/-- The members of a class in order, each with whether only the class sees it. -/
def Class.members (c : Class) : List (Member × Bool) :=
  c.fields.map (fun f => (f.key, f.isPrivate)) ++ c.methods.map fun m => (m.key, m.isPrivate)

/-- The place of the first member of a class with the name and descriptor of a reference; private
members are only found in the class that the reference names. -/
def Class.memberIndex? (c : Class) (own : Bool) (m : Member) : Option Nat :=
  c.members.findIdx? fun d =>
    d.1.name == m.name && d.1.descriptor == m.descriptor && (own || !d.2)

/-- The declaration that a reference resolves to, as the place of its class and its place among the
members of the class: that of the first class among the ancestors which declares such a member. -/
def Codebase.resolve (p : Codebase) (m : Member) : Option (Nat × Nat) :=
  ((Hierarchy.ofCodebase p).ancestors m.owner).findSome? fun name =>
    (p.classIndex? name).bind fun i => (p.classes[i]?).bind fun c =>
      (c.memberIndex? (name == m.owner) m).map fun j => (i, j)

/-! ### Codebases that were never renamed -/

/-- A name that a renaming does not generate for members. -/
def Member.IsOld (m : Member) : Prop :=
  isGenerated "field" m.name = false ∧ isGenerated "method" m.name = false

/-- A codebase of an obfuscated build as it is before any renaming. -/
structure Codebase.Pristine (defaultPackage : String) (p : Codebase) : Prop where
  /-- Different classes have different names. -/
  distinct : (p.classes.map (·.name)).Nodup
  /-- Members name the class that they are declared in. -/
  owners : ∀ c ∈ p.classes, ∀ m ∈ declared c, m.owner = c.name
  /-- Descriptors tell methods from fields. -/
  kinds : ∀ c ∈ p.classes,
    (∀ f ∈ c.fields, isMethod f.key = false) ∧ ∀ m ∈ c.methods, isMethod m.key = true
  /-- Listings link each instruction once. -/
  bodies : ∀ b ∈ p.bodies, b.listing.handles.Nodup
  /-- No annotation records another name. -/
  unrecorded : ∀ c ∈ p.classes, recordedName? c.annotations = none ∧
    (∀ f ∈ c.fields, recordedName? f.annotations = none) ∧
    ∀ m ∈ c.methods, recordedName? m.annotations = none
  /-- The names of classes have no dots. -/
  dotless : ∀ c ∈ p.classes, '.' ∉ c.name.toList
  /-- No class is mentioned that is in the default package or has a generated name. -/
  oldClasses : ∀ n ∈ p.mentioned, Assignment.IsOld defaultPackage n
  /-- No member is declared or referred to that has a generated name. -/
  oldMembers : ∀ m, .declaration m ∈ p.spots ∨ .reference m ∈ p.spots → m.IsOld

namespace Naming

variable {policy : Policy} {defaultPackage : String} {p : Codebase} {base a : Assignment}
  {c c' : Class} {x x' : Candidate} {m m' : Member}

/-! ### Keys of members -/

/-- A candidate is a declared member. -/
theorem member_mem_declared {owner : String} (hx : x ∈ candidates policy owner c) :
    x.member ∈ declared c := by
  rcases mem_candidates_iff.1 hx with ⟨f, hf, rfl⟩ | ⟨m, hm, -, rfl⟩
  · exact List.mem_append_left _ (List.mem_map_of_mem hf)
  · exact List.mem_append_right _ (List.mem_map_of_mem hm)

/-- Members of one descriptor are of one kind. -/
theorem isMethod_eq (h : m.descriptor = m'.descriptor) : isMethod m = isMethod m' := by
  rw [isMethod, isMethod, h]

/-- The key of a member, taken apart. -/
theorem toList_key (hp : p.Pristine defaultPackage) (hc : c ∈ p.classes)
    (hx : x ∈ candidates policy c.name c) :
    x.key.toList = c.name.toList ++ '.' :: (x.member.name.toList ++
      ((if isMethod x.member then [] else [':']) ++ x.member.descriptor.toList)) := by
  rcases mem_candidates_iff.1 hx with ⟨f, hf, rfl⟩ | ⟨m, hm, -, rfl⟩
  · have hname : f.buildName = f.name := by
      rw [Field.buildName, (hp.unrecorded c hc).2.1 f hf]
      rfl
    have hkind : isMethod (fieldCandidate policy c.name f).member = false := (hp.kinds c hc).1 f hf
    rw [toList_key_field, hname, hkind]
    rfl
  · have hname : m.buildName = m.name := by
      rw [Method.buildName, (hp.unrecorded c hc).2.2 m hm]
      rfl
    have hkind : isMethod (methodCandidate policy c.name m).member = true := (hp.kinds c hc).2 m hm
    rw [toList_key_method, hname, hkind]
    rfl

/-- A key and a descriptor tell the member. -/
theorem member_eq_of_key_eq (hp : p.Pristine defaultPackage) (hc : c ∈ p.classes)
    (hc' : c' ∈ p.classes) (hx : x ∈ candidates policy c.name c)
    (hx' : x' ∈ candidates policy c'.name c') (hkey : x.key = x'.key)
    (hdescriptor : x.member.descriptor = x'.member.descriptor) : x.member = x'.member := by
  have howner := hp.owners c hc _ (member_mem_declared hx)
  have howner' := hp.owners c' hc' _ (member_mem_declared hx')
  have hkeys := congrArg String.toList hkey
  rw [toList_key hp hc hx, toList_key hp hc' hx',
    Text.append_cons_inj (hp.dotless c' hc') (hp.dotless c hc), isMethod_eq hdescriptor, hdescriptor,
    List.append_left_inj, String.toList_inj, String.toList_inj] at hkeys
  obtain ⟨hclass, -, hname⟩ := hkeys
  calc x.member = ⟨x.member.owner, x.member.name, x.member.descriptor⟩ := rfl
    _ = ⟨x'.member.owner, x'.member.name, x'.member.descriptor⟩ := by
      rw [howner, howner', hclass, hname, hdescriptor]

/-! ### References -/

section References

variable (hp : p.Pristine defaultPackage) (hbase : Assignment.ClassesNamed defaultPackage p.classes base)
  (ha : Assignment.MembersNamed policy p base a)

include ha in
/-- Classes keep the names that they were given before members were. -/
theorem onClassName_eq (n : String) : a.names.onClassName n = base.names.onClassName n := by
  rw [Renaming.onClassName, Renaming.onClassName, ha.classes]

include ha in
/-- The class and the types of a reference are renamed whether or not the member is. -/
theorem onMember_eq (m : Member) :
    a.names.onMember m =
      ⟨a.names.onClassName m.owner, (a.names.onMember m).name, a.names.onDescriptor m.descriptor⟩ := by
  rw [Renaming.onMember]
  cases hm : a.names.members[m]? with
  | none => rfl
  | some new =>
    obtain ⟨_, _, _, _, _, name, -, -, -, rfl⟩ := ha.mapped m new hm
    simp only [Renaming.onClassName, Renaming.onDescriptor, ha.classes]

/-- The name of a reference is its new name if it has one. -/
theorem name_onMember (r : Renaming) (m : Member) :
    (r.onMember m).name = ((r.members[m]?).map (·.name)).getD m.name := by
  rw [Renaming.onMember]
  cases r.members[m]? <;> rfl

include ha in
/-- The references of a family keep a common name. -/
theorem name_eq_of_family {φ : Nat} (hm : (Families.ofCodebase p).family? m = some φ)
    (hm' : (Families.ofCodebase p).family? m' = some φ) :
    (a.names.onMember m).name = (a.names.onMember m').name := by
  rw [name_onMember, name_onMember, ha.agree φ m m' hm hm', (Families.eq_of_family?_eq hm hm').1]

include ha in
/-- A new name of a member is generated. -/
theorem isGenerated_of_mapped {new : Member} (hm : a.names.members[m]? = some new) :
    isGenerated "field" new.name = true ∨ isGenerated "method" new.name = true := by
  obtain ⟨_, c, hc, x, hx, name, -, -, hget, rfl⟩ := ha.mapped m new hm
  obtain ⟨_, hname, hissued⟩ := ha.numbered.issued _ _ hget
  cases hname
  cases hissued with
  | ofClass hkey => exact absurd (dot_mem_key hx) hkey
  | ofField => exact .inl (isGenerated_numbered "field" _)
  | ofMethod => exact .inr (isGenerated_numbered "method" _)

include hp ha in
/-- References with the same types that get one name had one name. -/
theorem name_eq_of_onMember (hold : m.IsOld) (hold' : m'.IsOld)
    (hdescriptor : m.descriptor = m'.descriptor)
    (h : (a.names.onMember m).name = (a.names.onMember m').name) : m.name = m'.name := by
  rw [name_onMember, name_onMember] at h
  -- A name that a reference gets was generated, and no old name looks like one, so both have one or
  -- neither.
  cases hm : a.names.members[m]? with
  | none =>
    cases hm' : a.names.members[m']? with
    | none =>
      rw [hm, hm'] at h
      exact h
    | some new' =>
      rw [hm, hm'] at h
      rcases isGenerated_of_mapped ha hm' with hgen | hgen
      · rw [← (show m.name = new'.name from h), hold.1] at hgen
        cases hgen
      · rw [← (show m.name = new'.name from h), hold.2] at hgen
        cases hgen
  | some new =>
    cases hm' : a.names.members[m']? with
    | none =>
      rw [hm, hm'] at h
      rcases isGenerated_of_mapped ha hm with hgen | hgen
      · rw [(show new.name = m'.name from h), hold'.1] at hgen
        cases hgen
      · rw [(show new.name = m'.name from h), hold'.2] at hgen
        cases hgen
    | some new' =>
      rw [hm, hm'] at h
      obtain ⟨φ, c, hc, x, hx, name, hφ, hφx, hget, rfl⟩ := ha.mapped m new hm
      obtain ⟨φ', c', hc', x', hx', name', hφ', hφx', hget', rfl⟩ := ha.mapped m' new' hm'
      have hname : name = name' := h
      -- The numbers of generated names tell the keys apart, and these the members.
      have hkey := ha.numbered.distinct _ _ _ _ hget hget' (congrArg simpleName hname)
      have hx_descriptor := (Families.eq_of_family?_eq hφ hφx).2
      have hx_descriptor' := (Families.eq_of_family?_eq hφ' hφx').2
      have hmember := member_eq_of_key_eq hp hc hc' hx hx' hkey
        (hx_descriptor.symm.trans (hdescriptor.trans hx_descriptor'))
      rw [hmember, hφx', Option.some_inj] at hφx
      subst hφx
      exact (Families.eq_of_family?_eq hφ hφ').1

include hp ha in
/-- References to constructors keep their name. -/
theorem name_onMember_constructor (hm : m.name = "<init>") (hmethod : isMethod m = true) :
    (a.names.onMember m).name = "<init>" := by
  rw [name_onMember]
  cases hnew : a.names.members[m]? with
  | none => exact hm
  | some new =>
    obtain ⟨φ, c, hc, x, hx, name, hφ, hφx, -, -⟩ := ha.mapped m new hnew
    obtain ⟨hname, hdescriptor⟩ := Families.eq_of_family?_eq hφ hφx
    have hkind : isMethod x.member = true := by
      rw [isMethod, ← hdescriptor]
      exact hmethod
    rcases mem_candidates_iff.1 hx with ⟨f, hf, rfl⟩ | ⟨d, hd, ⟨hinit, -⟩, rfl⟩
    · rw [show isMethod (fieldCandidate policy c.name f).member = false from (hp.kinds c hc).1 f hf] at hkind
      cases hkind
    · rw [Method.isConstructor, beq_eq_false_iff_ne] at hinit
      exact absurd (hname.symm.trans hm) hinit

/-- The names that classes have and inherit from are mentioned. -/
theorem mem_mentioned_of_names {n : String} (hn : n ∈ Hierarchy.names p) : n ∈ p.mentioned := by
  obtain ⟨c, hc, hn⟩ := List.mem_flatMap.1 hn
  have hspot : Spot.className n ∈ c.spots := by
    simp only [Class.supertypes, List.mem_cons, List.mem_append] at hn
    simp only [Class.spots, List.mem_cons, List.mem_append, List.mem_map, Spot.className.injEq,
      exists_eq_right]
    tauto
  exact List.mem_flatMap.2 ⟨_, List.mem_flatMap.2 ⟨c, hc, hspot⟩, List.mem_cons_self⟩

include hp hbase ha in
/-- Class names that are mentioned stay different. -/
theorem onClassName_inj_mentioned : ∀ m ∈ p.mentioned, ∀ n ∈ p.mentioned,
    a.names.onClassName m = a.names.onClassName n → m = n := by
  intro m hm n hn h
  rw [onClassName_eq ha, onClassName_eq ha] at h
  exact hbase.onClassName_inj (hp.oldClasses m hm) (hp.oldClasses n hn) h

include hp hbase ha in
/-- Descriptors that are mentioned stay different. -/
theorem onDescriptor_inj_mentioned (hpackage : Descriptor.IsName defaultPackage) {d e : String}
    (hd : ∀ n ∈ Descriptor.classNames d, n ∈ p.mentioned)
    (he : ∀ n ∈ Descriptor.classNames e, n ∈ p.mentioned)
    (h : a.names.onDescriptor d = a.names.onDescriptor e) : d = e := by
  have hname : ∀ d : String, ∀ n ∈ Descriptor.classNames d, ∀ new, a.names.classes[n]? = some new →
      Descriptor.IsName new := by
    intro d n hn new hnew
    have hisName := hbase.isName_onClassName hpackage (Descriptor.isName_of_mem_classNames hn)
    rwa [← onClassName_eq ha, Renaming.onClassName, hnew] at hisName
  refine Descriptor.mapClasses_inj (hname d) (hname e) ?_ h
  intro m hm n hn heq
  exact onClassName_inj_mentioned hp hbase ha m (hd m hm) n (he n hn) heq

/-- The class names in a descriptor of the codebase are mentioned. -/
theorem mem_mentioned_of_descriptor (h : .declaration m ∈ p.spots ∨ .reference m ∈ p.spots) :
    ∀ n ∈ Descriptor.classNames m.descriptor, n ∈ p.mentioned := by
  intro n hn
  rcases h with h | h
  · exact List.mem_flatMap.2 ⟨_, h, hn⟩
  · exact List.mem_flatMap.2 ⟨_, h, List.mem_append_right _ hn⟩

/-- A declared member stands in the codebase. -/
theorem declaration_mem_spots (hc : c ∈ p.classes) (hm : m ∈ declared c) :
    .declaration m ∈ p.spots := by
  refine List.mem_flatMap.2 ⟨c, hc, ?_⟩
  rcases List.mem_append.1 hm with hm | hm
  · obtain ⟨f, hf, rfl⟩ := List.mem_map.1 hm
    refine List.mem_append_left _ (List.mem_append_right _ (List.mem_flatMap.2 ⟨f, hf, ?_⟩))
    exact List.mem_append_left _ List.mem_cons_self
  · obtain ⟨d, hd, rfl⟩ := List.mem_map.1 hm
    refine List.mem_append_right _ (List.mem_flatMap.2 ⟨d, hd, ?_⟩)
    simp [Method.spots]

/-- The members of a class are those it declares. -/
theorem mem_declared_of_members {d : Member × Bool} (hd : d ∈ c.members) : d.1 ∈ declared c := by
  rcases List.mem_append.1 hd with hd | hd
  · obtain ⟨f, hf, rfl⟩ := List.mem_map.1 hd
    exact List.mem_append_left _ (List.mem_map_of_mem hf)
  · obtain ⟨m, hm, rfl⟩ := List.mem_map.1 hd
    exact List.mem_append_right _ (List.mem_map_of_mem hm)

/-- A member that is not private is inherited unless it is a constructor. -/
theorem mem_inheritable {d : Member × Bool} (hkinds : ∀ m ∈ c.methods, isMethod m.key = true)
    (hd : d ∈ c.members) (hprivate : d.2 = false) :
    d.1 ∈ inheritable c ∨ d.1.name = "<init>" ∧ isMethod d.1 = true := by
  rcases List.mem_append.1 hd with hd | hd
  · obtain ⟨f, hf, rfl⟩ := List.mem_map.1 hd
    refine .inl (List.mem_append_left _ (List.mem_map_of_mem (List.mem_filter.2 ⟨hf, ?_⟩)))
    simpa using hprivate
  · obtain ⟨m, hm, rfl⟩ := List.mem_map.1 hd
    by_cases hinit : m.isConstructor = true
    · exact .inr ⟨beq_iff_eq.1 hinit, hkinds m hm⟩
    · refine .inl (List.mem_append_right _ (List.mem_map_of_mem (List.mem_filter.2 ⟨hm, ?_⟩)))
      simpa [hinit] using hprivate

/-- An inherited member is linked with the same member as named through the heir. -/
theorem mem_links {heir : Class} (hdistinct : (p.classes.map (·.name)).Nodup)
    (hheir : heir ∈ p.classes) (hc : c ∈ p.classes)
    (hancestor : c.name ∈ (Hierarchy.ofCodebase p).ancestors heir.name)
    (hne : c.name ≠ heir.name) (hm : m ∈ inheritable c) :
    (m, m.withOwner heir.name) ∈ Families.links p := by
  obtain ⟨d, hd, hname⟩ := (Hierarchy.mem_ancestors_iff hdistinct hheir).1 hancestor
  have hdc : d = c :=
    List.inj_on_of_nodup_map hdistinct (mem_classes_of_reflTransGen hd hheir) hc hname
  subst hdc
  exact (Families.mem_links_iff hdistinct).2 ⟨heir, hheir, d, hd, hne, hm, rfl⟩

include hp ha in
/-- A visible member with the name and types of a reference keeps having its name. -/
theorem name_onMember_of_visible {heir : Class} (hheir : heir ∈ p.classes) (howner : heir.name = m.owner)
    (hc : c ∈ p.classes) (hancestor : c.name ∈ (Hierarchy.ofCodebase p).ancestors m.owner)
    {d : Member × Bool} (hd : d ∈ c.members) (hvisible : c.name = m.owner ∨ d.2 = false)
    (hname : d.1.name = m.name) (hdescriptor : d.1.descriptor = m.descriptor) :
    (a.names.onMember d.1).name = (a.names.onMember m).name := by
  have hdowner := hp.owners c hc _ (mem_declared_of_members hd)
  by_cases hown : c.name = m.owner
  · have hsame : d.1 = m := by
      calc d.1 = ⟨d.1.owner, d.1.name, d.1.descriptor⟩ := rfl
        _ = ⟨m.owner, m.name, m.descriptor⟩ := by rw [hdowner, hown, hname, hdescriptor]
    rw [hsame]
  · rcases mem_inheritable (hp.kinds c hc).2 hd (hvisible.resolve_left hown) with
      hinherit | ⟨hinit, hmethod⟩
    · have hlink := mem_links hp.distinct hheir hc (howner ▸ hancestor) (howner ▸ hown) hinherit
      have hthrough : d.1.withOwner heir.name = m := by
        calc d.1.withOwner heir.name = ⟨heir.name, d.1.name, d.1.descriptor⟩ := rfl
          _ = ⟨m.owner, m.name, m.descriptor⟩ := by rw [howner, hname, hdescriptor]
      rw [hthrough] at hlink
      obtain ⟨hsome, hfamily⟩ := Families.family?_eq_of_link hlink
      obtain ⟨φ, hφ⟩ := Option.isSome_iff_exists.1 hsome
      exact name_eq_of_family ha hφ (hfamily ▸ hφ)
    · rw [name_onMember_constructor hp ha hinit hmethod,
        name_onMember_constructor hp ha (hname ▸ hinit) (isMethod_eq hdescriptor ▸ hmethod)]

include hp hbase ha in
/-- A member is found under its new reference just as it was under the old one. -/
theorem found_iff (hpackage : Descriptor.IsName defaultPackage) (href : .reference m ∈ p.spots)
    {heir : Class} (hheir : heir ∈ p.classes) (howner : heir.name = m.owner)
    (hc : c ∈ p.classes) (hancestor : c.name ∈ (Hierarchy.ofCodebase p).ancestors m.owner)
    {d : Member × Bool} (hd : d ∈ c.members) {own : Bool} (hown : own = (c.name == m.owner)) :
    ((a.names.onMember d.1).name == (a.names.onMember m).name &&
      (a.names.onMember d.1).descriptor == (a.names.onMember m).descriptor && (own || !d.2)) =
    (d.1.name == m.name && d.1.descriptor == m.descriptor && (own || !d.2)) := by
  have hdeclared := mem_declared_of_members hd
  have hdecl := declaration_mem_spots hc hdeclared
  -- If the declaration cannot be seen from the reference, both sides are false.
  by_cases hvisible : (own || !d.2) = true
  · rw [hvisible, Bool.and_true, Bool.and_true, Bool.eq_iff_iff, Bool.and_eq_true, Bool.and_eq_true,
      beq_iff_eq, beq_iff_eq, beq_iff_eq, beq_iff_eq]
    have hsee : c.name = m.owner ∨ d.2 = false := by simpa [hown] using hvisible
    constructor
    · rintro ⟨hname, hdescriptor⟩
      rw [onMember_eq ha d.1, onMember_eq ha m] at hdescriptor
      have hd_eq : d.1.descriptor = m.descriptor :=
        onDescriptor_inj_mentioned hp hbase ha hpackage (mem_mentioned_of_descriptor (.inl hdecl))
          (mem_mentioned_of_descriptor (.inr href)) hdescriptor
      exact ⟨name_eq_of_onMember hp ha (hp.oldMembers _ (.inl hdecl)) (hp.oldMembers _ (.inr href))
        hd_eq hname, hd_eq⟩
    · rintro ⟨hname, hdescriptor⟩
      refine ⟨name_onMember_of_visible hp ha hheir howner hc hancestor hd hsee hname hdescriptor, ?_⟩
      rw [onMember_eq ha d.1, onMember_eq ha m, hdescriptor]
  · rw [Bool.not_eq_true] at hvisible
    rw [hvisible, Bool.and_false, Bool.and_false]

include hp hbase ha in
/-- A reference resolves to the image of the declaration that it resolved to, in every codebase that
has the classes of the old one with their members renamed. -/
theorem resolve_onMember (hpackage : Descriptor.IsName defaultPackage) {q : Codebase}
    (hrenames : Hierarchy.Renames a.names.onClassName p q)
    (hmembers : q.classes.map Class.members =
      p.classes.map fun c => c.members.map fun d => (a.names.onMember d.1, d.2))
    (href : .reference m ∈ p.spots) (howner : ∃ c ∈ p.classes, c.name = m.owner) :
    q.resolve (a.names.onMember m) = p.resolve m := by
  obtain ⟨heir, hheir, howner⟩ := howner
  have hinj : ∀ m ∈ Hierarchy.names p, ∀ n ∈ Hierarchy.names p,
      a.names.onClassName m = a.names.onClassName n → m = n := fun m hm n hn =>
    onClassName_inj_mentioned hp hbase ha m (mem_mentioned_of_names hm) n (mem_mentioned_of_names hn)
  have howner_names : m.owner ∈ Hierarchy.names p := howner ▸ Hierarchy.name_mem_names hheir
  have hancestors := hrenames.ancestors hp.distinct hinj howner_names
  have howner' : (a.names.onMember m).owner = a.names.onClassName m.owner := by
    rw [onMember_eq ha m]
  rw [Codebase.resolve, Codebase.resolve, howner', hancestors, List.findSome?_map]
  -- The ancestors are renamed one by one, so the first of them that has the member has the same
  -- place.
  refine findSome?_congr fun n hn => ?_
  obtain ⟨c₀, hc₀, rfl⟩ := Hierarchy.exists_of_mem_ancestors hn
  rw [Function.comp_apply, hrenames.classIndex? hinj (Hierarchy.name_mem_names hc₀)]
  cases hindex : p.classIndex? c₀.name with
  | none => rfl
  | some i =>
    rw [Option.bind_some, Option.bind_some]
    have hi := congrArg (·[i]?) hmembers
    simp only [List.getElem?_map] at hi
    cases hc : p.classes[i]? with
    | none =>
      rw [hc, Option.map_none, Option.map_eq_none_iff] at hi
      rw [hi]
      rfl
    | some c =>
      rw [hc, Option.map_some] at hi
      obtain ⟨c', hc', hcm⟩ := Option.map_eq_some_iff.1 hi
      have hcmem := List.mem_of_getElem? hc
      have hname : c.name = c₀.name := by
        obtain ⟨hlt, hname, -⟩ := List.findIdx?_eq_some_iff_getElem.1 hindex
        rw [List.getElem?_eq_getElem hlt, Option.some_inj] at hc
        rw [← hc]
        exact beq_iff_eq.1 hname
      -- Whether the class is the owner itself is kept, since different classes get different names.
      have hown : (a.names.onClassName c₀.name == a.names.onClassName m.owner) =
          (c₀.name == m.owner) := by
        rw [Bool.eq_iff_iff, beq_iff_eq, beq_iff_eq]
        exact ⟨hinj _ (Hierarchy.name_mem_names hc₀) _ howner_names, congrArg _⟩
      rw [hc', Option.bind_some, Option.bind_some, Class.memberIndex?, hcm, List.findIdx?_map,
        Class.memberIndex?, hown]
      congr 1
      refine findIdx?_congr fun d hd => ?_
      exact found_iff hp hbase ha hpackage href hheir howner hcmem (hname ▸ hn) hd (hname ▸ rfl)

include hp ha in
/-- The members of a renamed class are its members renamed. -/
theorem members_onClass (hc : c ∈ p.classes) :
    (a.names.onClass c).members = c.members.map fun d => (a.names.onMember d.1, d.2) := by
  have hkey : ∀ m ∈ declared c, (⟨a.names.onClassName c.name, (a.names.onMember m).name,
      (a.names.onMember m).descriptor⟩ : Member) = a.names.onMember m := by
    intro m hm
    rw [← hp.owners c hc m hm]
    conv_rhs => rw [onMember_eq ha m]
    rw [onMember_eq ha m]
  rw [Class.members, Class.members, List.map_append, List.map_map, List.map_map,
    Renaming.onClass, List.map_map, List.map_map]
  congr 1
  · refine List.map_congr_left fun f hf => ?_
    exact congrArg (·, f.isPrivate) (hkey f.key (List.mem_append_left _ (List.mem_map_of_mem hf)))
  · refine List.map_congr_left fun m hm => ?_
    exact congrArg (·, m.isPrivate) (hkey m.key (List.mem_append_right _ (List.mem_map_of_mem hm)))

end References

/-! ### Whole renamings -/

/-- Recording source files changes nothing else. -/
theorem map_recordSources {β : Type} {g : Class → β}
    (hg : ∀ (c : Class) (s : Option String), g { c with sourceFile := s } = g c)
    (renamed : List String) (p : Codebase) :
    (recordSources renamed p).classes.map g = p.classes.map g := by
  rw [recordSources, List.map_map]
  refine List.map_congr_left fun c _ => ?_
  rw [Function.comp_apply]
  split
  · exact hg c _
  · rfl

/-- **References keep their meaning**: renaming from scratch succeeds and renames every declaration
where it stands, and every reference of an instruction or of a method handle that names a class of
the codebase resolves after it, at the same place, to the image of the declaration that it resolved
to before, or to nothing if it did so before. -/
theorem resolve_rename (policy : Policy) {defaultPackage : String}
    (hpackage : Descriptor.IsName defaultPackage) {p : Codebase} (hp : p.Pristine defaultPackage) :
    ∃ (s : Summary) (p' : Codebase) (r : Renaming),
      (rename policy defaultPackage p {}).result = .ok (s, p') ∧
      p'.classes.map Class.members =
        p.classes.map (fun c => c.members.map fun d => (r.onMember d.1, d.2)) ∧
      ∀ (i : Nat) (m : Member), p.spots[i]? = some (.reference m) →
        (∃ c ∈ p.classes, c.name = m.owner) →
        p'.spots[i]? = some (.reference (r.onMember m)) ∧
          p'.resolve (r.onMember m) = p.resolve m := by
  have hstationary : Table.Stationary {} := Table.stationary_of_forall (by simp)
  obtain ⟨s, hresult⟩ := rename_result_of_stationary policy defaultPackage p hstationary
  have hkey : ∀ c ∈ p.classes, classKey c = c.name := by
    intro c hc
    rw [classKey, (hp.unrecorded c hc).1]
    rfl
  obtain ⟨base, hbase, ha⟩ :=
    @Assignment.membersNamed_ofCodebase policy defaultPackage p hkey hp.dotless hp.distinct
  generalize Assignment.ofCodebase policy defaultPackage p {} = a at hresult ha
  have hmembers : (a.names.apply p).classes.map Class.members =
      p.classes.map fun c => c.members.map fun d => (a.names.onMember d.1, d.2) := by
    rw [Renaming.apply, List.map_map]
    exact List.map_congr_left fun c hc => members_onClass hp ha hc
  refine ⟨s, _, a.names, hresult, (map_recordSources (fun _ _ => rfl) _ _).trans hmembers, ?_⟩
  -- A reference has its image at the same place, and the image resolves to what the reference did.
  intro i m hi howner
  have href := List.mem_of_getElem? hi
  constructor
  · obtain ⟨new, hnew, hfollows⟩ := getElem?_of_forall₂ (a.names.follows_apply hp.bodies) hi
    have hspots : ∀ q : Codebase, q.spots = (q.classes.map Class.spots).flatten := fun q =>
      List.flatMap_def
    rw [hspots, map_recordSources fun _ _ => rfl, ← hspots, hnew]
    cases hfollows
    rfl
  · refine resolve_onMember hp hbase ha hpackage ?_
      ((map_recordSources (fun _ _ => rfl) _ _).trans hmembers) href howner
    rw [Hierarchy.Renames, map_recordSources fun _ _ => rfl, Renaming.apply, List.map_map]
    refine List.map_congr_left fun c _ => ?_
    simp [Renaming.onClass, Class.supertypes, Option.toList_map]

/-! ### A hidden and an inherited member -/

/-- A method that reads an inherited field, calls a method that its class hides and takes a handle
of the hiding one. -/
def runMethod : Method :=
  { owner := "bb", name := "run", descriptor := "(La;)V", access := ⟨0x0009⟩
    body := some
      { listing :=
          { nodes := #[⟨.field .getstatic ⟨"bb", "b", "I"⟩, none⟩,
              ⟨.invoke .invokevirtual ⟨"a", "c", "()V"⟩ false, none⟩,
              ⟨.push (.methodHandle 7 ⟨"bb", "c", "()V"⟩ false), none⟩, ⟨.plain ⟨0xb1⟩, none⟩]
            order := #[0, 1, 2, 3] } } }

/-- A class `a` and its subclass `bb`, which inherits the field `b` and hides the method `c`. -/
def heirs : Codebase :=
  { classes :=
      [{ name := "a", superclass := some "java/lang/Object", access := ⟨0x0021⟩
         fields := [{ owner := "a", name := "b", descriptor := "I", access := ⟨0x0009⟩ }]
         methods := [{ owner := "a", name := "c", descriptor := "()V", access := ⟨0x0001⟩ }] },
       { name := "bb", superclass := some "a", access := ⟨0x0021⟩
         methods :=
           [{ owner := "bb", name := "c", descriptor := "()V", access := ⟨0x000a⟩ }, runMethod] }] }

/-- What the two classes mention. -/
theorem spots_heirs :
    heirs.spots =
      [.className "a", .className "java/lang/Object", .declaration ⟨"a", "b", "I"⟩,
        .declaration ⟨"a", "c", "()V"⟩, .className "bb", .className "a",
        .declaration ⟨"bb", "c", "()V"⟩, .declaration ⟨"bb", "run", "(La;)V"⟩,
        .reference ⟨"bb", "b", "I"⟩, .reference ⟨"a", "c", "()V"⟩, .reference ⟨"bb", "c", "()V"⟩] :=
  rfl

/-- The names of the two classes are none that are given. -/
theorem pristine_heirs : heirs.Pristine "deob" where
  distinct := by decide
  owners := by decide
  kinds := by decide
  bodies := by
    rintro b (- | ⟨_, hb⟩)
    · show [0, 1, 2, 3].Nodup
      decide
    · cases hb
  unrecorded := by decide
  dotless := by decide
  oldClasses := by
    have hall : heirs.mentioned.all fun n => decide (Assignment.IsOld "deob" n) := by
      decide +kernel
    simpa using hall
  oldMembers := by
    intro m h
    simp only [spots_heirs, List.mem_cons, Spot.declaration.injEq, Spot.reference.injEq,
      reduceCtorEq, List.not_mem_nil, false_or, or_false] at h
    rcases h with (rfl | rfl | rfl | rfl) | rfl | rfl | rfl <;> exact ⟨by decide, by decide⟩

/-- References to the two classes mean the renamed members. -/
theorem resolve_rename_heirs :
    Descriptor.IsName "deob" ∧ heirs.Pristine "deob" ∧
    ∃ (s : Summary) (p' : Codebase) (r : Renaming),
      (rename {} "deob" heirs {}).result = .ok (s, p') ∧
      p'.classes.map Class.members =
        heirs.classes.map (fun c => c.members.map fun d => (r.onMember d.1, d.2)) ∧
      ∀ (i : Nat) (m : Member), heirs.spots[i]? = some (.reference m) →
        (∃ c ∈ heirs.classes, c.name = m.owner) →
        p'.spots[i]? = some (.reference (r.onMember m)) ∧
          p'.resolve (r.onMember m) = heirs.resolve m :=
  ⟨by decide, pristine_heirs, resolve_rename {} (by decide) pristine_heirs⟩

end Naming

end Unscramble

/-! ### Names after a renaming from scratch -/

namespace Unscramble

/-- The names and descriptors of the fields of a class. -/
def Class.fieldSignatures (c : Class) : List (String × String) :=
  c.fields.map fun f => (f.name, f.descriptor)

/-- The names and descriptors of the methods of a class. -/
def Class.methodSignatures (c : Class) : List (String × String) :=
  c.methods.map fun m => (m.name, m.descriptor)

/-- No two classes have one name, and no two fields or methods of a class have one name and one
descriptor. -/
structure Codebase.Distinct (p : Codebase) : Prop where
  /-- Classes differ in their names. -/
  classes : (p.classes.map (·.name)).Nodup
  /-- Fields of a class differ in their names or descriptors. -/
  fields : ∀ c ∈ p.classes, c.fieldSignatures.Nodup
  /-- Methods of a class differ in their names or descriptors. -/
  methods : ∀ c ∈ p.classes, c.methodSignatures.Nodup

namespace Naming

variable {policy : Policy} {defaultPackage : String} {p : Codebase} {base a : Assignment}
  {c : Class} {m m' : Member}

/-! ### Members of one class -/

/-- The name and the descriptor of a reference. -/
def signature (m : Member) : String × String :=
  (m.name, m.descriptor)

section Members

variable (hp : p.Pristine defaultPackage)
  (hbase : Assignment.ClassesNamed defaultPackage p.classes base)
  (ha : Assignment.MembersNamed policy p base a)

include hp hbase ha in
/-- Declared members that get one name and one descriptor had one name and one descriptor. -/
theorem signature_eq_of_onMember (hpackage : Descriptor.IsName defaultPackage)
    (hm : .declaration m ∈ p.spots) (hm' : .declaration m' ∈ p.spots)
    (h : signature (a.names.onMember m) = signature (a.names.onMember m')) :
    signature m = signature m' := by
  obtain ⟨hname, hdescriptor⟩ := Prod.mk.inj h
  rw [onMember_eq ha m, onMember_eq ha m'] at hdescriptor
  have hold : m.descriptor = m'.descriptor :=
    onDescriptor_inj_mentioned hp hbase ha hpackage (mem_mentioned_of_descriptor (.inl hm))
      (mem_mentioned_of_descriptor (.inl hm')) hdescriptor
  have hnames : m.name = m'.name :=
    name_eq_of_onMember hp ha (hp.oldMembers _ (.inl hm)) (hp.oldMembers _ (.inl hm')) hold hname
  exact Prod.ext hnames hold

include hp hbase ha in
/-- Members that a class declares apart stay apart. -/
theorem nodup_map_signature (hpackage : Descriptor.IsName defaultPackage) (hc : c ∈ p.classes)
    {l : List Member} (hdeclared : ∀ m ∈ l, m ∈ declared c)
    (hnodup : (l.map signature).Nodup) :
    (l.map fun m => signature (a.names.onMember m)).Nodup := by
  have hspot : ∀ m ∈ l, .declaration m ∈ p.spots := fun m hm =>
    declaration_mem_spots hc (hdeclared m hm)
  refine List.pairwise_map.2 ((List.pairwise_map.1 hnodup).imp_of_mem fun hm hm' hne h => ?_)
  exact hne (signature_eq_of_onMember hp hbase ha hpackage (hspot _ hm) (hspot _ hm') h)

include hp hbase ha in
/-- An assignment of names keeps everything apart. -/
theorem distinct_apply (hpackage : Descriptor.IsName defaultPackage) (hdistinct : p.Distinct) :
    (a.names.apply p).Distinct where
  classes := by
    have hmentioned : ∀ c ∈ p.classes, c.name ∈ p.mentioned := fun c hc =>
      mem_mentioned_of_names (Hierarchy.name_mem_names hc)
    rw [Renaming.apply, List.map_map]
    refine List.pairwise_map.2 ((List.pairwise_map.1 hp.distinct).imp_of_mem ?_)
    intro c c' hc hc' hne h
    exact hne (onClassName_inj_mentioned hp hbase ha _ (hmentioned c hc) _ (hmentioned c' hc') h)
  fields := by
    intro c' hc'
    obtain ⟨c, hc, rfl⟩ := List.mem_map.1 hc'
    have hkeys := nodup_map_signature hp hbase ha hpackage hc (l := c.fields.map Field.key)
      (fun m hm => List.mem_append_left _ hm) (by rw [List.map_map]; exact hdistinct.fields c hc)
    rw [List.map_map] at hkeys
    rwa [Class.fieldSignatures, Renaming.onClass, List.map_map]
  methods := by
    intro c' hc'
    obtain ⟨c, hc, rfl⟩ := List.mem_map.1 hc'
    have hkeys := nodup_map_signature hp hbase ha hpackage hc (l := c.methods.map Method.key)
      (fun m hm => List.mem_append_right _ hm) (by rw [List.map_map]; exact hdistinct.methods c hc)
    rw [List.map_map] at hkeys
    rwa [Class.methodSignatures, Renaming.onClass, List.map_map]

end Members

/-! ### Whole renamings -/

/-- Recording source files leaves everything apart. -/
theorem distinct_recordSources (renamed : List String) (h : p.Distinct) :
    (recordSources renamed p).Distinct where
  classes := by
    rw [map_recordSources fun _ _ => rfl]
    exact h.classes
  fields := by
    refine List.forall_mem_map (P := List.Nodup).1 ?_
    rw [map_recordSources (g := Class.fieldSignatures) fun _ _ => rfl]
    exact List.forall_mem_map.2 h.fields
  methods := by
    refine List.forall_mem_map (P := List.Nodup).1 ?_
    rw [map_recordSources (g := Class.methodSignatures) fun _ _ => rfl]
    exact List.forall_mem_map.2 h.methods

/-- **Names stay apart**: renaming a codebase that was never renamed succeeds, and after it no two
classes have one name, and no two fields or methods of a class one name and one descriptor. -/
theorem distinct_rename (policy : Policy) {defaultPackage : String}
    (hpackage : Descriptor.IsName defaultPackage) {p : Codebase} (hp : p.Pristine defaultPackage)
    (hdistinct : p.Distinct) :
    ∃ (s : Summary) (p' : Codebase),
      (rename policy defaultPackage p {}).result = .ok (s, p') ∧ p'.Distinct := by
  have hstationary : Table.Stationary {} := Table.stationary_of_forall (by simp)
  obtain ⟨s, hresult⟩ := rename_result_of_stationary policy defaultPackage p hstationary
  have hkey : ∀ c ∈ p.classes, classKey c = c.name := by
    intro c hc
    rw [classKey, (hp.unrecorded c hc).1]
    rfl
  obtain ⟨base, hbase, ha⟩ :=
    @Assignment.membersNamed_ofCodebase policy defaultPackage p hkey hp.dotless hp.distinct
  exact ⟨s, _, hresult, distinct_recordSources _ (distinct_apply hp hbase ha hpackage hdistinct)⟩

/-- The two classes have different names for different members after renaming. -/
theorem distinct_rename_heirs :
    Descriptor.IsName "deob" ∧ heirs.Pristine "deob" ∧ heirs.Distinct ∧
    ∃ (s : Summary) (p' : Codebase),
      (rename {} "deob" heirs {}).result = .ok (s, p') ∧ p'.Distinct :=
  have hdistinct : heirs.Distinct := ⟨by decide, by decide, by decide⟩
  ⟨by decide, pristine_heirs, hdistinct, distinct_rename {} (by decide) pristine_heirs hdistinct⟩

/-! ### A generated name that is taken -/

/-- A class of the default package next to one that has the first generated name. -/
def crowded : Codebase :=
  { classes :=
      [{ name := "a", superclass := some "java/lang/Object", access := ⟨0x0021⟩ },
       { name := "deob/class1", superclass := some "java/lang/Object", access := ⟨0x0021⟩ }] }

/-- Two classes are given one name. -/
theorem names_crowded :
    (Assignment.ofCodebase {} "deob" crowded {}).names =
      { classes := (∅ : Std.HashMap String String).insert "a" "deob/class1" } :=
  rfl

/-- The class takes the name that the other one has. -/
theorem rename_meets_class :
    crowded.Distinct ∧ ∃ (s : Summary) (p' : Codebase),
      (rename {} "deob" crowded {}).result = .ok (s, p') ∧
      p'.classes.map (·.name) = ["deob/class1", "deob/class1"] ∧ ¬p'.Distinct := by
  refine ⟨⟨by decide, by decide, by decide⟩, ?_⟩
  obtain ⟨s, hresult⟩ := rename_result_of_stationary {} "deob" crowded
    (Table.stationary_of_forall (t := {}) (by simp))
  have hnames : ((Assignment.ofCodebase {} "deob" crowded {}).names.apply crowded).classes.map
      (·.name) = ["deob/class1", "deob/class1"] := by
    rw [names_crowded]
    simp [crowded, Renaming.apply, Renaming.onClass, Renaming.onClassName]
  refine ⟨s, _, hresult, (map_recordSources (fun _ _ => rfl) _ _).trans hnames, fun h => ?_⟩
  have hclasses := h.classes
  rw [map_recordSources fun _ _ => rfl, hnames] at hclasses
  exact absurd hclasses (by decide)

end Naming

end Unscramble
