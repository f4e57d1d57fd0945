import Unscramble.Proofs.Naming.Lineage
import Unscramble.Proofs.Partition

/-! # References that mean one member

A reference has a family if a class declares the member, or inherits it from one of its other
ancestors. A family is a class of the equivalence that inheritance generates: a member and the same
member as named through a class that inherits it are in one family, and all references of a family
have the same name and descriptor.

Main definitions: `Inherits`, `Registry.Valid`, `Families.links`. Main statements:
`Families.mem_links_iff`, `Families.isSome_family?_iff`, `Families.family?_eq_of_link`,
`Families.family?_eq_iff`, `Families.eq_of_family?_eq`, `Families.mem_linked_iff`,
`Families.inheritance_exact`. -/

namespace Unscramble.Naming

/-- A class inherits a member of one of its other ancestors: the member as declared, and as named
through the class. -/
def Inherits (p : Codebase) (m m' : Member) : Prop :=
  ∃ heir ∈ p.classes, ∃ c, Relation.ReflTransGen (Supertype p) heir c ∧ c.name ≠ heir.name ∧
    m ∈ inheritable c ∧ m' = m.withOwner heir.name

/-! ### Numbers of references -/

namespace Registry

/-- Each reference has the number of its place. -/
def Valid (r : Registry) : Prop :=
  ∀ (m : Member) (i : Nat), r.index[m]? = some i ↔ r.members[i]? = some m

/-- All references keep their numbers. -/
def Grows (r r' : Registry) : Prop :=
  ∀ (m : Member) (i : Nat), r.index[m]? = some i → r'.index[m]? = some i

/-- The empty registry is valid. -/
theorem valid_empty : Valid {} := by
  intro m i
  simp

/-- A reference is registered under the number that is answered. -/
theorem intern_spec {r : Registry} (h : r.Valid) (m : Member) :
    (r.intern m).2.Valid ∧ r.Grows (r.intern m).2 ∧
      (r.intern m).2.index[m]? = some (r.intern m).1 := by
  rw [intern]
  split
  · next i hi => exact ⟨h, fun _ _ hm => hm, hi⟩
  · next hnone =>
    dsimp only
    refine ⟨?_, ?_, Std.HashMap.getElem?_insert_self⟩
    -- A number that is given out is the next one, and no other reference has it.
    · intro m' i
      rw [Std.HashMap.getElem?_insert, Array.getElem?_push]
      by_cases hm : m = m'
      · subst hm
        rw [if_pos (beq_self_eq_true m)]
        constructor
        · rintro ⟨⟩
          rw [if_pos rfl]
        · intro hi
          split at hi
          · next hsize => rw [hsize]
          · rw [← h m i, hnone] at hi
            cases hi
      · rw [if_neg (by simpa using hm), h m' i]
        split
        · next hsize =>
          subst hsize
          simpa using hm
        · rfl
    · intro m' i hm'
      have hne : m ≠ m' := by
        rintro rfl
        rw [hnone] at hm'
        cases hm'
      rw [Std.HashMap.getElem?_insert, if_neg (by simpa using hne), hm']

/-- What grows in two steps grows. -/
theorem Grows.trans {r r' r'' : Registry} (h : r.Grows r') (h' : r'.Grows r'') : r.Grows r'' :=
  fun m i hm => h' m i (h m i hm)

/-- All references of a list are registered. -/
theorem foldl_intern_spec {r : Registry} (h : r.Valid) (ms : List Member) :
    (ms.foldl (fun r m => (r.intern m).2) r).Valid ∧
      r.Grows (ms.foldl (fun r m => (r.intern m).2) r) ∧
      ∀ m ∈ ms, ∃ i, (ms.foldl (fun r m => (r.intern m).2) r).index[m]? = some i := by
  induction ms generalizing r with
  | nil => exact ⟨h, fun _ _ hm => hm, by simp⟩
  | cons m ms ih =>
    obtain ⟨hvalid, hgrows, hself⟩ := intern_spec h m
    obtain ⟨hvalid', hgrows', hmem⟩ := ih hvalid
    refine ⟨hvalid', hgrows.trans hgrows', ?_⟩
    intro m' hm'
    rcases List.mem_cons.1 hm' with rfl | hm'
    · exact ⟨_, hgrows' _ _ hself⟩
    · exact hmem m' hm'

/-- The numbers of a link belong to its references. -/
def Numbers (r : Registry) (link : Member × Member) (numbers : Nat × Nat) : Prop :=
  r.index[link.1]? = some numbers.1 ∧ r.index[link.2]? = some numbers.2

/-- All links of a list are registered, with the numbers of their references. -/
theorem foldl_registerLink_spec (state : Registry × List (Nat × Nat)) (h : state.1.Valid)
    (done : List (Member × Member)) (hdone : List.Forall₂ state.1.Numbers done state.2)
    (links : List (Member × Member)) :
    (links.foldl registerLink state).1.Valid ∧
      state.1.Grows (links.foldl registerLink state).1 ∧
      List.Forall₂ (links.foldl registerLink state).1.Numbers (links.reverse ++ done)
        (links.foldl registerLink state).2 := by
  induction links generalizing state done with
  | nil => exact ⟨h, fun _ _ hm => hm, hdone⟩
  | cons link links ih =>
    obtain ⟨hvalid, hgrows, hself⟩ := intern_spec h link.1
    obtain ⟨hvalid', hgrows', hself'⟩ := intern_spec hvalid link.2
    have hnumbers : List.Forall₂ (registerLink state link).1.Numbers (link :: done)
        (registerLink state link).2 := by
      refine .cons ⟨hgrows' _ _ hself, hself'⟩ (hdone.imp ?_)
      rintro a b ⟨h1, h2⟩
      exact ⟨hgrows' _ _ (hgrows _ _ h1), hgrows' _ _ (hgrows _ _ h2)⟩
    obtain ⟨hv, hg, hn⟩ := ih (registerLink state link) hvalid' (link :: done) hnumbers
    refine ⟨hv, (hgrows.trans hgrows').trans hg, ?_⟩
    rw [List.reverse_cons, List.append_assoc]
    exact hn

/-! ### What is registered -/

/-- What is registered was registered before, or is registered now. -/
theorem isSome_index_intern_iff (r : Registry) (m m' : Member) :
    ((r.intern m).2.index[m']?).isSome = true ↔ m' = m ∨ (r.index[m']?).isSome = true := by
  rw [intern]
  split
  · next i hi =>
    constructor
    · exact .inr
    · rintro (rfl | h)
      · rw [hi]
        rfl
      · exact h
  · rw [Std.HashMap.getElem?_insert]
    by_cases heq : m = m'
    · subst heq
      simp
    · rw [if_neg (by simpa using heq)]
      simp [Ne.symm heq]

/-- What is registered with the references of a list. -/
theorem isSome_index_foldl_intern_iff (ms : List Member) (r : Registry) (m : Member) :
    ((ms.foldl (fun r m => (r.intern m).2) r).index[m]?).isSome = true ↔
      m ∈ ms ∨ (r.index[m]?).isSome = true := by
  induction ms generalizing r with
  | nil => simp
  | cons first ms ih =>
    rw [List.foldl_cons, ih, isSome_index_intern_iff, List.mem_cons]
    tauto

/-- What is registered with the references of links. -/
theorem isSome_index_foldl_registerLink_iff (links : List (Member × Member))
    (state : Registry × List (Nat × Nat)) (m : Member) :
    ((links.foldl registerLink state).1.index[m]?).isSome = true ↔
      (∃ link ∈ links, m = link.1 ∨ m = link.2) ∨ (state.1.index[m]?).isSome = true := by
  induction links generalizing state with
  | nil => simp
  | cons link links ih =>
    have hfirst : ((registerLink state link).1.index[m]?).isSome = true ↔
        m = link.2 ∨ m = link.1 ∨ (state.1.index[m]?).isSome = true := by
      rw [← isSome_index_intern_iff, ← isSome_index_intern_iff]
      rfl
    rw [List.foldl_cons, ih, hfirst]
    simp only [List.mem_cons, exists_eq_or_imp, or_assoc, or_left_comm, or_comm]

end Registry

variable {p : Codebase} {c : Class} {m m' : Member}

/-! ### What is inherited -/

/-- What classes inherit is declared. -/
theorem mem_declared_of_mem_inheritable (h : m ∈ inheritable c) : m ∈ declared c := by
  rcases List.mem_append.1 h with h | h
  · obtain ⟨f, hf, rfl⟩ := List.mem_map.1 h
    exact List.mem_append_left _ (List.mem_map_of_mem (List.mem_of_mem_filter hf))
  · obtain ⟨f, hf, rfl⟩ := List.mem_map.1 h
    exact List.mem_append_right _ (List.mem_map_of_mem (List.mem_of_mem_filter hf))

/-- A reference names an inherited member if the class that it names has another ancestor with such a
member. -/
theorem exists_inherits_iff :
    (∃ m', Inherits p m' m) ↔
      ∃ heir ∈ p.classes, heir.name = m.owner ∧ ∃ c,
        Relation.ReflTransGen (Supertype p) heir c ∧ c.name ≠ heir.name ∧
          ∃ m' ∈ inheritable c, m'.name = m.name ∧ m'.descriptor = m.descriptor := by
  constructor
  · rintro ⟨m', heir, hheir, c, hancestor, hne, hm', rfl⟩
    exact ⟨heir, hheir, rfl, c, hancestor, hne, m', hm', rfl, rfl⟩
  · rintro ⟨heir, hheir, howner, c, hancestor, hne, m', hm', hname, hdescriptor⟩
    refine ⟨m', heir, hheir, c, hancestor, hne, hm', ?_⟩
    rw [howner, Member.withOwner, hname, hdescriptor]

namespace Families

/-! ### Families by number -/

/-- The links of a codebase: each inherited member with the same member as named through the class
that inherits it. -/
def links (p : Codebase) : List (Member × Member) :=
  p.classes.flatMap (inherited (Hierarchy.ofCodebase p))

/-- The registry of a codebase, with the numbers of its links. -/
def registered (p : Codebase) : Registry × List (Nat × Nat) :=
  (links p).foldl registerLink
    ((p.classes.flatMap declared).foldl (fun r m => (r.intern m).2) {}, [])

/-- The sets of the numbers that the links generate. -/
def sets (U : UnionFind) (p : Codebase) : U.State :=
  (registered p).2.foldl (fun s (a, b) => U.join s a b) (U.discrete (registered p).1.members.size)

/-- The partition of the numbers that the links generate. -/
def partition (p : Codebase) : Partition :=
  Partition.ofLinks (registered p).1.members.size (registered p).2

section Keepers

variable (U : UnionFind)

/-- The numbers of the references do not depend on what keeps the sets. -/
theorem index_ofCodebaseBy (p : Codebase) :
    (ofCodebaseBy U p).index = (registered p).1.index := rfl

/-- The family of a number is what stands for its set. -/
theorem family_ofCodebaseBy (p : Codebase) :
    (ofCodebaseBy U p).family =
      (Array.range (registered p).1.members.size).map (U.root (sets U p)) := rfl

/-- The references of a family are collected by their families and sorted. -/
theorem members_ofCodebaseBy (p : Codebase) :
    (ofCodebaseBy U p).members =
      (((ofCodebaseBy U p).family.zip (registered p).1.members).foldl
        (fun table (f, m) => table.modify f (m :: ·))
        (Array.replicate (registered p).1.members.size [])).map
          fun ms => ms.mergeSort fun a b => (compare a b).isLE := rfl

end Keepers

/-- Every declared member is registered, and every link with the numbers of its references. -/
theorem registered_spec (p : Codebase) :
    (registered p).1.Valid ∧
      (∀ c ∈ p.classes, ∀ m ∈ declared c, ∃ i, (registered p).1.index[m]? = some i) ∧
      List.Forall₂ (registered p).1.Numbers (links p).reverse (registered p).2 := by
  obtain ⟨hvalid, -, hdeclared⟩ := Registry.foldl_intern_spec Registry.valid_empty
    (p.classes.flatMap declared)
  obtain ⟨hvalid', hgrows, hnumbers⟩ :=
    Registry.foldl_registerLink_spec (_, []) hvalid [] .nil (links p)
  rw [List.append_nil] at hnumbers
  refine ⟨hvalid', ?_, hnumbers⟩
  intro c hc m hm
  obtain ⟨i, hi⟩ := hdeclared m (List.mem_flatMap.2 ⟨c, hc, hm⟩)
  exact ⟨i, hgrows m i hi⟩

/-- The registry of a codebase is valid. -/
theorem valid_registered (p : Codebase) : (registered p).1.Valid :=
  (registered_spec p).1

/-- The links of a codebase are registered with the numbers of their references. -/
theorem numbers_registered (p : Codebase) :
    List.Forall₂ (registered p).1.Numbers (links p).reverse (registered p).2 :=
  (registered_spec p).2.2

/-- The number of a registered reference is below the size. -/
theorem lt_size_of_index {i : Nat} (h : (registered p).1.index[m]? = some i) :
    i < (registered p).1.members.size := by
  rw [valid_registered p m i] at h
  exact (Array.getElem?_eq_some_iff.1 h).1

/-- The family of a reference is what stands for the set of its number. -/
theorem family?_ofCodebaseBy (U : UnionFind) (p : Codebase) (m : Member) :
    (ofCodebaseBy U p).family? m = ((registered p).1.index[m]?).map (U.root (sets U p)) := by
  rw [family?, index_ofCodebaseBy]
  cases hindex : (registered p).1.index[m]? with
  | none => rfl
  | some i =>
    rw [Option.bind_some, family_ofCodebaseBy, Array.getElem?_map, Array.getElem?_range,
      if_pos (lt_size_of_index hindex), Option.map_some]

/-- The family of a reference is the root of its number. -/
theorem family?_ofCodebase (p : Codebase) (m : Member) :
    (ofCodebase p).family? m = ((registered p).1.index[m]?).map (partition p).root :=
  family?_ofCodebaseBy Partition.unionFind p m

/-- Every declared member has a family. -/
theorem isSome_family?_of_declared {c : Class} (hc : c ∈ p.classes) (hm : m ∈ declared c) :
    ((ofCodebase p).family? m).isSome = true := by
  obtain ⟨i, hi⟩ := (registered_spec p).2.1 c hc m hm
  rw [family?_ofCodebase, hi]
  rfl

/-- The numbers of links are below the size. -/
theorem lt_size_of_numbers {numbers : Nat × Nat} (h : numbers ∈ (registered p).2) :
    numbers.1 < (registered p).1.members.size ∧ numbers.2 < (registered p).1.members.size := by
  obtain ⟨link, -, h1, h2⟩ := exists_of_mem_right (numbers_registered p) h
  exact ⟨lt_size_of_index h1, lt_size_of_index h2⟩

/-- Linked references are in one family. -/
theorem family?_eq_of_link (h : (m, m') ∈ links p) :
    ((ofCodebase p).family? m).isSome = true ∧
      (ofCodebase p).family? m = (ofCodebase p).family? m' := by
  obtain ⟨numbers, hnumbers, h1, h2⟩ :=
    exists_of_mem_left (numbers_registered p) (List.mem_reverse.2 h)
  have hsame := Partition.same_ofLinks (fun _ => lt_size_of_numbers) hnumbers
  rw [family?_ofCodebase, family?_ofCodebase, h1, h2]
  exact ⟨rfl, congrArg some hsame⟩

/-- What is inherited keeps its name and descriptor. -/
theorem name_eq_of_link (h : (m, m') ∈ links p) :
    m.name = m'.name ∧ m.descriptor = m'.descriptor := by
  obtain ⟨c, -, h⟩ := List.mem_flatMap.1 h
  obtain ⟨name, -, h⟩ := List.mem_flatMap.1 h
  split at h
  · cases h
  · split at h
    · cases h
    · obtain ⟨m, -, hlink⟩ := List.mem_map.1 h
      cases hlink
      exact ⟨rfl, rfl⟩

/-- What linked references have in common the references of a family have in common. -/
theorem common_of_family?_eq {β : Type} (f : Member → β)
    (hlinks : ∀ link ∈ links p, f link.1 = f link.2) {φ : Nat}
    (h : (ofCodebase p).family? m = some φ) (h' : (ofCodebase p).family? m' = some φ) :
    f m = f m' := by
  rw [family?_ofCodebase, Option.map_eq_some_iff] at h h'
  obtain ⟨i, hi, rfl⟩ := h
  obtain ⟨j, hj, hroot⟩ := h'
  have hvalue : ∀ {m : Member} {i : Nat}, (registered p).1.index[m]? = some i →
      ((registered p).1.members[i]?).map f = some (f m) := by
    intro m i hi
    rw [(valid_registered p m i).1 hi, Option.map_some]
  have hR : Equivalence fun i j : Nat =>
      ((registered p).1.members[i]?).map f = ((registered p).1.members[j]?).map f :=
    ⟨fun _ => rfl, Eq.symm, Eq.trans⟩
  have hnumbers : ∀ numbers ∈ (registered p).2,
      ((registered p).1.members[numbers.1]?).map f =
        ((registered p).1.members[numbers.2]?).map f := by
    intro numbers hnumbers
    obtain ⟨link, hlink, h1, h2⟩ := exists_of_mem_right (numbers_registered p) hnumbers
    rw [hvalue h1, hvalue h2, hlinks link (List.mem_reverse.1 hlink)]
  have hsame := Partition.of_same_ofLinks (fun _ => lt_size_of_numbers) hR hnumbers
    (a := i) (b := j) hroot.symm
  rw [hvalue hi, hvalue hj] at hsame
  exact Option.some_inj.1 hsame

/-- The references of a family have one name and one descriptor. -/
theorem eq_of_family?_eq {φ : Nat} (h : (ofCodebase p).family? m = some φ)
    (h' : (ofCodebase p).family? m' = some φ) :
    m.name = m'.name ∧ m.descriptor = m'.descriptor := by
  refine Prod.mk.inj (common_of_family?_eq (fun m => (m.name, m.descriptor)) ?_ h h')
  intro link hlink
  obtain ⟨hname, hdescriptor⟩ := name_eq_of_link hlink
  exact Prod.ext hname hdescriptor

/-- Numbers below the bound tell the same sets, whatever keeps them. -/
theorem alike_sets {U : UnionFind} (hU : U.Lawful) (p : Codebase) :
    U.Alike Partition.unionFind (registered p).1.members.size (sets U p) (partition p) :=
  (UnionFind.Alike.discrete hU Partition.lawful_unionFind _).foldl_join hU
    Partition.lawful_unionFind fun _ => lt_size_of_numbers

/-- The references that are linked with a reference are those of its set, sorted. -/
theorem linked_eq {U : UnionFind} (hU : U.Lawful) {i : Nat}
    (h : (registered p).1.index[m]? = some i) :
    (ofCodebaseBy U p).linked m =
      (((registered p).1.members.toList.zipIdx.reverse.filter fun e =>
        U.root (sets U p) e.2 = U.root (sets U p) i).map (·.1)).mergeSort
          fun a b => (compare a b).isLE := by
  have hfamily : (ofCodebaseBy U p).family? m = some (U.root (sets U p) i) := by
    rw [family?_ofCodebaseBy, h, Option.map_some]
  have hroot : U.root (sets U p) i < (registered p).1.members.size :=
    hU.root_lt (alike_sets hU p).left (lt_size_of_index h)
  have hzip : ((ofCodebaseBy U p).family.zip (registered p).1.members).toList =
      (registered p).1.members.toList.zipIdx.map fun e => (U.root (sets U p) e.2, e.1) := by
    rw [Array.toList_zip, family_ofCodebaseBy, Array.toList_map, Array.toList_range,
      List.zipIdx_eq_zip_range', ← List.range_eq_range', Array.length_toList, List.zip_map_left, ← List.zip_swap,
      List.map_map]
    rfl
  have hmembers : (ofCodebaseBy U p).members[U.root (sets U p) i]? = some
      ((((registered p).1.members.toList.zipIdx.reverse.filter fun e =>
        U.root (sets U p) e.2 = U.root (sets U p) i).map (·.1)).mergeSort
          fun a b => (compare a b).isLE) := by
    rw [members_ofCodebaseBy, Array.getElem?_map, ← Array.foldl_toList, hzip, ← List.foldr_reverse,
      getElem?_foldr_modify (fun e : Nat × Member => e.1) (fun e => e.2),
      Array.getElem?_replicate, if_pos hroot, ← List.map_reverse, List.filter_map, List.map_map]
    simp [Function.comp_def]
  rw [linked, hfamily, Option.bind_some, hmembers]

/-- The references that are linked with a reference are those of its family. -/
theorem mem_linked_iff {φ : Nat} (h : (ofCodebase p).family? m = some φ) :
    m' ∈ (ofCodebase p).linked m ↔ (ofCodebase p).family? m' = some φ := by
  rw [family?_ofCodebase, Option.map_eq_some_iff] at h
  obtain ⟨i, hi, rfl⟩ := h
  rw [family?_ofCodebase, Option.map_eq_some_iff, ofCodebase,
    linked_eq Partition.lawful_unionFind hi, List.mem_mergeSort, List.mem_map]
  constructor
  · rintro ⟨⟨m', j⟩, hj, rfl⟩
    obtain ⟨hj, hroot⟩ := List.mem_filter.1 hj
    have hmember := List.mem_zipIdx_iff_getElem?.1 (List.mem_reverse.1 hj)
    rw [Array.getElem?_toList] at hmember
    exact ⟨j, (valid_registered p m' j).2 hmember, of_decide_eq_true hroot⟩
  · rintro ⟨j, hj, hroot⟩
    refine ⟨(m', j), List.mem_filter.2 ⟨List.mem_reverse.2 ?_, decide_eq_true hroot⟩, rfl⟩
    rw [List.mem_zipIdx_iff_getElem?, Array.getElem?_toList]
    exact (valid_registered p m' j).1 hj

/-! ### Families by inheritance -/

/-- The links of a codebase tie the members that classes inherit. -/
theorem mem_links_iff (hdistinct : (p.classes.map (·.name)).Nodup) :
    (m, m') ∈ links p ↔ Inherits p m m' := by
  constructor
  · intro h
    obtain ⟨heir, hheir, h⟩ := List.mem_flatMap.1 h
    obtain ⟨n, hn, h⟩ := List.mem_flatMap.1 h
    obtain ⟨c, hancestor, rfl⟩ := (Hierarchy.mem_ancestors_iff hdistinct hheir).1 hn
    have hc := mem_classes_of_reflTransGen hancestor hheir
    rw [(Hierarchy.class?_eq_some_iff hdistinct).2 ⟨hc, rfl⟩] at h
    dsimp only at h
    split at h
    · cases h
    · next hne =>
      obtain ⟨m, hm, hlink⟩ := List.mem_map.1 h
      cases hlink
      exact ⟨heir, hheir, c, hancestor, by simpa using hne, hm, rfl⟩
  · rintro ⟨heir, hheir, c, hancestor, hne, hm, rfl⟩
    have hc := mem_classes_of_reflTransGen hancestor hheir
    have hname := (Hierarchy.mem_ancestors_iff hdistinct hheir).2 ⟨c, hancestor, rfl⟩
    refine List.mem_flatMap.2 ⟨heir, hheir, List.mem_flatMap.2 ⟨c.name, hname, ?_⟩⟩
    rw [(Hierarchy.class?_eq_some_iff hdistinct).2 ⟨hc, rfl⟩]
    dsimp only
    rw [if_neg (by simpa using hne)]
    exact List.mem_map.2 ⟨m, hm, rfl⟩

/-- A reference has a family if it is declared, or if it names a member that a class inherits. -/
theorem isSome_family?_iff (hdistinct : (p.classes.map (·.name)).Nodup) :
    ((ofCodebase p).family? m).isSome = true ↔
      (∃ c ∈ p.classes, m ∈ declared c) ∨ ∃ m', Inherits p m' m := by
  have hregistered : ((registered p).1.index[m]?).isSome = true ↔
      (∃ link ∈ links p, m = link.1 ∨ m = link.2) ∨ ∃ c ∈ p.classes, m ∈ declared c := by
    rw [registered, Registry.isSome_index_foldl_registerLink_iff,
      Registry.isSome_index_foldl_intern_iff, List.mem_flatMap]
    simp
  rw [family?_ofCodebase, Option.isSome_map, hregistered]
  constructor
  · rintro (⟨⟨m₁, m₂⟩, hlink, rfl | rfl⟩ | hdeclared)
    · -- what a class inherits from another one, that one declares
      obtain ⟨heir, hheir, c, hancestor, -, hm, -⟩ := (mem_links_iff hdistinct).1 hlink
      exact .inl ⟨c, mem_classes_of_reflTransGen hancestor hheir,
        mem_declared_of_mem_inheritable hm⟩
    · exact .inr ⟨m₁, (mem_links_iff hdistinct).1 hlink⟩
    · exact .inl hdeclared
  · rintro (hdeclared | ⟨m', hinherits⟩)
    · exact .inr hdeclared
    · exact .inl ⟨(m', m), (mem_links_iff hdistinct).2 hinherits, .inr rfl⟩

/-- References with a family are in one family if inherited members tie them, and only then. -/
theorem family?_eq_iff (hdistinct : (p.classes.map (·.name)).Nodup)
    (hm : ((ofCodebase p).family? m).isSome = true) :
    (ofCodebase p).family? m = (ofCodebase p).family? m' ↔
      Relation.EqvGen (Inherits p) m m' := by
  constructor
  · intro h
    obtain ⟨φ, hφ⟩ := Option.isSome_iff_exists.1 hm
    refine Quot.eqvGen_exact (common_of_family?_eq (Quot.mk (Inherits p)) ?_ hφ (h ▸ hφ))
    rintro ⟨m₁, m₂⟩ hlink
    exact Quot.sound ((mem_links_iff hdistinct).1 hlink)
  · intro h
    clear hm
    induction h with
    | rel a b hinherits => exact (family?_eq_of_link ((mem_links_iff hdistinct).2 hinherits)).2
    | refl a => rfl
    | symm a b _ ih => exact ih.symm
    | trans a b c _ _ ih ih' => exact ih.trans ih'

/-! ### The references of a family -/

/-- No reference is linked twice with a reference. -/
theorem nodup_linked {φ : Nat} (h : (ofCodebase p).family? m = some φ) :
    ((ofCodebase p).linked m).Nodup := by
  rw [family?_ofCodebase, Option.map_eq_some_iff] at h
  obtain ⟨i, hi, -⟩ := h
  rw [ofCodebase, linked_eq Partition.lawful_unionFind hi, List.nodup_mergeSort]
  have hnodup : (registered p).1.members.toList.zipIdx.Nodup := by
    refine List.Nodup.of_map Prod.snd ?_
    rw [List.zipIdx_map_snd]
    exact List.nodup_range'
  refine List.Nodup.map_on ?_ ((List.nodup_reverse.2 hnodup).filter _)
  -- a reference has one number
  rintro ⟨m, j⟩ hj ⟨m', k⟩ hk (rfl : m = m')
  have hj := List.mem_zipIdx_iff_getElem?.1 (List.mem_reverse.1 (List.mem_of_mem_filter hj))
  have hk := List.mem_zipIdx_iff_getElem?.1 (List.mem_reverse.1 (List.mem_of_mem_filter hk))
  rw [Array.getElem?_toList, ← valid_registered] at hj hk
  rw [hj] at hk
  exact congrArg (Prod.mk m) (Option.some.inj hk)

/-- References are ordered by owner, then name, then descriptor. -/
theorem transCmp_compareMember : Std.TransCmp Member.compare :=
  (inferInstance : Std.TransCmp (compareLex (compareOn Member.owner)
    (compareLex (compareOn Member.name) (compareOn Member.descriptor))))

/-- The references that are linked with a reference are in ascending order. -/
theorem pairwise_linked {φ : Nat} (h : (ofCodebase p).family? m = some φ) :
    ((ofCodebase p).linked m).Pairwise fun a b => (compare a b).isLE = true := by
  have := transCmp_compareMember
  have htrans : ∀ a b c : Member, (compare a b).isLE = true → (compare b c).isLE = true →
      (compare a c).isLE = true := fun _ _ _ => this.isLE_trans
  have htotal : ∀ a b : Member, ((compare a b).isLE || (compare b a).isLE) = true := by
    intro a b
    have hswap : compare b a = (compare a b).swap := this.eq_swap
    rw [hswap]
    cases compare a b <;> rfl
  rw [family?_ofCodebase, Option.map_eq_some_iff] at h
  obtain ⟨i, hi, -⟩ := h
  rw [ofCodebase, linked_eq Partition.lawful_unionFind hi]
  exact List.pairwise_mergeSort htrans htotal _

/-! ### Whatever keeps the sets -/

/-- Two references are in one family, whatever keeps the sets. -/
theorem family?_by_eq_iff {U : UnionFind} (hU : U.Lawful) :
    (ofCodebaseBy U p).family? m = (ofCodebaseBy U p).family? m' ↔
      (ofCodebase p).family? m = (ofCodebase p).family? m' := by
  rw [family?_ofCodebaseBy, family?_ofCodebaseBy, family?_ofCodebase, family?_ofCodebase]
  cases hi : (registered p).1.index[m]? with
  | none => cases (registered p).1.index[m']? <;> simp
  | some i =>
    cases hj : (registered p).1.index[m']? with
    | none => simp
    | some j =>
      rw [Option.map_some, Option.map_some, Option.map_some, Option.map_some, Option.some_inj,
        Option.some_inj]
      exact (alike_sets hU p).root_eq_iff i (lt_size_of_index hi) j (lt_size_of_index hj)

/-- The same references are linked with a reference that has a family, whatever keeps the sets. -/
theorem linked_by_eq {U : UnionFind} (hU : U.Lawful) (m : Member) :
    (ofCodebaseBy U p).linked m = (ofCodebase p).linked m := by
  cases hi : (registered p).1.index[m]? with
  | none =>
    rw [linked, linked, family?_ofCodebaseBy, family?_ofCodebase, hi]
    rfl
  | some i =>
    rw [linked_eq hU hi, ofCodebase, linked_eq Partition.lawful_unionFind hi]
    congr 2
    refine List.filter_congr fun e he => decide_eq_decide.2 ?_
    have hlt := (List.getElem?_eq_some_iff.1
      (List.mem_zipIdx_iff_getElem?.1 (List.mem_reverse.1 he))).1
    rw [Array.length_toList] at hlt
    exact (alike_sets hU p).root_eq_iff e.2 hlt i (lt_size_of_index hi)

/-- The same references have a family, whatever keeps the sets. -/
theorem isSome_family?_by (U : UnionFind) (p : Codebase) (m : Member) :
    ((ofCodebaseBy U p).family? m).isSome = ((ofCodebase p).family? m).isSome := by
  rw [family?_ofCodebaseBy, family?_ofCodebase, Option.isSome_map, Option.isSome_map]

/-- If classes have different names, the ancestors of a class are the classes that its supertypes lead
to, once each and itself first. The references with a family are those to members that a class
declares or inherits, two of them are in one family if inherited members tie them, the references of
a family have one name and one descriptor, and those that are linked with a reference are its family
in ascending order. It does not matter what keeps the sets of references. -/
theorem inheritance_exact {U : UnionFind} (hU : U.Lawful) (p : Codebase)
    (hdistinct : (p.classes.map (·.name)).Nodup) :
    (∀ c ∈ p.classes,
      (∃ rest, (Hierarchy.ofCodebase p).ancestors c.name = c.name :: rest) ∧
      ((Hierarchy.ofCodebase p).ancestors c.name).Nodup ∧
      ∀ n, n ∈ (Hierarchy.ofCodebase p).ancestors c.name ↔
        ∃ d, Relation.ReflTransGen (Supertype p) c d ∧ d.name = n) ∧
    (∀ m, ((ofCodebaseBy U p).family? m).isSome = true ↔
      (∃ c ∈ p.classes, m ∈ declared c) ∨
        ∃ heir ∈ p.classes, heir.name = m.owner ∧ ∃ c,
          Relation.ReflTransGen (Supertype p) heir c ∧ c.name ≠ heir.name ∧
            ∃ m' ∈ inheritable c, m'.name = m.name ∧ m'.descriptor = m.descriptor) ∧
    (∀ m m', ((ofCodebaseBy U p).family? m).isSome = true →
      ((ofCodebaseBy U p).family? m').isSome = true →
      ((ofCodebaseBy U p).family? m = (ofCodebaseBy U p).family? m' ↔
        Relation.EqvGen (Inherits p) m m')) ∧
    ∀ m φ, (ofCodebaseBy U p).family? m = some φ →
      (∀ m', (ofCodebaseBy U p).family? m' = some φ →
        m'.name = m.name ∧ m'.descriptor = m.descriptor) ∧
      ((ofCodebaseBy U p).linked m).Nodup ∧
      ((ofCodebaseBy U p).linked m).Pairwise (fun a b => (compare a b).isLE = true) ∧
      ∀ m', m' ∈ (ofCodebaseBy U p).linked m ↔ (ofCodebaseBy U p).family? m' = some φ := by
  refine ⟨?_, ?_, ?_, ?_⟩
  · intro c hc
    exact ⟨Hierarchy.ancestors_eq_cons hdistinct hc, Hierarchy.nodup_ancestors hdistinct c.name,
      fun n => Hierarchy.mem_ancestors_iff hdistinct hc⟩
  · intro m
    rw [isSome_family?_by, isSome_family?_iff hdistinct, exists_inherits_iff]
  · intro m m' hm _
    rw [isSome_family?_by] at hm
    rw [family?_by_eq_iff hU]
    exact family?_eq_iff hdistinct hm
  · intro m φ hφ
    -- What is known of partitions goes over: the same references have families, and the same ones are
    -- in one.
    have hsome : ((ofCodebase p).family? m).isSome = true := by
      rw [← isSome_family?_by U, hφ, Option.isSome_some]
    obtain ⟨ψ, hψ⟩ := Option.isSome_iff_exists.1 hsome
    have hiff : ∀ m', (ofCodebaseBy U p).family? m' = some φ ↔
        (ofCodebase p).family? m' = some ψ := by
      intro m'
      rw [← hφ, ← hψ, family?_by_eq_iff hU]
    rw [linked_by_eq hU]
    refine ⟨fun m' hm' => eq_of_family?_eq ((hiff m').1 hm') hψ, nodup_linked hψ,
      pairwise_linked hψ, fun m' => ?_⟩
    rw [mem_linked_iff hψ, hiff]

/-- Two classes that inherit from each other, and a third one that inherits from both of them and
from a class that is not there. The second one declares a field. -/
def cyclicCodebase : Codebase where
  classes :=
    [{ name := "A", superclass := some "B", access := .publicFlag },
      { name := "B", superclass := some "A", access := .publicFlag
        fields := [{ owner := "B", name := "x", descriptor := "I", access := .publicFlag }] },
      { name := "C", superclass := some "java/lang/Object", interfaces := ["A", "B"]
        access := .publicFlag }]

/-- The third class inherits the field from the second one, and names it by a reference of the same
family. -/
theorem inheritance_exact_cyclic :
    (cyclicCodebase.classes.map (·.name)).Nodup ∧
      "B" ∈ (Hierarchy.ofCodebase cyclicCodebase).ancestors "C" ∧
      ((ofCodebase cyclicCodebase).family? ⟨"C", "x", "I"⟩).isSome = true ∧
      (ofCodebase cyclicCodebase).family? ⟨"C", "x", "I"⟩ =
        (ofCodebase cyclicCodebase).family? ⟨"B", "x", "I"⟩ := by
  have hdistinct : (cyclicCodebase.classes.map (·.name)).Nodup := by decide
  obtain ⟨hancestors, hsome, hsame, -⟩ := inheritance_exact
    Partition.lawful_unionFind cyclicCodebase hdistinct
  have hb : cyclicCodebase.classes[1] ∈ cyclicCodebase.classes := List.getElem_mem _
  have hc : cyclicCodebase.classes[2] ∈ cyclicCodebase.classes := List.getElem_mem _
  have hsuper : Relation.ReflTransGen (Supertype cyclicCodebase) cyclicCodebase.classes[2]
      cyclicCodebase.classes[1] := .single ⟨hb, by decide⟩
  have hinherits : Inherits cyclicCodebase ⟨"B", "x", "I"⟩ ⟨"C", "x", "I"⟩ :=
    ⟨_, hc, _, hsuper, by decide, by decide, rfl⟩
  have hdeclared := (hsome ⟨"B", "x", "I"⟩).2 (.inl ⟨_, hb, by decide⟩)
  have hinherited := (hsome ⟨"C", "x", "I"⟩).2
    (.inr ⟨_, hc, rfl, _, hsuper, by decide, ⟨"B", "x", "I"⟩, by decide, rfl, rfl⟩)
  refine ⟨hdistinct, ((hancestors _ hc).2.2 "B").2 ⟨_, hsuper, rfl⟩, hinherited, ?_⟩
  exact (hsame _ _ hinherited hdeclared).2 (.symm _ _ (.rel _ _ hinherits))

end Families

end Unscramble.Naming
