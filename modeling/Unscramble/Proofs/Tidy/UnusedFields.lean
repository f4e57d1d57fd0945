import Unscramble.Proofs.Tidy.Holder

/-! # Removing unused fields

An instruction refers to a field if it accesses the field, or if it pushes a handle that does. The
removal keeps the fields whose family an access names, under whatever name, and removes all others. It
leaves the handles out of account: a field goes although a handle of it is pushed, unless there is an
access as well. As all fields that a reference can mean are of its family, an access of one of them
keeps all of them.

Main definitions: `fieldReference?`, `Accessed`, `Codebase.fieldsFound`. Main statements:
`mem_fields_withoutUnused_iff`, `fieldsFound_removeUnusedFields`, `removeUnusedFields_loses_handle`. -/

namespace Unscramble

open Naming

variable {p q : Codebase} {c : Class} {f : Field} {m : Member}

/-! ### The classes that a class inherits from -/

namespace Naming.Hierarchy

/-- What a hierarchy takes from a class. -/
def entry (c : Class) : String × List String :=
  (c.name, c.supertypes)

/-- Who inherits from whom is told by the names of the classes and of their supertypes. -/
theorem ancestors_congr (h : q.classes.map entry = p.classes.map entry) :
    (ofCodebase q).ancestors = (ofCodebase p).ancestors := by
  -- The table of names, the parents and the names of the ancestors depend on the entries only.
  have hlast : ∀ p : Codebase, (ofCodebase p).last =
      (p.classes.map entry).zipIdx.foldl (fun m c => m.insert c.1.1 c.2) ∅ := by
    intro p
    rw [List.zipIdx_map, List.foldl_map]
    rfl
  have hlast : (ofCodebase q).last = (ofCodebase p).last := by rw [hlast, hlast, h]
  have hget : ∀ i : Nat, (q.classes[i]?).map entry = (p.classes[i]?).map entry := by
    intro i
    rw [← List.getElem?_map, h, List.getElem?_map]
  have hsize : (ofCodebase q).classes.size = (ofCodebase p).classes.size := by
    simpa [ofCodebase] using congrArg List.length h
  have hparents : (ofCodebase q).parents = (ofCodebase p).parents := by
    have htold : ∀ (p : Codebase) (i : Nat), (ofCodebase p).parents i =
        (((p.classes[i]?).map entry).map fun c =>
          c.2.filterMap ((ofCodebase p).last[·]?)).getD [] := by
      intro p i
      rw [parents, getElem?_classes]
      cases p.classes[i]? <;> rfl
    funext i
    rw [htold, htold, hget, hlast]
  have hname : ∀ (p : Codebase) (i : Nat), ((ofCodebase p).classes[i]?).map (·.name) =
      ((p.classes[i]?).map entry).map (·.1) := by
    intro p i
    rw [getElem?_classes, Option.map_map]
    rfl
  funext n
  rw [ancestors, ancestors, hlast, hsize, hparents]
  simp only [hname, hget]

/-- A name has a place only if a class has it. -/
theorem exists_of_last {n : String} {i : Nat} (h : (ofCodebase p).last[n]? = some i) :
    ∃ c ∈ p.classes, c.name = n := by
  have hfold : ∀ (cs : List Class) (k : Nat) (table : Std.HashMap String Nat),
      ((cs.zipIdx k).foldl (fun m item => m.insert item.1.name item.2) table)[n]? = some i →
        table[n]? = some i ∨ ∃ c ∈ cs, c.name = n := by
    intro cs
    induction cs with
    | nil => exact fun k table h => .inl h
    | cons c cs ih =>
      intro k table h
      rw [List.zipIdx_cons, List.foldl_cons] at h
      rcases ih _ _ h with h | ⟨d, hd, hn⟩
      · rw [Std.HashMap.getElem?_insert] at h
        split at h
        · next hn => exact .inr ⟨c, List.mem_cons_self, beq_iff_eq.1 hn⟩
        · exact .inl h
      · exact .inr ⟨d, List.mem_cons_of_mem _ hd, hn⟩
  rcases hfold _ _ _ h with h | h
  · rw [Std.HashMap.getElem?_empty] at h
    cases h
  · exact h

/-- Only names of classes have ancestors. -/
theorem exists_of_ancestors {n o : String} (h : n ∈ (ofCodebase p).ancestors o) :
    ∃ c ∈ p.classes, c.name = o := by
  rw [ancestors] at h
  split at h
  · cases h
  · next hi => exact exists_of_last hi

/-- The table of the first class of each name. -/
theorem class?_ofCodebase (p : Codebase) (n : String) : (ofCodebase p).class? n = p.class? n := by
  have hfold : ∀ (cs : List Class) (k : Nat) (table : Std.HashMap String Nat),
      ((cs.zipIdx k).foldl (fun m item => m.insertIfNew item.1.name item.2) table)[n]? =
        (table[n]?).or ((cs.findIdx? (·.name == n)).map (· + k)) := by
    intro cs
    induction cs with
    | nil => simp
    -- An entry is not replaced by a later class of its name.
    | cons c cs ih =>
      intro k table
      rw [List.zipIdx_cons, List.foldl_cons, ih, Std.HashMap.getElem?_insertIfNew,
        List.findIdx?_cons]
      cases hn : c.name == n with
      | true =>
        cases hold : table[n]? with
        | none =>
          have hnew : c.name ∉ table := by
            rw [beq_iff_eq.1 hn]
            simpa using hold
          simp [hnew]
        | some i =>
          have hold' : c.name ∈ table := by
            rw [beq_iff_eq.1 hn]
            simpa using Option.isSome_iff_exists.2 ⟨i, hold⟩
          simp [hold']
      | false =>
        simp [Option.map_map, Function.comp_def, Nat.add_assoc, Nat.add_comm 1]
  have hfirst : (ofCodebase p).first[n]? = p.classes.findIdx? (·.name == n) := by
    show ((p.classes.zipIdx 0).foldl _ ∅)[n]? = _
    rw [hfold]
    simp
  rw [class?, hfirst, Codebase.class?, List.find?_eq_bind_findIdx?_getElem?]
  simp only [getElem?_classes]

end Naming.Hierarchy

/-! ### What a reference to a field can mean -/

/-- Whether a reference can mean a field that the class of a given name declares; private fields are
only meant by references that name the class itself. -/
def Field.isMeant (m : Member) (n : String) (f : Field) : Bool :=
  f.isNamed m.name m.descriptor && (n == m.owner || !f.isPrivate)

/-- The fields that a reference can mean, nearer ones first: those of its name and type that the class
it names or an ancestor of that class declares. -/
def Codebase.fieldsFound (p : Codebase) (m : Member) : List Field :=
  ((Hierarchy.ofCodebase p).ancestors m.owner).flatMap fun n =>
    (((p.class? n).map (·.fields)).getD []).filter (Field.isMeant m n)

/-- The field that a reference resolves to. -/
def Codebase.fieldFound? (p : Codebase) (m : Member) : Option Field :=
  (p.fieldsFound m).head?

/-- The class of a name has the name. -/
theorem Codebase.class?_spec {n : String} (h : p.class? n = some c) : c ∈ p.classes ∧ c.name = n :=
  ⟨List.mem_of_find?_eq_some h, by simpa using List.find?_some h⟩

/-- What a reference can mean is declared by a class, under its name and type. -/
theorem Codebase.exists_of_fieldsFound (h : f ∈ p.fieldsFound m) :
    ∃ c ∈ p.classes, f ∈ c.fields ∧ f.isNamed m.name m.descriptor = true := by
  obtain ⟨n, -, hf⟩ := List.mem_flatMap.1 h
  cases hn : p.class? n with
  | none => simp [hn] at hf
  | some c =>
    rw [hn, List.mem_filter, Field.isMeant, Bool.and_eq_true] at hf
    exact ⟨c, (Codebase.class?_spec hn).1, hf.1, hf.2.1⟩

/-- A reference is of the family of each field that it can mean. -/
theorem family?_of_isMeant (howners : ∀ c ∈ p.classes, ∀ f ∈ c.fields, f.owner = c.name) {n : String}
    (hn : n ∈ (Hierarchy.ofCodebase p).ancestors m.owner) (hc : p.class? n = some c)
    (hf : f ∈ c.fields) (hmeant : f.isMeant m n = true) :
    (Families.ofCodebase p).family? f.key = (Families.ofCodebase p).family? m := by
  obtain ⟨hclass, rfl⟩ := Codebase.class?_spec hc
  rw [Field.isMeant, Bool.and_eq_true, Field.isNamed, Bool.and_eq_true, beq_iff_eq, beq_iff_eq,
    Bool.or_eq_true, beq_iff_eq] at hmeant
  obtain ⟨⟨hname, hdescriptor⟩, hshown⟩ := hmeant
  have hm : f.key.withOwner m.owner = m := by
    rw [Field.key, Member.withOwner, hname, hdescriptor]
  by_cases hown : c.name = m.owner
  · have hkey : f.key = m := by
      rw [← hm, ← hown, ← howners c hclass f hf]
      rfl
    rw [hkey]
  · -- the class that the reference names inherits the field
    obtain ⟨heir, hheir, hname⟩ := Hierarchy.exists_of_ancestors hn
    have hinheritable : f.key ∈ inheritable c :=
      List.mem_append_left _ (List.mem_map_of_mem (List.mem_filter.2 ⟨hf, hshown.resolve_left hown⟩))
    refine (Families.family?_eq_of_link (List.mem_flatMap.2 ⟨heir, hheir, ?_⟩)).2
    refine List.mem_flatMap.2 ⟨c.name, hname ▸ hn, ?_⟩
    rw [Hierarchy.class?_ofCodebase, hc]
    dsimp only
    rw [if_neg (by simpa [hname] using hown)]
    exact List.mem_map.2 ⟨f.key, hinheritable, by rw [hname, hm]⟩

namespace Tidy

/-! ### What is kept -/

/-- The field that an instruction refers to: the one that it accesses, or that a handle accesses which
it pushes. The kinds of such handles are 1 to 4. -/
def fieldReference? : Instruction Label → Option Member
  | .field _ m => some m
  | .push (.methodHandle kind m _) => if 1 ≤ kind && kind ≤ 4 then some m else none
  | _ => none

/-- An instruction accesses a field of the family of a reference. -/
def Accessed (p : Codebase) (m : Member) : Prop :=
  ∃ m' ∈ fieldReferences p.methods,
    (Families.ofCodebase p).family? m' = (Families.ofCodebase p).family? m

/-- Whether the removal of unused fields keeps a field. -/
def isUsed (p : Codebase) (f : Field) : Bool :=
  ((Families.ofCodebase p).family? f.key).isNone || belongsTo (Families.ofCodebase p)
    (familiesOf (Families.ofCodebase p) (fieldReferences p.methods)) f.key

/-- A class without its unused fields. -/
def withoutUnused (p : Codebase) (c : Class) : Class :=
  { c with fields := c.fields.filter (isUsed p) }

/-- Removing unused fields removes them from each class. -/
theorem removeUnusedFields_eq (p : Codebase) :
    (removeUnusedFields p).2 = { p with classes := p.classes.map (withoutUnused p) } := rfl

/-- The families of some references. -/
theorem mem_familiesOf_iff {families : Families} {references : List Member} {φ : Nat} :
    φ ∈ familiesOf families references ↔ ∃ m ∈ references, families.family? m = some φ := by
  have hfold : ∀ s : Std.HashSet Nat,
      φ ∈ references.foldl (fun s m => (families.family? m).elim s s.insert) s ↔
        φ ∈ s ∨ ∃ m ∈ references, families.family? m = some φ := by
    induction references with
    | nil => simp
    | cons m references ih =>
      intro s
      rw [List.foldl_cons, ih]
      cases hm : families.family? m with
      | none => simp [hm]
      | some ψ => simp [hm, or_assoc, or_left_comm]
  have helim : familiesOf families references =
      references.foldl (fun s m => (families.family? m).elim s s.insert) ∅ := by
    rw [familiesOf]
    congr 1
    funext s m
    cases families.family? m <;> rfl
  rw [helim]
  exact (hfold ∅).trans (or_iff_right Std.HashSet.not_mem_empty)

/-- A field is kept if there is an access to its family, and only then. -/
theorem isUsed_iff (hc : c ∈ p.classes) (hf : f ∈ c.fields) :
    isUsed p f = true ↔ Accessed p f.key := by
  have hdeclared : f.key ∈ declared c := List.mem_append_left _ (List.mem_map_of_mem hf)
  obtain ⟨φ, hφ⟩ := Option.isSome_iff_exists.1 (Families.isSome_family?_of_declared hc hdeclared)
  rw [isUsed, belongsTo, Accessed, hφ, Option.isNone_some, Bool.false_or, Option.any_some,
    Std.HashSet.contains_iff_mem, mem_familiesOf_iff]

/-- **The removal keeps the fields whose family is accessed,** and takes away all others. -/
theorem mem_fields_withoutUnused_iff (hc : c ∈ p.classes) :
    f ∈ (withoutUnused p c).fields ↔ f ∈ c.fields ∧ Accessed p f.key := by
  rw [withoutUnused, List.mem_filter]
  exact and_congr_right fun hf => isUsed_iff hc hf

/-- An access to a field is one to its family. -/
theorem accessed_of_field {b : Body} {op : Opcode} (hb : b ∈ p.bodies)
    (hi : .field op m ∈ b.listing.instructions) : Accessed p m :=
  ⟨m, List.mem_flatMap.2 ⟨b, hb, List.mem_filterMap.2 ⟨_, hi, rfl⟩⟩, rfl⟩

/-- A class has its unused fields removed. -/
theorem class?_removeUnusedFields (p : Codebase) (n : String) :
    (removeUnusedFields p).2.class? n = (p.class? n).map (withoutUnused p) := by
  rw [removeUnusedFields_eq, Codebase.class?, List.find?_map]
  rfl

/-- A reference can mean the same fields as before if there is an access to its family. -/
theorem fieldsFound_of_accessed
    (howners : ∀ c ∈ p.classes, ∀ f ∈ c.fields, f.owner = c.name) (h : Accessed p m) :
    (removeUnusedFields p).2.fieldsFound m = p.fieldsFound m := by
  have hancestors : (Hierarchy.ofCodebase (removeUnusedFields p).2).ancestors =
      (Hierarchy.ofCodebase p).ancestors := by
    refine Hierarchy.ancestors_congr ?_
    rw [removeUnusedFields_eq, List.map_map]
    rfl
  rw [Codebase.fieldsFound, Codebase.fieldsFound, hancestors]
  refine List.flatMap_congr fun n hn => ?_
  rw [class?_removeUnusedFields]
  cases hc : p.class? n with
  | none => rfl
  | some c =>
    show (c.fields.filter (isUsed p)).filter _ = c.fields.filter _
    rw [List.filter_filter]
    refine List.filter_congr fun f hf => ?_
    rw [Bool.and_eq_left_iff_imp]
    intro hmeant
    -- all that the reference can mean is of its family, so it is kept
    obtain ⟨m', hm', hfamily⟩ := h
    exact (isUsed_iff (Codebase.class?_spec hc).1 hf).2
      ⟨m', hm', hfamily.trans (family?_of_isMeant howners hn hc hf hmeant).symm⟩

/-- **Accessed fields stay.** If an instruction refers to a field, directly or through the name of an
inheriting class, and some access names the family of the field in case the instruction only pushes a
handle, then after the removal of unused fields the reference can mean the same fields as before, and
the one that it resolves to is still there. -/
theorem fieldsFound_removeUnusedFields
    (howners : ∀ c ∈ p.classes, ∀ f ∈ c.fields, f.owner = c.name) {b : Body} {i : Instruction Label}
    (hb : b ∈ p.bodies) (hi : i ∈ b.listing.instructions) (hm : fieldReference? i = some m)
    (hhandle : ∀ kind viaInterface, i = .push (.methodHandle kind m viaInterface) → Accessed p m) :
    (removeUnusedFields p).2.fieldsFound m = p.fieldsFound m ∧
      ∀ f, p.fieldFound? m = some f → (removeUnusedFields p).2.fieldFound? m = some f ∧
        ∃ c ∈ (removeUnusedFields p).2.classes, f ∈ c.fields := by
  -- An instruction that accesses the field is such an access itself.
  have haccessed : Accessed p m := by
    unfold fieldReference? at hm
    split at hm
    · cases hm
      exact accessed_of_field hb hi
    · split at hm
      · cases hm
        exact hhandle _ _ rfl
      · cases hm
    · cases hm
  have hsame := fieldsFound_of_accessed howners haccessed
  refine ⟨hsame, fun f hf => ⟨?_, ?_⟩⟩
  · rw [Codebase.fieldFound?, hsame]
    exact hf
  · have hmem : f ∈ (removeUnusedFields p).2.fieldsFound m := by
      rw [hsame]
      exact List.mem_of_mem_head? hf
    obtain ⟨c, hc, hfield, -⟩ := Codebase.exists_of_fieldsFound hmem
    exact ⟨c, hc, hfield⟩

/-- A static integer field. -/
def staticInteger (owner name : String) : Field where
  owner := owner
  name := name
  descriptor := "I"
  access := .staticFlag

/-- A class with two fields, and a class that inherits them and has a method without arguments. -/
def inheritingUser (nodes : Array Node) : Codebase where
  classes :=
    [{ name := "A", superclass := some "java/lang/Object", access := .publicFlag
       fields := [staticInteger "A" "x", staticInteger "A" "y"] },
      { name := "B", superclass := some "A", access := .publicFlag
        methods :=
          [{ owner := "B", name := "run", descriptor := "()V", access := .staticFlag
             body := some { listing := { nodes, order := Array.range nodes.size } } }] }]

/-- The inheriting class finds one of the fields under its own name. -/
theorem fieldFound?_inheritingUser (nodes : Array Node) :
    (inheritingUser nodes).fieldFound? ⟨"B", "x", "I"⟩ = some (staticInteger "A" "x") := by
  have hdistinct : ((inheritingUser nodes).classes.map (·.name)).Nodup := by
    show ["A", "B"].Nodup
    decide
  have hancestor : "A" ∈ (Hierarchy.ofCodebase (inheritingUser nodes)).ancestors "B" := by
    refine (Hierarchy.mem_ancestors_iff hdistinct (List.mem_cons_of_mem _ List.mem_cons_self)).2
      ⟨_, .single ⟨List.mem_cons_self, ?_⟩, rfl⟩
    exact List.mem_cons_self
  have hfound : staticInteger "A" "x" ∈ (inheritingUser nodes).fieldsFound ⟨"B", "x", "I"⟩ :=
    List.mem_flatMap.2 ⟨"A", hancestor, List.mem_filter.2 ⟨List.mem_cons_self, by decide⟩⟩
  -- Of the fields that can be meant only one has the name.
  have honly : ∀ f ∈ (inheritingUser nodes).fieldsFound ⟨"B", "x", "I"⟩,
      f = staticInteger "A" "x" := by
    intro f hf
    obtain ⟨c, hc, hfield, hname⟩ := Codebase.exists_of_fieldsFound hf
    simp only [inheritingUser, List.mem_cons, List.not_mem_nil, or_false] at hc
    rcases hc with rfl | rfl
    · simp only [List.mem_cons, List.not_mem_nil, or_false] at hfield
      rcases hfield with rfl | rfl
      · rfl
      · cases (by decide : ¬(staticInteger "A" "y").isNamed "x" "I" = true) hname
    · cases hfield
  rw [Codebase.fieldFound?]
  cases hall : (inheritingUser nodes).fieldsFound ⟨"B", "x", "I"⟩ with
  | nil => simp [hall] at hfound
  | cons f fs => rw [List.head?_cons, honly f (hall ▸ List.mem_cons_self)]

/-- A field stays that is read through the name of an inheriting class. -/
theorem fieldsFound_removeUnusedFields_inheritingUser :
    (removeUnusedFields (inheritingUser #[⟨.field .getstatic ⟨"B", "x", "I"⟩, none⟩,
        ⟨.plain .pop, none⟩, ⟨.plain .returnVoid, none⟩])).2.fieldFound? ⟨"B", "x", "I"⟩ =
      some (staticInteger "A" "x") := by
  have hhandle : ∀ (kind : UInt8) (viaInterface : Bool),
      (.field .getstatic ⟨"B", "x", "I"⟩ : Instruction Label) ≠
        .push (.methodHandle kind ⟨"B", "x", "I"⟩ viaInterface) := by
    intro kind viaInterface h
    cases h
  exact ((fieldsFound_removeUnusedFields (by decide) List.mem_cons_self List.mem_cons_self rfl
    fun kind viaInterface h => absurd h (hhandle kind viaInterface)).2 _
      (fieldFound?_inheritingUser _)).1

/-- **A field goes although a handle of it is pushed.** -/
theorem removeUnusedFields_loses_handle :
    let p := inheritingUser #[⟨.push (.methodHandle 2 ⟨"B", "x", "I"⟩ false), none⟩,
      ⟨.plain .pop, none⟩, ⟨.plain .returnVoid, none⟩]
    (∃ b ∈ p.bodies, ∃ i ∈ b.listing.instructions, fieldReference? i = some ⟨"B", "x", "I"⟩) ∧
      p.fieldFound? ⟨"B", "x", "I"⟩ = some (staticInteger "A" "x") ∧
      (removeUnusedFields p).1 = 2 ∧
      ∀ c ∈ (removeUnusedFields p).2.classes, c.fields = [] := by
  intro p
  have hnone : ∀ c ∈ p.classes, (withoutUnused p c).fields = [] := by
    intro c hc
    rw [List.eq_nil_iff_forall_not_mem]
    intro f hf
    obtain ⟨-, m, hm, -⟩ := (mem_fields_withoutUnused_iff hc).1 hf
    cases hm
  refine ⟨⟨_, List.mem_cons_self, _, List.mem_cons_self, rfl⟩, fieldFound?_inheritingUser _, ?_, ?_⟩
  · have hleft : ((removeUnusedFields p).2.classes.flatMap (·.fields)) = [] := by
      rw [removeUnusedFields_eq, List.flatMap_map, List.flatMap_eq_nil_iff]
      exact hnone
    show 2 - ((removeUnusedFields p).2.classes.flatMap (·.fields)).length = 2
    rw [hleft]
    rfl
  · intro c' hc'
    obtain ⟨c, hc, rfl⟩ := List.mem_map.1 hc'
    exact hnone c hc

end Tidy

end Unscramble
