import Unscramble.Naming.Family
import Unscramble.Proofs.Lists
import Unscramble.Proofs.Search

/-! # Lineage

If the classes of a codebase have different names, each name leads to one class, and the ancestors of
a class are the classes of the codebase that its supertypes lead to. Renaming classes so that no class
gets a name that stood for another one does not change who inherits from whom.

Main definitions: `Supertype`, `Hierarchy.Renames`. Main statements: `Hierarchy.last_eq_some_iff`,
`Hierarchy.class?_eq_some_iff`, `Hierarchy.mem_ancestors_iff`, `Hierarchy.Renames.ancestors`. -/

namespace Unscramble.Naming

/-- A class of a codebase is the superclass of another class, or one of its interfaces. -/
def Supertype (p : Codebase) (c d : Class) : Prop :=
  d ∈ p.classes ∧ d.name ∈ c.supertypes

variable {p q : Codebase} {c d : Class}

/-- The ancestors of a class of a codebase are classes of the codebase. -/
theorem mem_classes_of_reflTransGen (h : Relation.ReflTransGen (Supertype p) c d)
    (hc : c ∈ p.classes) : d ∈ p.classes := by
  cases h with
  | refl => exact hc
  | tail _ hlast => exact hlast.1

namespace Hierarchy

/-! ### Names of classes -/

/-- A table of the places of classes with different names, filled by an operation that adds an entry
for a new key. -/
theorem getElem?_foldl_zipIdx
    (op : Std.HashMap String Nat → String → Nat → Std.HashMap String Nat)
    (hop : ∀ m k v n, m[k]? = none → (op m k v)[n]? = if k = n then some v else m[n]?)
    {cs : List Class} (hnodup : (cs.map (·.name)).Nodup) {table : Std.HashMap String Nat} {k : Nat}
    (htable : ∀ c ∈ cs, table[c.name]? = none) (n : String) (i : Nat) :
    ((cs.zipIdx k).foldl (fun m (c, i) => op m c.name i) table)[n]? = some i ↔
      table[n]? = some i ∨ ∃ j c, cs[j]? = some c ∧ c.name = n ∧ k + j = i := by
  -- On the classes, for every table and first number: the table so far does not know those that are
  -- still to come.
  induction cs generalizing table k with
  | nil => simp
  | cons c cs ih =>
    rw [List.map_cons, List.nodup_cons] at hnodup
    obtain ⟨hc, hnodup⟩ := hnodup
    have hnone := htable c List.mem_cons_self
    have htable' : ∀ d ∈ cs, (op table c.name k)[d.name]? = none := by
      intro d hd
      have hne : c.name ≠ d.name := fun h => hc (h ▸ List.mem_map_of_mem hd)
      rw [hop _ _ _ _ hnone, if_neg hne]
      exact htable d (List.mem_cons_of_mem _ hd)
    rw [List.zipIdx_cons, List.foldl_cons, ih hnodup htable', hop _ _ _ _ hnone]
    constructor
    · rintro (h | ⟨j, d, hj, hd, rfl⟩)
      · split at h
        · next hn =>
          cases h
          exact .inr ⟨0, c, rfl, hn, rfl⟩
        · exact .inl h
      · exact .inr ⟨j + 1, d, hj, hd, by omega⟩
    · rintro (h | ⟨j, d, hj, hd, rfl⟩)
      · have hne : c.name ≠ n := by
          rintro rfl
          rw [hnone] at h
          cases h
        exact .inl (by rw [if_neg hne, h])
      · cases j with
        | zero =>
          cases hj
          exact .inl (by rw [if_pos hd]; rfl)
        | succ j => exact .inr ⟨j, d, hj, hd, by omega⟩

/-- A name leads to the class that has it. -/
theorem last_eq_some_iff (hnodup : (p.classes.map (·.name)).Nodup) {n : String} {i : Nat} :
    (ofCodebase p).last[n]? = some i ↔ ∃ c, p.classes[i]? = some c ∧ c.name = n := by
  have hempty : ∀ c ∈ p.classes, (∅ : Std.HashMap String Nat)[c.name]? = none := by simp
  have hfold := getElem?_foldl_zipIdx (fun m k v => m.insert k v)
    (fun m k v n _ => by rw [Std.HashMap.getElem?_insert]; simp) hnodup (k := 0) hempty n i
  rw [ofCodebase, hfold]
  simp

/-- A name leads to the class that has it. -/
theorem first_eq_some_iff (hnodup : (p.classes.map (·.name)).Nodup) {n : String} {i : Nat} :
    (ofCodebase p).first[n]? = some i ↔ ∃ c, p.classes[i]? = some c ∧ c.name = n := by
  have hempty : ∀ c ∈ p.classes, (∅ : Std.HashMap String Nat)[c.name]? = none := by simp
  have hfold := getElem?_foldl_zipIdx (fun m k v => m.insertIfNew k v)
    (fun m k v n hnone => by
      rw [Std.HashMap.getElem?_insertIfNew]
      have hk : k ∉ m := by simpa using hnone
      by_cases hkn : k = n
      · subst hkn
        simp [hk]
      · simp [hkn]) hnodup (k := 0) hempty n i
  rw [ofCodebase, hfold]
  simp

/-- The hierarchy of a codebase has its classes. -/
theorem getElem?_classes (p : Codebase) (i : Nat) : (ofCodebase p).classes[i]? = p.classes[i]? :=
  List.getElem?_toArray

/-- The class of a name. -/
theorem class?_eq_some_iff (hnodup : (p.classes.map (·.name)).Nodup) {n : String} {c : Class} :
    (ofCodebase p).class? n = some c ↔ c ∈ p.classes ∧ c.name = n := by
  rw [class?, Option.bind_eq_some_iff]
  constructor
  · rintro ⟨i, hi, hc⟩
    obtain ⟨d, hd, hn⟩ := (first_eq_some_iff hnodup).1 hi
    rw [getElem?_classes, hd] at hc
    cases hc
    exact ⟨List.mem_of_getElem? hd, hn⟩
  · rintro ⟨hc, hn⟩
    obtain ⟨i, hi⟩ := List.mem_iff_getElem?.1 hc
    exact ⟨i, (first_eq_some_iff hnodup).2 ⟨c, hi, hn⟩, (getElem?_classes p i).trans hi⟩

/-- Ancestors are classes of the codebase. -/
theorem exists_of_mem_ancestors {n m : String} (h : m ∈ (ofCodebase p).ancestors n) :
    ∃ c ∈ p.classes, c.name = m := by
  rw [ancestors] at h
  split at h
  · cases h
  · obtain ⟨i, -, hi⟩ := List.mem_filterMap.1 h
    rw [getElem?_classes, Option.map_eq_some_iff] at hi
    obtain ⟨c, hc, hm⟩ := hi
    exact ⟨c, List.mem_of_getElem? hc, hm⟩

/-- Only classes of the codebase have ancestors. -/
theorem exists_heir (hdistinct : (p.classes.map (·.name)).Nodup) {n o : String}
    (h : n ∈ (ofCodebase p).ancestors o) : ∃ heir ∈ p.classes, heir.name = o := by
  rw [ancestors] at h
  split at h
  · cases h
  · next i hi =>
    obtain ⟨heir, hheir, hname⟩ := (last_eq_some_iff hdistinct).1 hi
    exact ⟨heir, List.mem_of_getElem? hheir, hname⟩

/-! ### Ancestors -/

/-- The places of the classes that a class names as supertypes. -/
theorem mem_parents_iff (hdistinct : (p.classes.map (·.name)).Nodup) {i j : Nat}
    (hi : p.classes[i]? = some c) :
    j ∈ (ofCodebase p).parents i ↔ ∃ d, p.classes[j]? = some d ∧ Supertype p c d := by
  rw [parents, getElem?_classes, hi, List.mem_filterMap]
  constructor
  · rintro ⟨n, hn, hlast⟩
    obtain ⟨d, hd, rfl⟩ := (last_eq_some_iff hdistinct).1 hlast
    exact ⟨d, hd, List.mem_of_getElem? hd, hn⟩
  · rintro ⟨d, hd, -, hn⟩
    exact ⟨d.name, hn, (last_eq_some_iff hdistinct).2 ⟨d, hd, rfl⟩⟩

/-- What the search for the ancestors of a class reaches are classes that its supertypes lead to. -/
theorem exists_of_reached (hdistinct : (p.classes.map (·.name)).Nodup) {size i j : Nat}
    (hi : p.classes[i]? = some c) (h : Flow.Reached (ofCodebase p).parents size [i] j) :
    ∃ d, p.classes[j]? = some d ∧ Relation.ReflTransGen (Supertype p) c d := by
  induction h with
  | start mem =>
    cases List.mem_singleton.1 mem
    exact ⟨c, hi, .refl⟩
  | step _ mem _ ih =>
    obtain ⟨d, hd, hcd⟩ := ih
    obtain ⟨e, he, hde⟩ := (mem_parents_iff hdistinct hd).1 mem
    exact ⟨e, he, hcd.tail hde⟩

/-- The search for the ancestors of a class reaches the classes that its supertypes lead to. -/
theorem exists_reached (hdistinct : (p.classes.map (·.name)).Nodup) {i : Nat}
    (hi : p.classes[i]? = some c) (h : Relation.ReflTransGen (Supertype p) c d) :
    ∃ j, p.classes[j]? = some d ∧
      Flow.Reached (ofCodebase p).parents (ofCodebase p).classes.size [i] j := by
  have hlt : ∀ {j : Nat} {e : Class}, p.classes[j]? = some e → j < (ofCodebase p).classes.size :=
    fun hj => List.size_toArray ▸ (List.getElem?_eq_some_iff.1 hj).1
  induction h with
  | refl => exact ⟨i, hi, .start List.mem_cons_self (hlt hi)⟩
  | tail _ hed ih =>
    obtain ⟨k, hk, hreached⟩ := ih
    obtain ⟨j, hj⟩ := List.mem_iff_getElem?.1 hed.1
    exact ⟨j, hj, .step hreached ((mem_parents_iff hdistinct hk).2 ⟨_, hj, hed⟩) (hlt hj)⟩

/-- The ancestors of a class are the classes that its supertypes lead to. -/
theorem mem_ancestors_iff (hdistinct : (p.classes.map (·.name)).Nodup) (hc : c ∈ p.classes)
    {n : String} : n ∈ (ofCodebase p).ancestors c.name ↔
      ∃ d, Relation.ReflTransGen (Supertype p) c d ∧ d.name = n := by
  obtain ⟨i, hi⟩ := List.mem_iff_getElem?.1 hc
  rw [ancestors, (last_eq_some_iff hdistinct).2 ⟨c, hi, rfl⟩]
  dsimp only
  rw [List.mem_filterMap]
  constructor
  · rintro ⟨j, hj, hname⟩
    obtain ⟨d, hd, hcd⟩ := exists_of_reached hdistinct hi (Flow.mem_breadthOrder_iff.1 hj)
    rw [getElem?_classes, hd] at hname
    exact ⟨d, hcd, Option.some.inj hname⟩
  · rintro ⟨d, hcd, rfl⟩
    obtain ⟨j, hj, hreached⟩ := exists_reached hdistinct hi hcd
    refine ⟨j, Flow.mem_breadthOrder_iff.2 hreached, ?_⟩
    rw [getElem?_classes, hj, Option.map_some]

/-- No ancestor is listed twice. -/
theorem nodup_ancestors (hdistinct : (p.classes.map (·.name)).Nodup) (n : String) :
    ((ofCodebase p).ancestors n).Nodup := by
  rw [ancestors]
  split
  · exact List.nodup_nil
  · refine List.Nodup.filterMap ?_ (Flow.nodup_breadthOrder _ _ _)
    intro i j n hi hj
    rw [Option.mem_def, getElem?_classes, ← List.getElem?_map] at hi hj
    have hlt := (List.getElem?_eq_some_iff.1 hi).1
    exact (List.getElem?_inj hlt hdistinct).1 (hi.trans hj.symm)

/-- A class is its own first ancestor. -/
theorem ancestors_eq_cons (hdistinct : (p.classes.map (·.name)).Nodup) (hc : c ∈ p.classes) :
    ∃ rest, (ofCodebase p).ancestors c.name = c.name :: rest := by
  obtain ⟨i, hi⟩ := List.mem_iff_getElem?.1 hc
  have hlt : i < (ofCodebase p).classes.size :=
    List.size_toArray ▸ (List.getElem?_eq_some_iff.1 hi).1
  obtain ⟨rest, hrest⟩ := Flow.breadthOrder_eq_cons (ofCodebase p).parents hlt
  rw [ancestors, (last_eq_some_iff hdistinct).2 ⟨c, hi, rfl⟩]
  dsimp only
  rw [hrest, List.filterMap_cons, getElem?_classes, hi]
  exact ⟨_, rfl⟩

/-! ### New names -/

/-- One codebase has the classes of another one under new names, with new names of supertypes. -/
def Renames (f : String → String) (p q : Codebase) : Prop :=
  q.classes.map (fun c => (c.name, c.supertypes)) =
    p.classes.map fun c => (f c.name, c.supertypes.map f)

/-- The names that classes have and inherit from. -/
def names (p : Codebase) : List String :=
  p.classes.flatMap fun c => c.name :: c.supertypes

variable {f : String → String}

/-- A class at a place is renamed with its supertypes. -/
theorem Renames.getElem? (h : Renames f p q) (i : Nat) :
    (q.classes[i]?).map (fun c => (c.name, c.supertypes)) =
      (p.classes[i]?).map fun c => (f c.name, c.supertypes.map f) := by
  have hi := congrArg (·[i]?) h
  simpa using hi

/-- The name of a class is one of the names of its codebase. -/
theorem name_mem_names {c : Class} (hc : c ∈ p.classes) : c.name ∈ names p :=
  List.mem_flatMap.2 ⟨c, hc, List.mem_cons_self⟩

/-- Different classes keep different names. -/
theorem Renames.nodup (h : Renames f p q) (hnodup : (p.classes.map (·.name)).Nodup)
    (hinj : ∀ m ∈ names p, ∀ n ∈ names p, f m = f n → m = n) :
    (q.classes.map (·.name)).Nodup := by
  have hnames : q.classes.map (·.name) = (p.classes.map (·.name)).map f := by
    have hfst := congrArg (List.map Prod.fst) h
    simpa [List.map_map, Function.comp_def] using hfst
  rw [hnames]
  refine List.Nodup.map_on ?_ hnodup
  intro m hm n hn
  obtain ⟨c, hc, rfl⟩ := List.mem_map.1 hm
  obtain ⟨d, hd, rfl⟩ := List.mem_map.1 hn
  exact hinj _ (name_mem_names hc) _ (name_mem_names hd)

/-- The first class of a new name stands where the first class of the old one did. -/
theorem Renames.classIndex? (h : Renames f p q)
    (hinj : ∀ m ∈ names p, ∀ n ∈ names p, f m = f n → m = n) {n : String} (hn : n ∈ names p) :
    q.classIndex? (f n) = p.classIndex? n := by
  have hindex : ∀ (p : Codebase) (n : String), p.classIndex? n =
      (p.classes.map fun c => (c.name, c.supertypes)).findIdx? (·.1 == n) := by
    intro p n
    rw [List.findIdx?_map]
    rfl
  rw [hindex, h, List.findIdx?_map, Codebase.classIndex?]
  refine findIdx?_congr fun c hc => ?_
  rw [Function.comp_apply, Bool.eq_iff_iff, beq_iff_eq, beq_iff_eq]
  exact ⟨hinj _ (name_mem_names hc) n hn, congrArg f⟩

/-- A new name leads where the old one did. -/
theorem Renames.last (h : Renames f p q) (hnodup : (p.classes.map (·.name)).Nodup)
    (hinj : ∀ m ∈ names p, ∀ n ∈ names p, f m = f n → m = n) {n : String} (hn : n ∈ names p) :
    (ofCodebase q).last[f n]? = (ofCodebase p).last[n]? := by
  apply Option.ext
  intro i
  rw [last_eq_some_iff (h.nodup hnodup hinj), last_eq_some_iff hnodup]
  have hi := h.getElem? i
  constructor
  · rintro ⟨d, hd, hname⟩
    rw [hd] at hi
    obtain ⟨c, hc, hcd⟩ := Option.map_eq_some_iff.1 hi.symm
    refine ⟨c, hc, hinj _ (name_mem_names (List.mem_of_getElem? hc)) n hn ?_⟩
    rw [← hname]
    exact (Prod.mk.inj hcd).1
  · rintro ⟨c, hc, rfl⟩
    rw [hc] at hi
    obtain ⟨d, hd, hcd⟩ := Option.map_eq_some_iff.1 hi
    exact ⟨d, hd, (Prod.mk.inj hcd).1⟩

/-- Every class keeps its direct supertypes. -/
theorem Renames.parents (h : Renames f p q) (hnodup : (p.classes.map (·.name)).Nodup)
    (hinj : ∀ m ∈ names p, ∀ n ∈ names p, f m = f n → m = n) :
    (ofCodebase q).parents = (ofCodebase p).parents := by
  funext i
  have hi := h.getElem? i
  rw [Hierarchy.parents, Hierarchy.parents, getElem?_classes, getElem?_classes]
  cases hc : p.classes[i]? with
  | none =>
    rw [hc, Option.map_none, Option.map_eq_none_iff] at hi
    rw [hi]
  | some c =>
    rw [hc, Option.map_some] at hi
    obtain ⟨d, hd, hcd⟩ := Option.map_eq_some_iff.1 hi
    rw [hd]
    dsimp only
    rw [(Prod.mk.inj hcd).2, List.filterMap_map]
    refine List.filterMap_congr fun s hs => ?_
    refine h.last hnodup hinj (List.mem_flatMap.2 ⟨c, List.mem_of_getElem? hc, ?_⟩)
    exact List.mem_cons_of_mem _ hs

/-- The ancestors under new names are the new names of the ancestors. -/
theorem Renames.ancestors (h : Renames f p q) (hnodup : (p.classes.map (·.name)).Nodup)
    (hinj : ∀ m ∈ names p, ∀ n ∈ names p, f m = f n → m = n) {n : String} (hn : n ∈ names p) :
    (ofCodebase q).ancestors (f n) = ((ofCodebase p).ancestors n).map f := by
  have hsize : (ofCodebase q).classes.size = (ofCodebase p).classes.size := by
    have hlength := congrArg List.length h
    simpa [ofCodebase] using hlength
  rw [Hierarchy.ancestors, Hierarchy.ancestors, h.last hnodup hinj hn]
  cases (ofCodebase p).last[n]? with
  | none => rfl
  | some i =>
    dsimp only
    rw [h.parents hnodup hinj, hsize, List.map_filterMap]
    refine List.filterMap_congr fun j _ => ?_
    rw [getElem?_classes, getElem?_classes, Option.map_map]
    have hj := congrArg (Option.map Prod.fst) (h.getElem? j)
    simpa [Option.map_map, Function.comp_def] using hj

end Hierarchy

end Unscramble.Naming
