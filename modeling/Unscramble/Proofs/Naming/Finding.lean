import Unscramble.Proofs.Naming.Resolution
import Unscramble.Proofs.Search

/-! # What references find

If classes have different names and members name the class that declares them, a declaration is told
by its own reference, and a reference finds the first member of its name and descriptor that one of
its ancestors declares and shows. Classes that nothing inherits from do not change what others find.

Main definitions: `Codebase.found?`, `Codebase.Sound`, `Codebase.shows`. Main statements:
`Codebase.Sound.found?_eq`, `Codebase.Sound.family?_of_found`, `Hierarchy.ancestors_extend`. -/

namespace Unscramble

open Naming

namespace Codebase

/-- Every declaration, class by class, each with whether only its class sees it. -/
def declarations (p : Codebase) : List (Member × Bool) :=
  p.classes.flatMap Class.members

/-- The declaration that a reference resolves to. -/
def found? (p : Codebase) (m : Member) : Option Member :=
  (p.resolve m).bind fun place =>
    (p.classes[place.1]?).bind fun c => (c.members[place.2]?).map (·.1)

/-- A codebase whose declarations are told by their references. -/
structure Sound (p : Codebase) : Prop where
  /-- Different classes have different names. -/
  distinct : (p.classes.map (·.name)).Nodup
  /-- Members name the class that they are declared in. -/
  owners : ∀ c ∈ p.classes, ∀ m ∈ declared c, m.owner = c.name
  /-- Descriptors tell methods from fields. -/
  kinds : ∀ c ∈ p.classes,
    (∀ f ∈ c.fields, isMethod f.key = false) ∧ ∀ m ∈ c.methods, isMethod m.key = true

/-- Whether the class of a given name declares a member of the name and descriptor of a reference
that can be found through the reference. -/
def shows (p : Codebase) (m : Member) (n : String) : Bool :=
  p.declarations.any fun d => d.1 == m.withOwner n && (n == m.owner || !d.2)

namespace Sound

variable {p : Codebase} {c : Class} {d : Member × Bool} {m D : Member} {n : String}

/-- The declarations of a class name the class. -/
theorem owner_eq (hp : p.Sound) (hc : c ∈ p.classes) (hd : d ∈ c.members) : d.1.owner = c.name :=
  hp.owners c hc _ (mem_declared_of_members hd)

/-- Classes of one name are one class. -/
theorem class_eq (hp : p.Sound) {c' : Class} (hc : c ∈ p.classes) (hc' : c' ∈ p.classes)
    (hname : c.name = c'.name) : c = c' :=
  List.inj_on_of_nodup_map hp.distinct hc hc' hname

/-- A declaration stands in the class that it names. -/
theorem mem_members (hp : p.Sound) (hc : c ∈ p.classes) (hd : d ∈ p.declarations)
    (howner : d.1.owner = c.name) : d ∈ c.members := by
  obtain ⟨c', hc', hd'⟩ := List.mem_flatMap.1 hd
  rwa [hp.class_eq hc hc' (howner ▸ hp.owner_eq hc' hd')]

/-- A class shows the members that it declares, private ones only through itself. -/
theorem shows_eq_true_iff : p.shows m n = true ↔
    ∃ b, (m.withOwner n, b) ∈ p.declarations ∧ (n = m.owner ∨ b = false) := by
  rw [shows, List.any_eq_true]
  constructor
  · rintro ⟨⟨D, b⟩, hd, h⟩
    obtain ⟨hD, hb⟩ := Bool.and_eq_true_iff.1 h
    rw [beq_iff_eq] at hD
    subst hD
    exact ⟨b, hd, by simpa using hb⟩
  · rintro ⟨b, hd, hb⟩
    exact ⟨(m.withOwner n, b), hd, by simpa using hb⟩

/-- A class shows what one of its members has the name and descriptor of. -/
theorem shows_eq_any (hp : p.Sound) (hc : c ∈ p.classes) (m : Member) :
    p.shows m c.name = c.members.any fun d =>
      d.1.name == m.name && d.1.descriptor == m.descriptor && (c.name == m.owner || !d.2) := by
  rw [Bool.eq_iff_iff, shows_eq_true_iff, List.any_eq_true]
  constructor
  · rintro ⟨b, hd, hb⟩
    exact ⟨_, hp.mem_members hc hd rfl, by simpa [Member.withOwner] using hb⟩
  · rintro ⟨⟨D, b⟩, hd, h⟩
    obtain ⟨hnamed, hb⟩ := Bool.and_eq_true_iff.1 h
    obtain ⟨hname, hdescriptor⟩ := Bool.and_eq_true_iff.1 hnamed
    have hD : m.withOwner c.name = D := by
      calc m.withOwner c.name = ⟨c.name, m.name, m.descriptor⟩ := rfl
        _ = ⟨D.owner, D.name, D.descriptor⟩ := by
          rw [← hp.owner_eq hc hd, beq_iff_eq.1 hname, beq_iff_eq.1 hdescriptor]
    exact ⟨b, hD ▸ List.mem_flatMap.2 ⟨c, hc, hd⟩, by simpa using hb⟩

/-- The place of a class is that of its name. -/
theorem classIndex?_eq (hp : p.Sound) {i : Nat} (hi : p.classes[i]? = some c) :
    p.classIndex? c.name = some i := by
  obtain ⟨hlt, rfl⟩ := List.getElem?_eq_some_iff.1 hi
  rw [classIndex?, List.findIdx?_eq_some_iff_getElem]
  refine ⟨hlt, by simp, fun j hj => ?_⟩
  have hdiffer : (⟨j, by simpa using hj.trans hlt⟩ : Fin (p.classes.map (·.name)).length) ≠
      ⟨i, by simpa using hlt⟩ := by simpa using hj.ne
  simpa using (List.nodup_iff_injective_get.1 hp.distinct).ne hdiffer

/-- What the class of an ancestor contributes to a resolution. -/
theorem found_in_class (hp : p.Sound) (hc : c ∈ p.classes) (m : Member) :
    (((p.classIndex? c.name).bind fun i => (p.classes[i]?).bind fun c' =>
      (c'.memberIndex? (c.name == m.owner) m).map fun j => (i, j)).map fun place =>
        (p.classes[place.1]?).bind fun c => (c.members[place.2]?).map (·.1)) =
      if p.shows m c.name then some (some (m.withOwner c.name)) else none := by
  obtain ⟨i, hi⟩ := List.mem_iff_getElem?.1 hc
  rw [hp.classIndex?_eq hi, Option.bind_some, hi, Option.bind_some, Option.map_map]
  -- A resolution asks for the first member that passes the test, and showing asks whether there is
  -- one.
  cases hj : c.memberIndex? (c.name == m.owner) m with
  | none =>
    rw [Class.memberIndex?, List.findIdx?_eq_none_iff] at hj
    rw [hp.shows_eq_any hc, if_neg]
    · rfl
    · rw [List.any_eq_true]
      rintro ⟨d, hd, htest⟩
      rw [hj d hd] at htest
      cases htest
  | some j =>
    obtain ⟨hlt, htest, -⟩ := List.findIdx?_eq_some_iff_getElem.1 hj
    have hd : c.members[j] ∈ c.members := List.getElem_mem hlt
    have hshows : p.shows m c.name = true := by
      rw [hp.shows_eq_any hc, List.any_eq_true]
      exact ⟨_, hd, htest⟩
    simp only [Bool.and_eq_true, beq_iff_eq] at htest
    -- The test compares names and descriptors; that the owner is the class is part of being sound.
    have hfound : (c.members[j]).1 = m.withOwner c.name := by
      calc (c.members[j]).1
          = ⟨(c.members[j]).1.owner, (c.members[j]).1.name, (c.members[j]).1.descriptor⟩ := rfl
        _ = ⟨c.name, m.name, m.descriptor⟩ := by
          rw [hp.owner_eq hc hd, htest.1.1, htest.1.2]
    rw [hshows, if_pos rfl, Option.map_some, Function.comp_apply]
    dsimp only
    rw [hi, Option.bind_some, List.getElem?_eq_getElem hlt, Option.map_some, hfound]

/-- A reference finds the member of the first ancestor that shows one. -/
theorem found?_eq (hp : p.Sound) (m : Member) :
    p.found? m =
      (((Hierarchy.ofCodebase p).ancestors m.owner).find? (p.shows m)).map m.withOwner := by
  rw [found?, resolve]
  have hnames : ∀ n ∈ (Hierarchy.ofCodebase p).ancestors m.owner, ∃ c ∈ p.classes, c.name = n :=
    fun n hn => Hierarchy.exists_of_mem_ancestors hn
  generalize (Hierarchy.ofCodebase p).ancestors m.owner = names at hnames
  induction names with
  | nil => rfl
  | cons n names ih =>
    obtain ⟨c, hc, rfl⟩ := hnames n List.mem_cons_self
    have hfound := hp.found_in_class hc m
    rw [List.findSome?_cons, List.find?_cons]
    cases hshows : p.shows m c.name with
    | true =>
      rw [hshows, if_pos rfl, Option.map_eq_some_iff] at hfound
      obtain ⟨place, hplace, hget⟩ := hfound
      rw [hplace]
      exact hget
    | false =>
      rw [hshows, if_neg (by simp), Option.map_eq_none_iff] at hfound
      rw [hfound]
      exact ih fun n hn => hnames n (List.mem_cons_of_mem _ hn)

/-- What a reference finds is shown by the first of its ancestors that shows anything. -/
theorem found?_eq_some_iff (hp : p.Sound) : p.found? m = some D ↔ ∃ front n back,
    (Hierarchy.ofCodebase p).ancestors m.owner = front ++ n :: back ∧ p.shows m n = true ∧
      (∀ n' ∈ front, p.shows m n' = false) ∧ D = m.withOwner n := by
  rw [hp.found?_eq, Option.map_eq_some_iff]
  constructor
  · rintro ⟨n, hn, rfl⟩
    obtain ⟨hshows, front, back, heq, hfront⟩ := List.find?_eq_some_iff_append.1 hn
    exact ⟨front, n, back, heq, hshows, fun n' hn' => by simpa using hfront n' hn', rfl⟩
  · rintro ⟨front, n, back, heq, hshows, hfront, rfl⟩
    exact ⟨n, List.find?_eq_some_iff_append.2
      ⟨hshows, front, back, heq, fun n' hn' => by simpa using hfront n' hn'⟩, rfl⟩

/-- If only one of its ancestors shows anything, a reference finds what this one shows. -/
theorem found?_eq_of_unique (hp : p.Sound) (hn : n ∈ (Hierarchy.ofCodebase p).ancestors m.owner)
    (hshows : p.shows m n = true) (hunique : ∀ n' ∈ (Hierarchy.ofCodebase p).ancestors m.owner,
      p.shows m n' = true → n' = n) : p.found? m = some (m.withOwner n) := by
  have hsome : (((Hierarchy.ofCodebase p).ancestors m.owner).find? (p.shows m)).isSome = true :=
    List.find?_isSome.2 ⟨n, hn, hshows⟩
  obtain ⟨n', hn'⟩ := Option.isSome_iff_exists.1 hsome
  rw [hp.found?_eq, hn', hunique n' (List.mem_of_find?_eq_some hn') (List.find?_some hn')]
  rfl

/-- What a reference finds is declared by an ancestor, and not privately by another class. -/
theorem declared_of_found (hp : p.Sound) (h : p.found? m = some D) :
    D.owner ∈ (Hierarchy.ofCodebase p).ancestors m.owner ∧ D = m.withOwner D.owner ∧
      ∃ b, (D, b) ∈ p.declarations ∧ (D.owner = m.owner ∨ b = false) := by
  obtain ⟨front, n, back, heq, hshows, -, rfl⟩ := hp.found?_eq_some_iff.1 h
  obtain ⟨b, hb, hvisible⟩ := shows_eq_true_iff.1 hshows
  exact ⟨heq ▸ List.mem_append_right _ List.mem_cons_self, rfl, b, hb, hvisible⟩

/-- Only classes of the codebase have ancestors. -/
theorem exists_heir (hp : p.Sound) {o : String} (h : n ∈ (Hierarchy.ofCodebase p).ancestors o) :
    ∃ heir ∈ p.classes, heir.name = o :=
  Hierarchy.exists_heir hp.distinct h

/-- A class that inherits from no class of the codebase has itself as its only ancestor. -/
theorem ancestors_of_no_parents (hp : p.Sound) (hc : c ∈ p.classes) (hname : c.name = n)
    (hnone : ∀ c' ∈ p.classes, c'.name ∉ c.supertypes) :
    (Hierarchy.ofCodebase p).ancestors n = [n] := by
  obtain ⟨i, hi⟩ := List.mem_iff_getElem?.1 hc
  have hlast := (Hierarchy.last_eq_some_iff hp.distinct).2 ⟨c, hi, hname⟩
  have hlt : i < (Hierarchy.ofCodebase p).classes.size :=
    List.size_toArray ▸ (List.getElem?_eq_some_iff.1 hi).1
  have hparents : (Hierarchy.ofCodebase p).parents i = [] := by
    rw [Hierarchy.parents, Hierarchy.getElem?_classes, hi]
    dsimp only
    rw [List.filterMap_eq_nil_iff]
    intro s hs
    rw [Option.eq_none_iff_forall_ne_some]
    intro j hj
    obtain ⟨c', hc', rfl⟩ := (Hierarchy.last_eq_some_iff hp.distinct).1 hj
    exact hnone c' (List.mem_of_getElem? hc') hs
  rw [Hierarchy.ancestors, hlast]
  dsimp only
  rw [Flow.breadthOrder_eq_singleton hlt hparents]
  simp [Hierarchy.getElem?_classes, hi, hname]

/-- A class inherits from its supertypes. -/
theorem supertype_mem_ancestors (hp : p.Sound) (hc : c ∈ p.classes) {c' : Class}
    (hc' : c' ∈ p.classes) (h : c'.name ∈ c.supertypes) :
    c'.name ∈ (Hierarchy.ofCodebase p).ancestors c.name :=
  (Hierarchy.mem_ancestors_iff hp.distinct hc).2 ⟨c', .single ⟨hc', h⟩, rfl⟩

/-- A class finds what it declares. -/
theorem found_own (hp : p.Sound) {b : Bool} (hd : (D, b) ∈ p.declarations) :
    p.found? D = some D := by
  obtain ⟨c, hc, hd'⟩ := List.mem_flatMap.1 hd
  obtain ⟨rest, hrest⟩ := Hierarchy.ancestors_eq_cons hp.distinct hc
  have howner := hp.owner_eq hc hd'
  refine hp.found?_eq_some_iff.2 ⟨[], D.owner, rest, howner ▸ hrest, ?_, by simp, rfl⟩
  exact shows_eq_true_iff.2 ⟨b, hd, .inl rfl⟩

/-- A reference is in the family of what it finds, unless this is a constructor. -/
theorem family?_of_found (hp : p.Sound) (h : p.found? m = some D)
    (hinit : ¬(D.name = "<init>" ∧ isMethod D = true)) :
    ((Families.ofCodebase p).family? D).isSome = true ∧
      (Families.ofCodebase p).family? D = (Families.ofCodebase p).family? m := by
  obtain ⟨hancestor, hD, b, hd, hvisible⟩ := hp.declared_of_found h
  obtain ⟨c, hc, hmem⟩ := List.mem_flatMap.1 hd
  have howner := hp.owner_eq hc hmem
  by_cases hown : D.owner = m.owner
  · have hsame : D = m := hD.trans (by rw [hown]; rfl)
    rw [← hsame]
    exact ⟨Families.isSome_family?_of_declared hc (mem_declared_of_members hmem), rfl⟩
  · obtain ⟨heir, hheir, hname⟩ := hp.exists_heir hancestor
    have hinherit := (mem_inheritable (hp.kinds c hc).2 hmem
      (hvisible.resolve_left hown)).resolve_right hinit
    have hlink := mem_links hp.distinct hheir hc (by rw [← howner, hname]; exact hancestor)
      (by rw [← howner, hname]; exact hown) hinherit
    have hthrough : D.withOwner heir.name = m := by
      rw [hname, hD]
      rfl
    rw [hthrough] at hlink
    exact Families.family?_eq_of_link hlink

end Sound

end Codebase

/-! ### More classes -/

namespace Naming.Hierarchy

variable {p p' : Codebase}

/-- Parents are classes of the codebase. -/
theorem lt_length_of_mem_parents (hdistinct : (p.classes.map (·.name)).Nodup) {i j : Nat}
    (h : j ∈ (ofCodebase p).parents i) : j < p.classes.length := by
  rw [parents] at h
  split at h
  · cases h
  · obtain ⟨n, -, hn⟩ := List.mem_filterMap.1 h
    obtain ⟨c, hc, -⟩ := (last_eq_some_iff hdistinct).1 hn
    exact (List.getElem?_eq_some_iff.1 hc).1

/-- A class inherits from itself and from supertypes of classes. -/
theorem eq_or_supertype_of_mem_ancestors (hdistinct : (p.classes.map (·.name)).Nodup)
    {n m : String} (h : n ∈ (ofCodebase p).ancestors m) :
    n = m ∨ ∃ c ∈ p.classes, n ∈ c.supertypes := by
  obtain ⟨heir, hheir, rfl⟩ := exists_heir hdistinct h
  obtain ⟨d, hd, rfl⟩ := (mem_ancestors_iff hdistinct hheir).1 h
  cases hd with
  | refl => exact .inl rfl
  | tail hancestor hlast =>
    exact .inr ⟨_, mem_classes_of_reflTransGen hancestor hheir, hlast.2⟩

/-- A codebase has the classes of another one in front, with their supertypes, and behind them
classes that these do not inherit from. -/
structure Extends (p p' : Codebase) : Prop where
  /-- Different classes have different names. -/
  distinct : (p'.classes.map (·.name)).Nodup
  /-- The classes in front. -/
  classes : ∀ (i : Nat) (c : Class), p.classes[i]? = some c →
    ∃ c', p'.classes[i]? = some c' ∧ c'.name = c.name ∧ c'.supertypes = c.supertypes
  /-- The classes behind. -/
  others : ∀ (i : Nat) (c' : Class), p'.classes[i]? = some c' → p.classes.length ≤ i →
    ∀ c ∈ p.classes, c'.name ∉ c.supertypes

/-- The names of classes are a part of their lineage. -/
theorem names_of_lineage {p q : Codebase}
    (h : q.classes.map (fun c => (c.name, c.supertypes)) =
      p.classes.map fun c => (c.name, c.supertypes)) :
    q.classes.map (·.name) = p.classes.map (·.name) := by
  have hfst := congrArg (List.map Prod.fst) h
  simpa [List.map_map, Function.comp_def] using hfst

/-- Only the names of classes and of their supertypes matter. -/
theorem Extends.of_lineage {p₁ : Codebase} (h : Extends p p₁)
    (hlineage : p'.classes.map (fun c => (c.name, c.supertypes)) =
      p₁.classes.map fun c => (c.name, c.supertypes)) : Extends p p' := by
  have hget : ∀ i : Nat, (p'.classes[i]?).map (fun c => (c.name, c.supertypes)) =
      (p₁.classes[i]?).map fun c => (c.name, c.supertypes) := by
    intro i
    rw [← List.getElem?_map, hlineage, List.getElem?_map]
  refine ⟨names_of_lineage hlineage ▸ h.distinct, ?_, ?_⟩
  · intro i c hi
    obtain ⟨c₁, hc₁, hname, hsupertypes⟩ := h.classes i c hi
    have hi' := hget i
    rw [hc₁] at hi'
    obtain ⟨c', hc', heq⟩ := Option.map_eq_some_iff.1 hi'
    obtain ⟨hname', hsupertypes'⟩ := Prod.mk.inj heq
    exact ⟨c', hc', hname'.trans hname, hsupertypes'.trans hsupertypes⟩
  · intro i c' hi hlength
    have hi' := hget i
    rw [hi] at hi'
    obtain ⟨c₁, hc₁, heq⟩ := Option.map_eq_some_iff.1 hi'.symm
    rw [← (Prod.mk.inj heq).1]
    exact h.others i c₁ hc₁ hlength

variable {i : Nat} {n : String}

/-- The names of a codebase lead to the same places in a larger one. -/
theorem Extends.last (h : Extends p p') (hdistinct : (p.classes.map (·.name)).Nodup)
    (hi : (ofCodebase p).last[n]? = some i) : (ofCodebase p').last[n]? = some i := by
  obtain ⟨c, hc, rfl⟩ := (last_eq_some_iff hdistinct).1 hi
  obtain ⟨c', hc', hname, -⟩ := h.classes i c hc
  exact (last_eq_some_iff h.distinct).2 ⟨c', hc', hname⟩

/-- The classes of a codebase keep their parents in a larger one. -/
theorem Extends.parents (h : Extends p p') (hdistinct : (p.classes.map (·.name)).Nodup)
    (hi : i < p.classes.length) : (ofCodebase p').parents i = (ofCodebase p).parents i := by
  obtain ⟨c', hc', -, hsupertypes⟩ := h.classes i _ (List.getElem?_eq_getElem hi)
  rw [Hierarchy.parents, Hierarchy.parents, getElem?_classes, getElem?_classes, hc',
    List.getElem?_eq_getElem hi]
  dsimp only
  rw [hsupertypes]
  refine List.filterMap_congr fun s hs => ?_
  cases hlast : (ofCodebase p).last[s]? with
  | some j => exact h.last hdistinct hlast
  | none =>
    rw [Option.eq_none_iff_forall_ne_some]
    intro j hj
    obtain ⟨d, hd, rfl⟩ := (last_eq_some_iff h.distinct).1 hj
    rcases Nat.lt_or_ge j p.classes.length with hlt | hge
    · obtain ⟨d', hd', hname, -⟩ := h.classes j _ (List.getElem?_eq_getElem hlt)
      rw [hd] at hd'
      cases hd'
      have hold := (last_eq_some_iff hdistinct).2 ⟨_, List.getElem?_eq_getElem hlt, hname.symm⟩
      rw [hlast] at hold
      cases hold
    · exact h.others j d hd hge _ (List.getElem_mem hi) hs

/-- The classes of a codebase keep their ancestors in a larger one. -/
theorem Extends.ancestors (h : Extends p p') (hdistinct : (p.classes.map (·.name)).Nodup)
    (hn : ∃ c ∈ p.classes, c.name = n) :
    (ofCodebase p').ancestors n = (ofCodebase p).ancestors n := by
  obtain ⟨c, hc, rfl⟩ := hn
  obtain ⟨i, hi⟩ := List.mem_iff_getElem?.1 hc
  have hlast := (last_eq_some_iff hdistinct).2 ⟨c, hi, rfl⟩
  have hlt := (List.getElem?_eq_some_iff.1 hi).1
  have hsize : ∀ p : Codebase, (ofCodebase p).classes.size = p.classes.length := fun p =>
    List.size_toArray
  -- The larger codebase has the classes of the smaller one in their places, so the same numbers are
  -- visited.
  have hlength : p.classes.length ≤ p'.classes.length := by
    by_contra hlong
    obtain ⟨c', hc', -⟩ := h.classes (p.classes.length - 1) _
      (List.getElem?_eq_getElem (by omega))
    have := (List.getElem?_eq_some_iff.1 hc').1
    omega
  have horder : Flow.breadthOrder (ofCodebase p').parents (ofCodebase p').classes.size i =
      Flow.breadthOrder (ofCodebase p).parents (ofCodebase p).classes.size i := by
    rw [hsize, hsize]
    exact Flow.breadthOrder_congr hlength (fun v hv => h.parents hdistinct hv)
      (fun v _ w hw => lt_length_of_mem_parents hdistinct hw) hlt
  rw [Hierarchy.ancestors, Hierarchy.ancestors, hlast, h.last hdistinct hlast]
  dsimp only
  rw [horder]
  refine List.filterMap_congr fun j hj => ?_
  have hj : j < p.classes.length := by
    rcases Flow.mem_breadthOrder hj with rfl | ⟨u, hu⟩
    · exact hlt
    · exact lt_length_of_mem_parents hdistinct hu
  obtain ⟨c', hc', hname, -⟩ := h.classes j _ (List.getElem?_eq_getElem hj)
  rw [getElem?_classes, getElem?_classes, hc', List.getElem?_eq_getElem hj, Option.map_some,
    Option.map_some, hname]

end Naming.Hierarchy

/-! ### References that stand alone -/

namespace Codebase.Sound

variable {p : Codebase} {c : Class} {m : Member} {n : String}

/-- Linked references name a member through its class and through an heir of the class. -/
theorem ancestor_of_link (hp : p.Sound) {m' : Member} (h : (m, m') ∈ Families.links p) :
    m.owner ∈ (Hierarchy.ofCodebase p).ancestors m'.owner ∧ m.owner ≠ m'.owner := by
  obtain ⟨heir, hheir, c, hancestor, hne, hm, rfl⟩ := (Families.mem_links_iff hp.distinct).1 h
  have howner : m.owner = c.name := hp.owners c (mem_classes_of_reflTransGen hancestor hheir) m
    (mem_declared_of_mem_inheritable hm)
  rw [howner]
  exact ⟨(Hierarchy.mem_ancestors_iff hp.distinct hheir).2 ⟨c, hancestor, rfl⟩, hne⟩

/-- A reference to a class that neither inherits nor is inherited from is alone in its family. -/
theorem eq_of_family?_eq_of_apart (hp : p.Sound) (hheirs : ∀ c ∈ p.classes, n ∉ c.supertypes)
    (hc : c ∈ p.classes) (hname : c.name = n) (hparents : ∀ c' ∈ p.classes, c'.name ∉ c.supertypes)
    {m' : Member} {φ : Nat} (hm : (Families.ofCodebase p).family? m = some φ)
    (hm' : (Families.ofCodebase p).family? m' = some φ) (howner : m.owner = n) : m = m' := by
  have hlinks : ∀ link ∈ Families.links p, (link.1.owner = n) = (link.2.owner = n) := by
    rintro ⟨k, k'⟩ hlink
    obtain ⟨hancestor, hne⟩ := hp.ancestor_of_link hlink
    have hk : k.owner ≠ n := by
      rintro rfl
      rcases Hierarchy.eq_or_supertype_of_mem_ancestors hp.distinct hancestor with heq | ⟨d, hd, h⟩
      · exact hne heq
      · exact hheirs d hd h
    have hk' : k'.owner ≠ n := by
      intro hk'
      rw [hk', hp.ancestors_of_no_parents hc hname hparents] at hancestor
      exact hk (List.mem_singleton.1 hancestor)
    exact propext ⟨fun h => absurd h hk, fun h => absurd h hk'⟩
  have howner' := (Families.common_of_family?_eq (fun m => m.owner = n) hlinks hm hm').mp howner
  obtain ⟨hname, hdescriptor⟩ := Families.eq_of_family?_eq hm hm'
  calc m = ⟨m.owner, m.name, m.descriptor⟩ := rfl
    _ = ⟨m'.owner, m'.name, m'.descriptor⟩ := by rw [howner, howner', hname, hdescriptor]

end Codebase.Sound

end Unscramble
