import Unscramble.Proofs.Naming.Finding
import Unscramble.Proofs.Naming.Relocation

/-! # Where moved members end up

Fields and methods move in one way, so what moves do is told once for a part of the classes: their
fields or their methods. Moves that name different members, none of which gets into the way of one
that is still to move, are all made, and each member ends up in the class that it is sent to.

Main definitions: `Part`, `Part.Settled`. Main statements: `Part.settled_makeMove`,
`Part.relocate_settles`. -/

namespace Unscramble.Naming

/-- The fields or the methods of classes. -/
structure Part (α : Type) where
  /-- Whether descriptors of methods name the items. -/
  areMethods : Bool
  /-- The items of a class in order. -/
  items : Class → List α
  /-- A class with other items. -/
  withItems : Class → List α → Class
  /-- The reference that names an item. -/
  key : α → Member
  /-- The access flags of an item. -/
  access : α → Access
  /-- An item with other access flags. -/
  withAccess : α → Access → α
  /-- An item of the class that is now called `owner`, renamed. -/
  renamed : Renaming → String → α → α
  /-- A class holds the items that it is given. -/
  items_withItems : ∀ c as, items (withItems c as) = as
  /-- The items that are given last hold. -/
  withItems_withItems : ∀ c as bs, withItems (withItems c as) bs = withItems c bs
  /-- Other items leave a class its name and its supertypes. -/
  lineage_withItems : ∀ c as,
    (withItems c as).name = c.name ∧ (withItems c as).supertypes = c.supertypes
  /-- Other flags leave an item its reference. -/
  key_withAccess : ∀ a flags, key (withAccess a flags) = key a
  /-- An item has the flags that it is given. -/
  access_withAccess : ∀ a flags, access (withAccess a flags) = flags
  /-- An item has its own flags. -/
  withAccess_self : ∀ a, withAccess a (access a) = a
  /-- The flags that are given last hold. -/
  withAccess_withAccess : ∀ a flags flags',
    withAccess (withAccess a flags) flags' = withAccess a flags'
  /-- A renamed item is named by its class and its new name and descriptor. -/
  key_renamed : ∀ (r : Renaming) owner a, key (renamed r owner a) =
    ⟨owner, (r.onMember (key a)).name, (r.onMember (key a)).descriptor⟩
  /-- A renaming keeps the access of an item. -/
  access_renamed : ∀ (r : Renaming) owner a, access (renamed r owner a) = access a
  /-- A renaming renames each item of a class. -/
  items_onClass : ∀ (r : Renaming) c,
    items (r.onClass c) = (items c).map (renamed r (r.onClassName c.name))
  /-- The items are the members of their kind. -/
  mem_members_iff : ∀ c : Class, ((∀ f ∈ c.fields, isMethod f.key = false) ∧
    ∀ m ∈ c.methods, isMethod m.key = true) → ∀ d : Member × Bool,
      (d ∈ c.members ∧ isMethod d.1 = areMethods ↔
        ∃ a ∈ items c, (key a, (access a).contains .privateFlag) = d)
  /-- A move looks at the first item of the name and descriptor of what it moves. -/
  isStaticIn?_eq : ∀ c m, isMethod m = areMethods → isStaticIn? c m =
    ((items c).find? fun a => (key a).name == m.name && (key a).descriptor == m.descriptor).map
      fun a => (access a).contains .staticFlag
  /-- A move takes this item out of its class and puts it into the other one. -/
  makeMove_eq : ∀ (n : Nat) (p : Codebase) (m : Member) (target : String) (c : Class) (a : α),
    isMethod m = areMethods → m.owner ≠ target → p.class? m.owner = some c →
    (items c).find? (fun a => (key a).name == m.name && (key a).descriptor == m.descriptor) =
      some a →
    makeMove (n, p) (m, target) = (n + 1, (p.modifyClass m.owner fun c => withItems c
      ((items c).eraseP fun a => (key a).name == m.name && (key a).descriptor == m.descriptor)
      ).modifyClass target fun c => withItems c (items c ++ [a]))

namespace Part

/-- The fields of classes. -/
def ofFields : Part Field where
  areMethods := false
  items c := c.fields
  withItems c fields := { c with fields }
  key := Field.key
  access := Field.access
  withAccess f access := { f with access }
  renamed := Renaming.onField
  items_withItems _ _ := rfl
  withItems_withItems _ _ _ := rfl
  lineage_withItems _ _ := ⟨rfl, rfl⟩
  key_withAccess _ _ := rfl
  access_withAccess _ _ := rfl
  withAccess_self _ := rfl
  withAccess_withAccess _ _ _ := rfl
  key_renamed _ _ _ := rfl
  access_renamed _ _ _ := rfl
  items_onClass _ _ := rfl
  mem_members_iff c hkinds d := by
    rw [Class.members, List.mem_append, List.mem_map, List.mem_map]
    constructor
    · rintro ⟨h | ⟨m, hm, rfl⟩, hd⟩
      · exact h
      · rw [hkinds.2 m hm] at hd
        cases hd
    · rintro ⟨f, hf, rfl⟩
      exact ⟨.inl ⟨f, hf, rfl⟩, hkinds.1 f hf⟩
  isStaticIn?_eq c m hm := by
    rw [isStaticIn?, hm]
    rfl
  makeMove_eq n p m target c f hm hne hc hf := by
    have hf : c.field? m.name m.descriptor = some f := hf
    rw [makeMove.eq_def]
    dsimp only
    rw [if_neg (by simpa using hne), hc]
    dsimp only
    rw [hm, if_neg Bool.false_ne_true, hf]
    rfl

/-- The methods of classes. -/
def ofMethods : Part Method where
  areMethods := true
  items c := c.methods
  withItems c methods := { c with methods }
  key := Method.key
  access := Method.access
  withAccess m access := { m with access }
  renamed := Renaming.onMethod
  items_withItems _ _ := rfl
  withItems_withItems _ _ _ := rfl
  lineage_withItems _ _ := ⟨rfl, rfl⟩
  key_withAccess _ _ := rfl
  access_withAccess _ _ := rfl
  withAccess_self _ := rfl
  withAccess_withAccess _ _ _ := rfl
  key_renamed _ _ _ := rfl
  access_renamed _ _ _ := rfl
  items_onClass _ _ := rfl
  mem_members_iff c hkinds d := by
    rw [Class.members, List.mem_append, List.mem_map, List.mem_map]
    constructor
    · rintro ⟨⟨f, hf, rfl⟩ | h, hd⟩
      · rw [hkinds.1 f hf] at hd
        cases hd
      · exact h
    · rintro ⟨m, hm, rfl⟩
      exact ⟨.inr ⟨m, hm, rfl⟩, hkinds.2 m hm⟩
  isStaticIn?_eq c m hm := by
    rw [isStaticIn?, hm]
    rfl
  makeMove_eq n p m target c method hm hne hc hmethod := by
    have hmethod : c.method? m.name m.descriptor = some method := hmethod
    rw [makeMove.eq_def]
    dsimp only
    rw [if_neg (by simpa using hne), hc]
    dsimp only
    rw [hm, if_pos rfl, hmethod]
    rfl

variable {α : Type} (K : Part α) {p q : Codebase}

/-- Every item of a codebase, class by class. -/
def all (p : Codebase) : List α :=
  p.classes.flatMap K.items

/-- Whether an item has the name and descriptor of a reference. -/
def isNamed (m : Member) (a : α) : Bool :=
  (K.key a).name == m.name && (K.key a).descriptor == m.descriptor

/-- The items of a sound codebase are named by their class and of their kind. -/
theorem owner_and_kind (hp : p.Sound) {c : Class} (hc : c ∈ p.classes) {a : α}
    (ha : a ∈ K.items c) : (K.key a).owner = c.name ∧ isMethod (K.key a) = K.areMethods := by
  obtain ⟨hd, hkind⟩ := (K.mem_members_iff c (hp.kinds c hc) _).2 ⟨a, ha, rfl⟩
  exact ⟨hp.owner_eq hc hd, hkind⟩

/-- The declarations of a kind are the items. -/
theorem mem_declarations_iff (hp : p.Sound) (d : Member × Bool) :
    d ∈ p.declarations ∧ isMethod d.1 = K.areMethods ↔
      ∃ a ∈ K.all p, (K.key a, (K.access a).contains .privateFlag) = d := by
  constructor
  · rintro ⟨hd, hkind⟩
    obtain ⟨c, hc, hd⟩ := List.mem_flatMap.1 hd
    obtain ⟨a, ha, heq⟩ := (K.mem_members_iff c (hp.kinds c hc) d).1 ⟨hd, hkind⟩
    exact ⟨a, List.mem_flatMap.2 ⟨c, hc, ha⟩, heq⟩
  · rintro ⟨a, ha, heq⟩
    obtain ⟨c, hc, ha⟩ := List.mem_flatMap.1 ha
    obtain ⟨hd, hkind⟩ := (K.mem_members_iff c (hp.kinds c hc) d).2 ⟨a, ha, heq⟩
    exact ⟨List.mem_flatMap.2 ⟨c, hc, hd⟩, hkind⟩

/-- If the items of each class differ in name or descriptor, all items have different references. -/
theorem nodup_keys (hp : p.Sound) (h : ∀ c ∈ p.classes,
    ((K.items c).map fun a => ((K.key a).name, (K.key a).descriptor)).Nodup) :
    ((K.all p).map K.key).Nodup := by
  rw [all, List.map_flatMap, List.nodup_flatMap]
  constructor
  · intro c hc
    have hsignatures : (((K.items c).map K.key).map fun m => (m.name, m.descriptor)).Nodup := by
      rw [List.map_map]
      exact h c hc
    exact hsignatures.of_map
  · refine (List.pairwise_map.1 hp.distinct).imp_of_mem fun {c d} hc hd hne => ?_
    intro k hkc hkd
    obtain ⟨a, ha, rfl⟩ := List.mem_map.1 hkc
    obtain ⟨b, hb, hba⟩ := List.mem_map.1 hkd
    refine hne ((K.owner_and_kind hp hc ha).1.symm.trans ?_)
    rw [← hba, (K.owner_and_kind hp hd hb).1]

/-- Items of a class with different references differ in name or descriptor. -/
theorem nodup_signatures (hp : p.Sound) {c : Class} (hc : c ∈ p.classes)
    (h : ((K.items c).map K.key).Nodup) :
    ((K.items c).map fun a => ((K.key a).name, (K.key a).descriptor)).Nodup := by
  have hinj : ∀ k ∈ (K.items c).map K.key, ∀ k' ∈ (K.items c).map K.key,
      (k.name, k.descriptor) = (k'.name, k'.descriptor) → k = k' := by
    intro k hk k' hk' heq
    obtain ⟨a, ha, rfl⟩ := List.mem_map.1 hk
    obtain ⟨b, hb, rfl⟩ := List.mem_map.1 hk'
    obtain ⟨hname, hdescriptor⟩ := Prod.mk.inj heq
    calc K.key a = ⟨(K.key a).owner, (K.key a).name, (K.key a).descriptor⟩ := rfl
      _ = ⟨(K.key b).owner, (K.key b).name, (K.key b).descriptor⟩ := by
        rw [(K.owner_and_kind hp hc ha).1, (K.owner_and_kind hp hc hb).1, hname, hdescriptor]
  have hsignatures := h.map_on hinj
  rwa [List.map_map] at hsignatures

/-- A codebase in which moves have brought each item of another one to the class that it belongs to
now. -/
structure Settled (home : Member → String) (p q : Codebase) : Prop where
  /-- The classes are the same but for their items. -/
  rest : q.classes.map (K.withItems · []) = p.classes.map (K.withItems · [])
  /-- Each class holds the items that belong to it. -/
  mem_iff : ∀ c ∈ q.classes, ∀ a, a ∈ K.items c ↔ a ∈ K.all p ∧ home (K.key a) = c.name
  /-- A class holds no item twice. -/
  nodup : ∀ c ∈ q.classes, ((K.items c).map K.key).Nodup

/-- Taking out the one item that satisfies a test. -/
theorem mem_eraseP_iff {test : α → Bool} {as : List α} {a b : α} (hnodup : as.Nodup) (ha : a ∈ as)
    (htest : test a = true) (honly : ∀ b ∈ as, test b = true → b = a) :
    b ∈ as.eraseP test ↔ b ∈ as ∧ b ≠ a := by
  obtain ⟨c, front, back, -, hc, rfl, heq⟩ := List.exists_of_eraseP ha htest
  have hca : c = a := honly c (List.mem_append_right _ List.mem_cons_self) hc
  subst hca
  have hout := (List.nodup_cons.1 (List.perm_middle.nodup_iff.1 hnodup)).1
  rw [heq]
  constructor
  · exact fun hb => ⟨List.perm_middle.mem_iff.2 (List.mem_cons_of_mem _ hb),
      fun h => hout (h ▸ hb)⟩
  · rintro ⟨hb, hne⟩
    exact (List.mem_cons.1 (List.perm_middle.mem_iff.1 hb)).resolve_left hne

/-- If classes have different names, changing the one of a given name changes this one only. -/
theorem classes_modifyClass (hdistinct : (q.classes.map (·.name)).Nodup) (name : String)
    (f : Class → Class) :
    (q.modifyClass name f).classes = q.classes.map fun c => if c.name = name then f c else c := by
  rw [Codebase.modifyClass]
  dsimp only
  generalize q.classes = cs at hdistinct
  induction cs with
  | nil => rfl
  | cons c cs ih =>
    rw [List.map_cons, List.nodup_cons] at hdistinct
    rw [modifyFirst, List.map_cons]
    by_cases hc : c.name = name
    · rw [if_pos (beq_iff_eq.2 hc), if_pos hc]
      refine congrArg _ ((List.map_id' cs).symm.trans (List.map_congr_left fun d hd => ?_))
      rw [if_neg]
      rintro rfl
      exact hdistinct.1 (hc ▸ List.mem_map_of_mem hd)
    · rw [if_neg (by simpa using hc), if_neg hc, ih hdistinct.2]

/-- The class of a name that occurs. -/
theorem exists_class? {name : String} (hname : name ∈ q.classes.map (·.name)) :
    ∃ c ∈ q.classes, c.name = name ∧ q.class? name = some c := by
  obtain ⟨c, hc, rfl⟩ := List.mem_map.1 hname
  have hsome : (q.class? c.name).isSome = true :=
    List.find?_isSome.2 ⟨c, hc, beq_self_eq_true c.name⟩
  obtain ⟨d, hd⟩ := Option.isSome_iff_exists.1 hsome
  have hname := List.find?_some hd
  exact ⟨d, List.mem_of_find?_eq_some hd, beq_iff_eq.1 hname, hd⟩

/-- A class after a move: the one that loses an item, the one that gains it, or another one. -/
def afterMove (a : α) (target : String) (c : Class) : Class :=
  if c.name = (K.key a).owner then K.withItems c ((K.items c).eraseP (K.isNamed (K.key a)))
  else if c.name = target then K.withItems c (K.items c ++ [a]) else c

/-- A move leaves the classes the same but for their items. -/
theorem withItems_afterMove (a : α) (target : String) (c : Class) :
    K.withItems (K.afterMove a target c) [] = K.withItems c [] := by
  rw [afterMove]
  split
  · exact K.withItems_withItems c _ _
  · split
    · exact K.withItems_withItems c _ _
    · rfl

/-- Moving a member into a class keeps the name of the class. -/
theorem name_afterMove (a : α) (target : String) (c : Class) :
    (K.afterMove a target c).name = c.name := by
  rw [← (K.lineage_withItems (K.afterMove a target c) []).1, K.withItems_afterMove,
    (K.lineage_withItems c []).1]

/-- A move changes each class for itself. -/
theorem classes_afterMove (hdistinct : (q.classes.map (·.name)).Nodup) {a : α} {target : String}
    (hne : (K.key a).owner ≠ target) :
    ((q.modifyClass (K.key a).owner fun c => K.withItems c
      ((K.items c).eraseP (K.isNamed (K.key a)))).modifyClass target fun c =>
        K.withItems c (K.items c ++ [a])).classes = q.classes.map (K.afterMove a target) := by
  have hnames : (q.modifyClass (K.key a).owner fun c => K.withItems c
      ((K.items c).eraseP (K.isNamed (K.key a)))).classes.map (·.name) =
        q.classes.map (·.name) := by
    rw [classes_modifyClass hdistinct, List.map_map]
    refine List.map_congr_left fun c _ => ?_
    rw [Function.comp_apply]
    split
    · exact (K.lineage_withItems c _).1
    · rfl
  rw [classes_modifyClass (hnames ▸ hdistinct), classes_modifyClass hdistinct, List.map_map]
  refine List.map_congr_left fun c _ => ?_
  rw [Function.comp_apply, afterMove]
  split
  · next hc => rw [if_neg (by rw [(K.lineage_withItems c _).1, hc]; exact hne)]
  · rfl

/-- What a class holds after a move. -/
theorem mem_items_afterMove {a e : α} {target : String} {c : Class}
    (hne : (K.key a).owner ≠ target) (hnodup : (K.items c).Nodup)
    (hmem : a ∈ K.items c ↔ c.name = (K.key a).owner)
    (honly : ∀ b ∈ K.items c, K.isNamed (K.key a) b = true → c.name = (K.key a).owner → b = a) :
    e ∈ K.items (K.afterMove a target c) ↔
      (e = a ∧ c.name = target) ∨ (e ≠ a ∧ e ∈ K.items c) := by
  rw [afterMove]
  split
  · next howns =>
    rw [K.items_withItems, mem_eraseP_iff hnodup (hmem.2 howns) (by simp [isNamed])
      fun b hb hnamed => honly b hb hnamed howns]
    simp [howns, hne, and_comm]
  · next hother =>
    split
    · next htarget =>
      rw [K.items_withItems, List.mem_append, List.mem_singleton]
      tauto
    · next hthird =>
      have ha : a ∉ K.items c := fun ha => hother (hmem.1 ha)
      constructor
      · exact fun he => .inr ⟨fun heq => ha (heq ▸ he), he⟩
      · rintro (⟨-, h⟩ | ⟨-, he⟩)
        · exact absurd h hthird
        · exact he

namespace Settled

variable {K} {home : Member → String}

/-- The classes have their names and supertypes. -/
theorem lineage (h : K.Settled home p q) :
    q.classes.map (fun c => (c.name, c.supertypes)) =
      p.classes.map fun c => (c.name, c.supertypes) := by
  have hsame : (fun c : Class => (c.name, c.supertypes)) =
      (fun c : Class => (c.name, c.supertypes)) ∘ (K.withItems · []) := by
    funext c
    rw [Function.comp_apply, (K.lineage_withItems c []).1, (K.lineage_withItems c []).2]
  rw [hsame, ← List.map_map, h.rest, List.map_map]

/-- The classes have their names. -/
theorem names (h : K.Settled home p q) :
    q.classes.map (·.name) = p.classes.map (·.name) :=
  Hierarchy.names_of_lineage h.lineage

/-- Every class is still there, whatever it holds. -/
theorem exists_class (h : K.Settled home p q) {c : Class} (hc : c ∈ p.classes) :
    ∃ c' ∈ q.classes, K.withItems c' [] = K.withItems c [] := by
  have hrest : K.withItems c [] ∈ q.classes.map (K.withItems · []) := by
    rw [h.rest]
    exact List.mem_map_of_mem hc
  exact List.mem_map.1 hrest

/-- Every class was there before, whatever it held. -/
theorem exists_origin (h : K.Settled home p q) {c' : Class} (hc' : c' ∈ q.classes) :
    ∃ c ∈ p.classes, K.withItems c [] = K.withItems c' [] := by
  have hrest : K.withItems c' [] ∈ p.classes.map (K.withItems · []) := by
    rw [← h.rest]
    exact List.mem_map_of_mem hc'
  exact List.mem_map.1 hrest

/-- Only the classes of the items matter. -/
theorem congr (h : K.Settled home p q) {home' : Member → String}
    (hhome : ∀ a ∈ K.all p, home' (K.key a) = home (K.key a)) : K.Settled home' p q where
  rest := h.rest
  mem_iff c hc a := by
    rw [h.mem_iff c hc]
    exact and_congr_right fun ha => by rw [hhome a ha]
  nodup := h.nodup

/-- What a class holds before anything moves. -/
theorem refl (hp : p.Sound) (hkeys : ((K.all p).map K.key).Nodup) :
    K.Settled Member.owner p p where
  rest := rfl
  mem_iff c hc a := by
    constructor
    · exact fun ha => ⟨List.mem_flatMap.2 ⟨c, hc, ha⟩, (K.owner_and_kind hp hc ha).1⟩
    · rintro ⟨ha, howner⟩
      obtain ⟨d, hd, ha⟩ := List.mem_flatMap.1 ha
      have hname : d.name = c.name := (K.owner_and_kind hp hd ha).1.symm.trans howner
      rwa [← hp.class_eq hd hc hname]
  nodup c hc := by
    rw [all, List.map_flatMap] at hkeys
    exact (List.nodup_flatMap.1 hkeys).1 c hc

/-- One move brings one item to another class. -/
theorem makeMove (hp : p.Sound) (hkeys : ((K.all p).map K.key).Nodup) (h : K.Settled home p q)
    {a : α} {target : String} (ha : a ∈ K.all p) (hhome : home (K.key a) = (K.key a).owner)
    (hne : (K.key a).owner ≠ target)
    (halone : ∀ b ∈ K.all p, home (K.key b) = (K.key a).owner →
      K.isNamed (K.key a) b = true → b = a) (n : Nat) :
    ∃ q', Naming.makeMove (n, q) (K.key a, target) = (n + 1, q') ∧
      K.Settled (Function.update home (K.key a) target) p q' := by
  obtain ⟨o, ho, hao⟩ := List.mem_flatMap.1 ha
  obtain ⟨hname, hkind⟩ := K.owner_and_kind hp ho hao
  have howner : (K.key a).owner ∈ q.classes.map (·.name) := by
    rw [h.names, hname]
    exact List.mem_map_of_mem ho
  have hdistinct : (q.classes.map (·.name)).Nodup := h.names ▸ hp.distinct
  obtain ⟨c, hc, hname, hclass⟩ := exists_class? howner
  have hac : a ∈ K.items c := (h.mem_iff c hc a).2 ⟨ha, hhome.trans hname.symm⟩
  have hself : K.isNamed (K.key a) a = true := by simp [isNamed]
  obtain ⟨b, hfind⟩ := Option.isSome_iff_exists.1 (List.find?_isSome.2 ⟨a, hac, hself⟩)
  -- There is one item of that name in the class, so the one that is found is the one to move.
  have hba : b = a := by
    have hb := (h.mem_iff c hc b).1 (List.mem_of_find?_eq_some hfind)
    exact halone b hb.1 (hb.2.trans hname) (List.find?_some hfind)
  subst hba
  refine ⟨_, K.makeMove_eq n q (K.key b) target c b hkind hne hclass hfind, ?_⟩
  have hclasses := K.classes_afterMove hdistinct hne
  constructor
  · rw [← h.rest]
    refine (congrArg (List.map (K.withItems · [])) hclasses).trans ?_
    rw [List.map_map]
    exact List.map_congr_left fun d _ => K.withItems_afterMove b target d
  -- Each item has its home in the class it is in: the one that was moved in the target, the others
  -- where they were.
  · intro d' hd' e
    obtain ⟨d, hd, rfl⟩ := List.mem_map.1 (hclasses ▸ hd')
    rw [K.name_afterMove, Function.update_apply]
    rw [K.mem_items_afterMove hne (h.nodup d hd).of_map
      (by rw [h.mem_iff d hd, hhome]; simp [ha, eq_comm]) fun e he hnamed howns =>
        halone e ((h.mem_iff d hd e).1 he).1 (((h.mem_iff d hd e).1 he).2.trans howns) hnamed,
      h.mem_iff d hd]
    by_cases hkey : K.key e = K.key b
    · rw [if_pos hkey]
      constructor
      · rintro (⟨rfl, htarget⟩ | ⟨hne, he, -⟩)
        · exact ⟨ha, htarget.symm⟩
        · exact absurd (List.inj_on_of_nodup_map hkeys he ha hkey) hne
      · rintro ⟨he, htarget⟩
        exact .inl ⟨List.inj_on_of_nodup_map hkeys he ha hkey, htarget.symm⟩
    · rw [if_neg hkey]
      have hne : e ≠ b := fun heq => hkey (heq ▸ rfl)
      simp [hne]
  -- The target gets an item of a name that it had not got, since its home was elsewhere.
  · intro d' hd'
    obtain ⟨d, hd, rfl⟩ := List.mem_map.1 (hclasses ▸ hd')
    have hnodup := h.nodup d hd
    rw [afterMove]
    split
    · rw [K.items_withItems]
      exact hnodup.sublist (List.eraseP_sublist.map _)
    · next hother =>
      split
      · rw [K.items_withItems, List.map_append]
        refine hnodup.append (List.nodup_singleton _) ?_
        rw [List.map_singleton, List.disjoint_singleton]
        intro hmem
        obtain ⟨e, he, hkeys'⟩ := List.mem_map.1 hmem
        have hehome := ((h.mem_iff d hd e).1 he).2
        rw [hkeys', hhome] at hehome
        exact hother hehome.symm
      · exact hnodup

/-- Moves of different items, none of which joins one of its name and descriptor that is still to
move, bring each item to its class. -/
theorem foldl_makeMove (hp : p.Sound) (hkeys : ((K.all p).map K.key).Nodup)
    (h : K.Settled home p q) {moves : List (α × String)}
    (hnodup : (moves.map fun x => K.key x.1).Nodup) (hmem : ∀ x ∈ moves, x.1 ∈ K.all p)
    (hstill : ∀ x ∈ moves, home (K.key x.1) = (K.key x.1).owner)
    (hne : ∀ x ∈ moves, (K.key x.1).owner ≠ x.2)
    (halone : ∀ x ∈ moves, ∀ b ∈ K.all p, home (K.key b) = (K.key x.1).owner →
      K.isNamed (K.key x.1) b = true → b = x.1)
    (hapart : ∀ x ∈ moves, ∀ y ∈ moves, y.2 = (K.key x.1).owner →
      K.isNamed (K.key x.1) y.1 = false)
    {home' : Member → String} (hhome : ∀ x ∈ moves, home' (K.key x.1) = x.2)
    (hother : ∀ a ∈ K.all p, K.key a ∉ moves.map (fun x => K.key x.1) →
      home' (K.key a) = home (K.key a)) (n : Nat) :
    ∃ q', (moves.map fun x => (K.key x.1, x.2)).foldl Naming.makeMove (n, q) =
      (n + moves.length, q') ∧ K.Settled home' p q' := by
  induction moves generalizing home q n with
  | nil =>
    exact ⟨q, rfl, h.congr fun a ha => hother a ha (by simp)⟩
  | cons x moves ih =>
    rw [List.map_cons, List.nodup_cons] at hnodup
    obtain ⟨q₁, hmove, hq₁⟩ := h.makeMove hp hkeys (hmem x List.mem_cons_self)
      (hstill x List.mem_cons_self) (hne x List.mem_cons_self) (halone x List.mem_cons_self) n
    have hdiffers : ∀ y ∈ moves, K.key y.1 ≠ K.key x.1 := fun y hy heq =>
      hnodup.1 (heq ▸ List.mem_map_of_mem (f := fun x => K.key x.1) hy)
    obtain ⟨q₂, hmoves, hq₂⟩ := ih hq₁ hnodup.2 (fun y hy => hmem y (List.mem_cons_of_mem _ hy))
      (fun y hy => by
        rw [Function.update_of_ne (hdiffers y hy)]
        exact hstill y (List.mem_cons_of_mem _ hy))
      (fun y hy => hne y (List.mem_cons_of_mem _ hy))
      (fun y hy b hb hhomeb hnamed => by
        rw [Function.update_apply] at hhomeb
        split at hhomeb
        · next hbx =>
          -- the item that has just moved is not the one that is to move
          have hbeq := List.inj_on_of_nodup_map hkeys hb (hmem x List.mem_cons_self) hbx
          rw [hbeq, hapart y (List.mem_cons_of_mem _ hy) x List.mem_cons_self hhomeb] at hnamed
          cases hnamed
        · exact halone y (List.mem_cons_of_mem _ hy) b hb hhomeb hnamed)
      (fun y hy z hz => hapart y (List.mem_cons_of_mem _ hy) z (List.mem_cons_of_mem _ hz))
      (fun y hy => hhome y (List.mem_cons_of_mem _ hy))
      (fun a ha hm => by
        rw [Function.update_apply]
        split
        · next hax => rw [hax, hhome x List.mem_cons_self]
        · next hax => exact hother a ha (by simpa [hax] using hm))
      (n + 1)
    refine ⟨q₂, ?_, hq₂⟩
    rw [List.map_cons, List.foldl_cons, hmove, hmoves, List.length_cons]
    congr 1
    omega

end Settled

/-- Moves that can be made: of different static items, each into another class of the codebase, and
of none into a class from which one of its name and descriptor is to move. -/
structure Movable (p : Codebase) (moves : List (α × String)) : Prop where
  /-- Nothing moves twice. -/
  nodup : (moves.map fun x => K.key x.1).Nodup
  /-- What moves belongs to the codebase. -/
  mem : ∀ x ∈ moves, x.1 ∈ K.all p
  /-- What moves is static. -/
  static : ∀ x ∈ moves, (K.access x.1).contains .staticFlag = true
  /-- The classes to move to belong to the codebase. -/
  target : ∀ x ∈ moves, x.2 ∈ p.classes.map (·.name)
  /-- What moves leaves its class. -/
  leaves : ∀ x ∈ moves, (K.key x.1).owner ≠ x.2
  /-- What moves joins nothing of its name and descriptor that is to move. -/
  apart : ∀ x ∈ moves, ∀ y ∈ moves, y.2 = (K.key x.1).owner → K.isNamed (K.key x.1) y.1 = false

variable {K} {moves : List (α × String)}

/-- An item of the name and descriptor of another one in the same class is this one. -/
theorem eq_of_isNamed (hkeys : ((K.all p).map K.key).Nodup) {a b : α} (ha : a ∈ K.all p)
    (hb : b ∈ K.all p) (howner : (K.key b).owner = (K.key a).owner)
    (hnamed : K.isNamed (K.key a) b = true) : b = a := by
  refine List.inj_on_of_nodup_map hkeys hb ha ?_
  obtain ⟨hname, hdescriptor⟩ := Bool.and_eq_true_iff.1 hnamed
  calc K.key b = ⟨(K.key b).owner, (K.key b).name, (K.key b).descriptor⟩ := rfl
    _ = ⟨(K.key a).owner, (K.key a).name, (K.key a).descriptor⟩ := by
      rw [howner, beq_iff_eq.1 hname, beq_iff_eq.1 hdescriptor]

/-- A move that can be made passes its check. -/
theorem Movable.checkMove (hp : p.Sound) (hkeys : ((K.all p).map K.key).Nodup)
    (h : K.Movable p moves) {x : α × String} (hx : x ∈ moves) :
    Naming.checkMove p (K.key x.1, x.2) = .valid := by
  obtain ⟨o, ho, hxo⟩ := List.mem_flatMap.1 (h.mem x hx)
  obtain ⟨howner, hkind⟩ := K.owner_and_kind hp ho hxo
  obtain ⟨t, -, -, ht⟩ := exists_class? (h.target x hx)
  have hnamed : (K.key x.1).owner ∈ p.classes.map (·.name) := by
    rw [howner]
    exact List.mem_map_of_mem ho
  obtain ⟨c, hc, hname, hclass⟩ := exists_class? hnamed
  have hxc : x.1 ∈ K.items c := hp.class_eq ho hc (howner.symm.trans hname.symm) ▸ hxo
  obtain ⟨b, hb⟩ := Option.isSome_iff_exists.1 (List.find?_isSome.2
    ⟨x.1, hxc, (by simp [isNamed] : K.isNamed (K.key x.1) x.1 = true)⟩)
  have hbx : b = x.1 := by
    have hbc := List.mem_of_find?_eq_some hb
    exact eq_of_isNamed hkeys (h.mem x hx) (List.mem_flatMap.2 ⟨c, hc, hbc⟩)
      ((K.owner_and_kind hp hc hbc).1.trans hname) (List.find?_some hb)
  subst hbx
  have hstatic : isStaticIn? c (K.key x.1) = some true := by
    rw [K.isStaticIn?_eq c _ hkind]
    exact (congrArg _ hb).trans (congrArg some (h.static x hx))
  rw [Naming.checkMove, ht, hclass, Option.bind_some, hstatic]
  rfl

/-- If no check fails, all moves are made. -/
theorem checkMoves_eq {ms : List Move} (h : ∀ move ∈ ms, Naming.checkMove p move = .valid) :
    checkMoves p ms = ([], .ok ms) := by
  induction ms with
  | nil => rfl
  | cons move ms ih =>
    rw [checkMoves, h move List.mem_cons_self, ih fun m hm => h m (List.mem_cons_of_mem _ hm)]
    rfl

/-- Moves that can be made are all made, and bring each item to the class it is sent to. -/
theorem relocate_settles (hp : p.Sound) (hkeys : ((K.all p).map K.key).Nodup)
    (h : K.Movable p moves) (home : Member → String)
    (hhome : ∀ x ∈ moves, home (K.key x.1) = x.2)
    (hother : ∀ a ∈ K.all p, K.key a ∉ moves.map (fun x => K.key x.1) →
      home (K.key a) = (K.key a).owner) :
    ∃ q, relocate p (moves.map fun x => (K.key x.1, x.2)) = ([], .ok (moves.length, q)) ∧
      K.Settled home p q := by
  have hvalid : ∀ move ∈ moves.map fun x => (K.key x.1, x.2),
      Naming.checkMove p move = .valid := by
    intro move hmove
    obtain ⟨x, hx, rfl⟩ := List.mem_map.1 hmove
    exact h.checkMove hp hkeys hx
  obtain ⟨q, hq, hsettled⟩ := (Settled.refl hp hkeys).foldl_makeMove hp hkeys h.nodup h.mem
    (fun _ _ => rfl) h.leaves
    (fun x hx b hb howner hnamed => eq_of_isNamed hkeys (h.mem x hx) hb howner hnamed)
    h.apart hhome hother 0
  refine ⟨q, ?_, hsettled⟩
  rw [relocate, checkMoves_eq hvalid]
  dsimp only
  rw [Except.map, hq, Nat.zero_add]

end Part

end Unscramble.Naming
