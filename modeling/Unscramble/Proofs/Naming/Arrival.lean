import Unscramble.Proofs.Naming.Part
import Unscramble.Proofs.Naming.Resettling

/-! # Members under their new references

After moves the members of a codebase stand in the classes of their new references, some with wider
access. Renaming the codebase then gives each of them its new reference.

Main definitions: `Part.Opened`, `Part.Arrives`, `Part.Arrived`. Main statements:
`Part.relocate_resettles`, `Part.arrived_apply`. -/

namespace Unscramble.Naming

/-- A codebase with different class names and the right descriptors is sound under new references
that keep types and class names. -/
theorem sound_apply {q : Codebase} {r : Renaming} (hdistinct : (q.classes.map (·.name)).Nodup)
    (hfields : ∀ f ∈ q.fields, isMethod f.key = false)
    (hmethods : ∀ m ∈ q.methods, isMethod m.key = true) (hclasses : ∀ n, r.onClassName n = n)
    (hdescriptor : ∀ m, (r.onMember m).descriptor = m.descriptor) : (r.apply q).Sound where
  distinct := by
    rw [Renaming.apply, List.map_map]
    refine (List.map_congr_left fun c _ => ?_ : _ = q.classes.map (·.name)) ▸ hdistinct
    exact hclasses c.name
  -- A renaming keeps what sorts members into fields and methods, since it keeps types.
  owners c' hc' m hm := by
    obtain ⟨c, hc, rfl⟩ := List.mem_map.1 hc'
    rcases List.mem_append.1 hm with hm | hm
    · obtain ⟨f', hf', rfl⟩ := List.mem_map.1 hm
      obtain ⟨f, -, rfl⟩ := List.mem_map.1 hf'
      rfl
    · obtain ⟨m', hm', rfl⟩ := List.mem_map.1 hm
      obtain ⟨m, -, rfl⟩ := List.mem_map.1 hm'
      rfl
  kinds c' hc' := by
    obtain ⟨c, hc, rfl⟩ := List.mem_map.1 hc'
    constructor
    · intro f' hf'
      obtain ⟨f, hf, rfl⟩ := List.mem_map.1 hf'
      rw [← hfields f (List.mem_flatMap.2 ⟨c, hc, hf⟩)]
      exact isMethod_eq (hdescriptor f.key)
    · intro m' hm'
      obtain ⟨m, hm, rfl⟩ := List.mem_map.1 hm'
      rw [← hmethods m (List.mem_flatMap.2 ⟨c, hc, hm⟩)]
      exact isMethod_eq (hdescriptor m.key)

/-- A renaming that keeps the names of classes keeps what they inherit from. -/
theorem lineage_apply {r : Renaming} (hclasses : ∀ n, r.onClassName n = n) (q : Codebase) :
    (r.apply q).classes.map (fun c => (c.name, c.supertypes)) =
      q.classes.map fun c => (c.name, c.supertypes) := by
  have hself : r.onClassName = id := funext hclasses
  rw [Renaming.apply, List.map_map]
  refine List.map_congr_left fun c _ => ?_
  simp [Renaming.onClass, Class.supertypes, hself]

/-- The bodies of a renamed codebase are its bodies renamed. -/
theorem bodies_apply (r : Renaming) (q : Codebase) : (r.apply q).bodies = q.bodies.map r.onBody := by
  have hmethods : (r.apply q).methods = q.classes.flatMap fun c =>
      c.methods.map (r.onMethod (r.onClassName c.name)) := by
    rw [Codebase.methods, Renaming.apply, List.flatMap_map]
    rfl
  rw [Codebase.bodies, hmethods, Codebase.bodies, Codebase.methods, List.filterMap_flatMap,
    List.filterMap_flatMap, List.map_flatMap]
  refine List.flatMap_congr fun c _ => ?_
  rw [List.filterMap_map, List.map_filterMap]
  rfl

/-- The instructions of a renamed codebase are renamed one by one. -/
theorem instructions_apply (r : Renaming) {q : Codebase}
    (hnodup : ∀ b ∈ q.bodies, b.listing.handles.Nodup) :
    (r.apply q).bodies.map (·.listing.instructions) =
      q.bodies.map fun b => b.listing.instructions.map r.onInstruction := by
  rw [bodies_apply, List.map_map]
  exact List.map_congr_left fun b hb => r.instructions_onListing (hnodup b hb)

namespace Part

variable {α : Type} (K : Part α) {p q q' q'' p' : Codebase} {opened : Member → Prop}

/-- Whether only its class sees an item. -/
def isPrivate (a : α) : Bool :=
  (K.access a).contains .privateFlag

/-- An item whose access may have been widened, for all classes only if it is one of the opened. -/
def Widens (opened : Member → Prop) (a b : α) : Prop :=
  (∃ flags, b = K.withAccess a flags) ∧ (K.isPrivate b = true → K.isPrivate a = true) ∧
    (K.isPrivate b = K.isPrivate a ∨ opened (K.key a))

/-- A codebase in which the access of items may have been widened. -/
def Opened (opened : Member → Prop) (q q' : Codebase) : Prop :=
  List.Forall₂ (fun c c' => c'.name = c.name ∧ c'.supertypes = c.supertypes ∧
    List.Forall₂ (K.Widens opened) (K.items c) (K.items c')) q.classes q'.classes

variable {K}

/-- An item is as wide as itself. -/
theorem Widens.refl (a : α) : K.Widens opened a a :=
  ⟨⟨K.access a, (K.withAccess_self a).symm⟩, id, .inl rfl⟩

/-- Widening the access keeps the reference. -/
theorem Widens.key_eq {a b : α} (h : K.Widens opened a b) : K.key b = K.key a := by
  obtain ⟨⟨flags, rfl⟩, -⟩ := h
  exact K.key_withAccess a flags

/-- Access that is widened twice is widened. -/
theorem Widens.trans {a b c : α} (h : K.Widens opened a b) (h' : K.Widens opened b c) :
    K.Widens opened a c := by
  have hkey := h.key_eq
  obtain ⟨⟨flags, rfl⟩, hprivate, heq⟩ := h
  obtain ⟨⟨flags', rfl⟩, hprivate', heq'⟩ := h'
  refine ⟨⟨flags', K.withAccess_withAccess a flags flags'⟩, fun hc => hprivate (hprivate' hc), ?_⟩
  rw [hkey] at heq'
  rcases heq' with heq' | hopened
  · rcases heq with heq | hopened
    · exact .inl (heq'.trans heq)
    · exact .inr hopened
  · exact .inr hopened

/-- A codebase is as open as itself. -/
theorem Opened.refl (q : Codebase) : K.Opened opened q q :=
  List.forall₂_same.2 fun _ _ => ⟨rfl, rfl, List.forall₂_same.2 fun a _ => Widens.refl a⟩

/-- What is opened in two steps is opened. -/
theorem Opened.trans (h : K.Opened opened q q') (h' : K.Opened opened q' q'') :
    K.Opened opened q q'' := by
  refine forall₂_trans (fun c c' c'' hc hc' => ?_) h h'
  exact ⟨hc'.1.trans hc.1, hc'.2.1.trans hc.2.1,
    forall₂_trans (fun _ _ _ h h' => h.trans h') hc.2.2 hc'.2.2⟩

/-- Opening members leaves which classes inherit from which. -/
theorem Opened.lineage (h : K.Opened opened q q') :
    q'.classes.map (fun c => (c.name, c.supertypes)) =
      q.classes.map fun c => (c.name, c.supertypes) := by
  refine eq_map_of_forall₂ ?_
  rw [List.forall₂_map_right_iff]
  exact h.imp fun c c' hc => by rw [hc.1, hc.2.1]

/-- What was moved and widened is of its kind. -/
theorem Opened.isMethod_key {p₁ : Codebase} {home : Member → String} (h : K.Opened opened q q')
    (hsettled : K.Settled home p₁ q) (hp₁ : p₁.Sound) {b : α} (hb : b ∈ K.all q') :
    isMethod (K.key b) = K.areMethods := by
  obtain ⟨c', hc', hb⟩ := List.mem_flatMap.1 hb
  obtain ⟨c, hc, -, -, hitems⟩ := exists_of_mem_right h hc'
  obtain ⟨a, ha, hab⟩ := exists_of_mem_right hitems hb
  obtain ⟨d, hd, had⟩ := List.mem_flatMap.1 ((hsettled.mem_iff c hc a).1 ha).1
  rw [hab.key_eq]
  exact (K.owner_and_kind hp₁ hd had).2

variable (K) {pairs : List (Member × Member)}

/-- An item and what becomes of it: its access may be widened, and it stands under its new
reference. -/
def Arrives (r : Renaming) (opened : Member → Prop) (a a' : α) : Prop :=
  K.key a' = r.onMember (K.key a) ∧
    ∃ b, K.Widens opened a b ∧ a' = K.renamed r (r.onMember (K.key a)).owner b

/-- A codebase whose items are those of another one under their new references. -/
structure Arrived (r : Renaming) (opened : Member → Prop) (p p' : Codebase) : Prop where
  /-- The declarations are told by their references. -/
  sound : p'.Sound
  /-- Every item has arrived. -/
  arrived : ∀ a ∈ K.all p, ∃ a' ∈ K.all p', K.Arrives r opened a a'
  /-- Nothing else has. -/
  origin : ∀ a' ∈ K.all p', ∃ a ∈ K.all p, K.Arrives r opened a a'
  /-- Different items of a class have different references. -/
  nodup : ∀ c' ∈ p'.classes, ((K.items c').map K.key).Nodup

variable {K}

/-- The moves to the classes of new references are all made if they can be made, and bring each item
to the class of its reference. -/
theorem relocate_resettles {p₁ : Codebase} (h : Resettlement p pairs) (hp : p.Sound)
    (hp₁ : p₁.Sound) (hall : K.all p₁ = K.all p) (hkeys : ((K.all p).map K.key).Nodup)
    {moves : List (α × String)} (hmovable : K.Movable p₁ moves)
    (hpairs : List.Forall₂ (fun x pair => pair.1 = K.key x.1 ∧ pair.2.owner = x.2) moves pairs) :
    ∃ q, relocate p₁ (pairs.map fun x => (x.1, x.2.owner)) = ([], .ok (pairs.length, q)) ∧
      K.Settled (fun m => ((Renaming.ofFamilies (Families.ofCodebase p) pairs).onMember m).owner)
        p₁ q := by
  have hmoves : pairs.map (fun x => (x.1, x.2.owner)) = moves.map fun x => (K.key x.1, x.2) := by
    refine eq_map_of_forall₂ ?_
    rw [List.forall₂_map_right_iff]
    exact hpairs.imp fun x pair hpair => Prod.ext hpair.1 hpair.2
  have hmoved : moves.map (fun x => K.key x.1) = pairs.map (·.1) := by
    have hfst := congrArg (List.map Prod.fst) hmoves
    rw [List.map_map, List.map_map] at hfst
    exact hfst.symm
  -- An item goes to the class of its new reference, if it is moved, and otherwise stays in its own.
  have hhome : ∀ x ∈ moves,
      ((Renaming.ofFamilies (Families.ofCodebase p) pairs).onMember (K.key x.1)).owner = x.2 := by
    intro x hx
    obtain ⟨pair, hpair, hkey, howner⟩ := exists_of_mem_left hpairs hx
    have hnew := h.onMember_key hpair
    rw [hkey] at hnew
    exact (congrArg Member.owner hnew).trans howner
  have hother : ∀ a ∈ K.all p₁, K.key a ∉ moves.map (fun x => K.key x.1) →
      ((Renaming.ofFamilies (Families.ofCodebase p) pairs).onMember (K.key a)).owner =
        (K.key a).owner := by
    intro a ha hkey
    rw [hall] at ha
    rw [hmoved] at hkey
    have hd := ((K.mem_declarations_iff hp _).2 ⟨a, ha, rfl⟩).1
    exact congrArg Member.owner (h.onMember_of_not_mem hd hkey)
  obtain ⟨q, hq, hsettled⟩ := K.relocate_settles hp₁ (hall ▸ hkeys) hmovable
    (fun m => ((Renaming.ofFamilies (Families.ofCodebase p) pairs).onMember m).owner) hhome hother
  refine ⟨q, ?_, hsettled⟩
  rw [hmoves, hq, hpairs.length_eq]

/-- Each class of the new codebase holds what has become of its items. -/
theorem arrives_onClass {home : Member → String} {r : Renaming}
    (hhome : ∀ m, home m = (r.onMember m).owner) (hclasses : ∀ n, r.onClassName n = n)
    (hsettled : K.Settled home p q) {c c' : Class} (hc : c ∈ q.classes) (hname : c'.name = c.name)
    (hitems : List.Forall₂ (K.Widens opened) (K.items c) (K.items c')) :
    List.Forall₂ (K.Arrives r opened) (K.items c) (K.items (r.onClass c')) := by
  rw [K.items_onClass, hclasses, hname, List.forall₂_map_right_iff]
  refine forall₂_of_mem_left hitems fun a ha b hab => ?_
  have howner : (r.onMember (K.key a)).owner = c.name :=
    (hhome _).symm.trans ((hsettled.mem_iff c hc a).1 ha).2
  refine ⟨?_, b, hab, by rw [howner]⟩
  rw [K.key_renamed, hab.key_eq, ← howner]

/-- After moves that have brought the items to the classes of their new references, the renamed
codebase has the items under these references. -/
theorem arrived_apply {p₁ : Codebase} (h : Resettlement p pairs) (hp : p.Sound)
    (hall : K.all p₁ = K.all p) {home : Member → String}
    (hhome : ∀ m, home m =
      ((Renaming.ofFamilies (Families.ofCodebase p) pairs).onMember m).owner)
    (htarget : ∀ a ∈ K.all p, home (K.key a) ∈ p₁.classes.map (·.name))
    (hsettled : K.Settled home p₁ q) (hopened : K.Opened opened q q')
    (hsound : ((Renaming.ofFamilies (Families.ofCodebase p) pairs).apply q').Sound) :
    K.Arrived (Renaming.ofFamilies (Families.ofCodebase p) pairs) opened p
      ((Renaming.ofFamilies (Families.ofCodebase p) pairs).apply q') := by
  -- Each class that was opened is renamed item by item, and its name stays.
  have hclass : ∀ c ∈ q.classes, ∀ c' : Class, c'.name = c.name →
      List.Forall₂ (K.Widens opened) (K.items c) (K.items c') →
      List.Forall₂
        (K.Arrives (Renaming.ofFamilies (Families.ofCodebase p) pairs) opened) (K.items c)
        (K.items ((Renaming.ofFamilies (Families.ofCodebase p) pairs).onClass c')) :=
    fun c hc c' hname hitems =>
      arrives_onClass hhome (Renaming.onClassName_ofFamilies pairs) hsettled hc hname hitems
  refine ⟨hsound, ?_, ?_, ?_⟩
  · intro a ha
    obtain ⟨c, hc, hname⟩ := List.mem_map.1 (hsettled.names ▸ htarget a ha)
    have hac := (hsettled.mem_iff c hc a).2 ⟨hall ▸ ha, hname.symm⟩
    obtain ⟨c', hc', hname', -, hitems⟩ := exists_of_mem_left hopened hc
    obtain ⟨a', ha', harrives⟩ := exists_of_mem_left (hclass c hc c' hname' hitems) hac
    exact ⟨a', List.mem_flatMap.2 ⟨_, List.mem_map_of_mem hc', ha'⟩, harrives⟩
  · intro a' ha'
    obtain ⟨d, hd, ha'⟩ := List.mem_flatMap.1 ha'
    obtain ⟨c', hc', rfl⟩ := List.mem_map.1 hd
    obtain ⟨c, hc, hname', -, hitems⟩ := exists_of_mem_right hopened hc'
    obtain ⟨a, ha, harrives⟩ := exists_of_mem_right (hclass c hc c' hname' hitems) ha'
    exact ⟨a, hall ▸ ((hsettled.mem_iff c hc a).1 ha).1, harrives⟩
  · intro d hd
    obtain ⟨c', hc', rfl⟩ := List.mem_map.1 hd
    obtain ⟨c, hc, hname', -, hitems⟩ := exists_of_mem_right hopened hc'
    have hkeys : (K.items ((Renaming.ofFamilies (Families.ofCodebase p) pairs).onClass c')).map
        K.key = ((K.items c).map K.key).map
          (Renaming.ofFamilies (Families.ofCodebase p) pairs).onMember := by
      rw [List.map_map]
      refine eq_map_of_forall₂ ?_
      rw [List.forall₂_map_right_iff]
      exact (hclass c hc c' hname' hitems).imp fun _ _ harrives => harrives.1
    rw [hkeys]
    -- New references of different members are different, so those in one class are.
    refine List.Nodup.map_on ?_ (hsettled.nodup c hc)
    have hdeclared : ∀ k ∈ (K.items c).map K.key, ∃ b, (k, b) ∈ p.declarations := by
      intro k hk
      obtain ⟨a, ha, rfl⟩ := List.mem_map.1 hk
      have hall := hall ▸ ((hsettled.mem_iff c hc a).1 ha).1
      exact ⟨_, ((K.mem_declarations_iff hp _).2 ⟨a, hall, rfl⟩).1⟩
    intro k hk k' hk' heq
    obtain ⟨b, hb⟩ := hdeclared k hk
    obtain ⟨b', hb'⟩ := hdeclared k' hk'
    exact h.onMember_inj hb hb' heq

variable (K) in
/-- Moves that can be made, with what is done to the access of items afterwards, bring every item
under its new reference. -/
theorem exists_arrived {p₁ : Codebase} (h : Resettlement p pairs) (hp : p.Sound) (hp₁ : p₁.Sound)
    (hall : K.all p₁ = K.all p) (hkeys : ((K.all p).map K.key).Nodup)
    (hextends : Hierarchy.Extends p p₁) {moves : List (α × String)} (hmovable : K.Movable p₁ moves)
    (hpairs : List.Forall₂ (fun x pair => pair.1 = K.key x.1 ∧ pair.2.owner = x.2) moves pairs)
    (publish : Codebase → Codebase)
    (hpublish : ∀ q, K.Settled
        (fun m => ((Renaming.ofFamilies (Families.ofCodebase p) pairs).onMember m).owner) p₁ q →
      K.Opened opened q (publish q) ∧ (∀ f ∈ (publish q).fields, isMethod f.key = false) ∧
        ∀ m ∈ (publish q).methods, isMethod m.key = true) :
    ∃ q, relocate p₁ (pairs.map fun x => (x.1, x.2.owner)) = ([], .ok (pairs.length, q)) ∧
      K.Settled (fun m => ((Renaming.ofFamilies (Families.ofCodebase p) pairs).onMember m).owner)
        p₁ q ∧
      K.Arrived (Renaming.ofFamilies (Families.ofCodebase p) pairs) opened p
        ((Renaming.ofFamilies (Families.ofCodebase p) pairs).apply (publish q)) ∧
      Hierarchy.Extends p
        ((Renaming.ofFamilies (Families.ofCodebase p) pairs).apply (publish q)) := by
  obtain ⟨q, hq, hsettled⟩ := relocate_resettles h hp hp₁ hall hkeys hmovable hpairs
  obtain ⟨hopened, hfields, hmethods⟩ := hpublish q hsettled
  have hclasses : ∀ n, (Renaming.ofFamilies (Families.ofCodebase p) pairs).onClassName n = n :=
    Renaming.onClassName_ofFamilies pairs
  have hdistinct : ((publish q).classes.map (·.name)).Nodup := by
    rw [Hierarchy.names_of_lineage hopened.lineage, hsettled.names]
    exact hp₁.distinct
  have hsound := sound_apply hdistinct hfields hmethods hclasses h.descriptor_onMember
  refine ⟨q, hq, hsettled, ?_, ?_⟩
  -- An item arrives in a class that is there: where its move goes, or where it was.
  · refine arrived_apply h hp hall (fun _ => rfl) (fun a ha => ?_) hsettled hopened hsound
    have hd := ((K.mem_declarations_iff hp _).2 ⟨a, ha, rfl⟩).1
    rcases h.onMember_cases hd with ⟨x, hx, -, hnew⟩ | ⟨-, hstay⟩
    · obtain ⟨move, hmove, -, howner⟩ := exists_of_mem_right hpairs hx
      rw [hnew, howner]
      exact hmovable.target move hmove
    · obtain ⟨c, hc, hac⟩ := List.mem_flatMap.1 ha
      obtain ⟨i, hi⟩ := List.mem_iff_getElem?.1 hc
      obtain ⟨c', hc', hname, -⟩ := hextends.classes i c hi
      rw [hstay, (K.owner_and_kind hp hc hac).1, ← hname]
      exact List.mem_map_of_mem (List.mem_of_getElem? hc')
  · exact hextends.of_lineage
      ((lineage_apply hclasses _).trans (hopened.lineage.trans hsettled.lineage))

/-! ### References -/

namespace Arrived

variable {r : Renaming}

/-- What arrives is private only if it was, and stays private unless it is opened. -/
theorem isPrivate_of_arrives {a a' : α} (h : K.Arrives r opened a a') :
    (K.isPrivate a' = true → K.isPrivate a = true) ∧
      (K.isPrivate a' = K.isPrivate a ∨ opened (K.key a)) := by
  obtain ⟨-, b, ⟨-, hprivate, heq⟩, rfl⟩ := h
  have hsame : ∀ owner, K.isPrivate (K.renamed r owner b) = K.isPrivate b := fun owner => by
    rw [isPrivate, K.access_renamed, isPrivate]
  rw [hsame]
  exact ⟨hprivate, heq⟩

/-- The new codebase declares what the old one did. -/
theorem kept (h : K.Arrived r opened p p') (hp : p.Sound) : ∀ d ∈ p.declarations,
    isMethod d.1 = K.areMethods →
    ∃ b, (r.onMember d.1, b) ∈ p'.declarations ∧ (b = true → d.2 = true) := by
  intro d hd hkind
  obtain ⟨a, ha, rfl⟩ := (K.mem_declarations_iff hp d).1 ⟨hd, hkind⟩
  obtain ⟨a', ha', harrives⟩ := h.arrived a ha
  refine ⟨K.isPrivate a', ?_, (isPrivate_of_arrives harrives).1⟩
  rw [← harrives.1]
  exact ((K.mem_declarations_iff h.sound _).2 ⟨a', ha', rfl⟩).1

/-- The new codebase declares nothing else. -/
theorem stems (h : K.Arrived r opened p p') (hp : p.Sound) : ∀ d' ∈ p'.declarations,
    isMethod d'.1 = K.areMethods →
    ∃ d ∈ p.declarations, r.onMember d.1 = d'.1 ∧ (d'.2 = d.2 ∨ opened d.1) := by
  intro d' hd' hkind
  obtain ⟨a', ha', rfl⟩ := (K.mem_declarations_iff h.sound d').1 ⟨hd', hkind⟩
  obtain ⟨a, ha, harrives⟩ := h.origin a' ha'
  exact ⟨_, ((K.mem_declarations_iff hp _).2 ⟨a, ha, rfl⟩).1, harrives.1.symm,
    (isPrivate_of_arrives harrives).2⟩

end Arrived

end Part

end Unscramble.Naming
