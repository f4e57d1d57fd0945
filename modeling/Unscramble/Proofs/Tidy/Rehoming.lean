import Unscramble.Proofs.Tidy.Fingerprint
import Unscramble.Proofs.Tidy.StaticMethods

/-! # How methods come to rest

Each pass that moves static methods brings called ones closer to where they rest. A method without
uncalled equals goes to the holder; once there are some in one class it belongs to that class, and
once there are some in more than one it belongs to the holder for good. Since methods that are equal
stay equal, and uncalled ones stay where they are, no step of this is ever taken back.

Main definitions: `restlessness`, `unrest`, `Rearranged`, `Orderly`. Main statements:
`restlessness_of_subset`, `Rearranged.unrestOf_add_le`, `Orderly.exists_rearranged`. -/

namespace Unscramble.Tidy

open Naming

/-! ### Restlessness -/

/-- How often a called method can move still, by the classes with uncalled methods of its
fingerprint and the class that it is in. -/
def restlessness (holder : String) (owners : List String) (owner : String) : Nat :=
  2 - owners.length + if owner = destination holder owners then 0 else 1

/-- A method can move three times at most. -/
theorem restlessness_le (holder : String) (owners : List String) (owner : String) :
    restlessness holder owners owner ≤ 3 := by
  rw [restlessness]
  split <;> omega

section

variable {holder owner owner' : String} {owners owners' : List String}

/-- More classes with uncalled methods make no other destination unless a method has fewer left. -/
theorem destination_of_subset (hnodup : owners.Nodup) (hsub : owners ⊆ owners')
    (hlength : 2 - owners'.length = 2 - owners.length) :
    destination holder owners' = destination holder owners := by
  have hle := (hnodup.subperm hsub).length_le
  match owners, owners', hsub with
  | [], [], _ => rfl
  | [], _ :: _, _ =>
    simp at hlength
    omega
  | [a], [], _ => simp at hle
  | [a], [b], hsub => rw [List.mem_singleton.1 (hsub List.mem_cons_self)]
  | [a], _ :: _ :: _, _ =>
    simp at hlength
  | _ :: _ :: _, [], _ => simp at hle
  | _ :: _ :: _, [_], _ => simp at hle
  | _ :: _ :: _, _ :: _ :: _, _ => rfl

/-- A method that moves where it belongs is less restless afterwards, and one that stays is no more
restless. -/
theorem restlessness_of_subset (hnodup : owners.Nodup) (hsub : owners ⊆ owners')
    (hmove : owner' = owner ∨ owner' = destination holder owners) :
    restlessness holder owners' owner' + (if owner' = owner then 0 else 1) ≤
      restlessness holder owners owner := by
  have hle := (hnodup.subperm hsub).length_le
  by_cases hlength : 2 - owners'.length = 2 - owners.length
  · -- the destination is the same, and what moves has arrived
    rw [restlessness, restlessness, destination_of_subset hnodup hsub hlength, hlength]
    rcases hmove with rfl | rfl
    · rw [if_pos rfl, Nat.add_zero]
    · rw [if_pos rfl, Nat.add_zero]
      simp only [eq_comm, le_refl]
  · -- the destination may be another one, but there are fewer left
    have hat : ∀ owners owner, restlessness holder owners owner ≤ 2 - owners.length + 1 := by
      intro owners owner
      rw [restlessness]
      split <;> omega
    have hafter := hat owners' owner'
    rcases hmove with rfl | rfl
    · rw [if_pos rfl, restlessness.eq_def holder owners]
      omega
    · rw [restlessness.eq_def holder owners]
      by_cases hthere : destination holder owners = owner
      · rw [if_pos hthere, if_pos hthere.symm]
        omega
      · rw [if_neg hthere, if_neg (Ne.symm hthere)]
        omega

end

/-- Whether a method may be moved: it is static with a generated name, and something calls a method
of its name. -/
def isRestless (p : Codebase) (m : Method) : Bool :=
  m.isStatic && isGenerated methodStem m.name && (calledNames p).contains m.name

/-- How often a method can move still. -/
def unrestOf (holder : String) (p : Codebase) (m : Method) : Nat :=
  match m.body with
  | some b =>
    if isRestless p m then restlessness holder (homes p (fingerprint m b)) m.owner else 0
  | none => 0

/-- How often the methods of a codebase can move still. -/
def unrest (holder : String) (p : Codebase) : Nat :=
  (p.methods.map (unrestOf holder p)).sum

/-- The methods of a codebase can move three times each at most. -/
theorem unrest_le (holder : String) (p : Codebase) : unrest holder p ≤ 3 * p.methods.length := by
  have hone : ∀ k ∈ p.methods.map (unrestOf holder p), k ≤ 3 := by
    intro k hk
    obtain ⟨m, -, rfl⟩ := List.mem_map.1 hk
    rw [unrestOf.eq_def]
    split
    · split
      · exact restlessness_le _ _ _
      · exact Nat.zero_le 3
    · exact Nat.zero_le 3
  have hsum := List.sum_le_card_nsmul _ 3 hone
  rwa [List.length_map, smul_eq_mul, Nat.mul_comm] at hsum

/-! ### Images -/

/-- A method and what becomes of it when it moves to the class that it belongs to. -/
structure Image (home : Member → String) (r : Renaming) (m m' : Method) : Prop where
  /-- It belongs to a class. -/
  owner : m'.owner = home m.key
  /-- It keeps its name. -/
  name : m'.name = m.name
  /-- It keeps its type. -/
  descriptor : m'.descriptor = m.descriptor
  /-- It stays static. -/
  static : m'.isStatic = m.isStatic
  /-- It keeps its access if nothing of its name and type moves. -/
  access : (∀ owner, home (m.key.withOwner owner) = owner) → m'.access = m.access
  /-- Its body gets the new references. -/
  body : m'.body = m.body.map r.onBody

/-- A codebase and what moves of methods make of it. -/
structure Rearranged (home : Member → String) (r : Renaming) (p p' : Codebase) : Prop where
  /-- Every method has one image. -/
  images : ∃ ms, ms.Perm p.methods ∧ List.Forall₂ (Image home r) ms p'.methods
  /-- What stays in its class stays in a class of its kind. -/
  stays : ∀ c ∈ p.classes, ∀ m ∈ c.methods, home m.key = c.name →
    ∃ c' ∈ p'.classes, c'.isInterface = c.isInterface ∧ ∃ m' ∈ c'.methods, Image home r m m'

/-- A codebase whose moving methods have legible names, so that their fingerprints tell what they
do. -/
structure Orderly (holder : String) (p : Codebase) : Prop where
  /-- The declarations are told by their references. -/
  sound : p.Sound
  /-- The methods of a class differ in name or descriptor. -/
  distinct : ∀ c ∈ p.classes, (c.methods.map fun m => (m.name, m.descriptor)).Nodup
  /-- Listings link each instruction once. -/
  bodies : ∀ b ∈ p.bodies, b.listing.handles.Nodup
  /-- The holder has a legible name. -/
  holder : isLegibleClass holder = true
  /-- Static methods with generated names have legible classes. -/
  owners : ∀ m ∈ p.methods, m.isStatic = true → isGenerated methodStem m.name = true →
    isLegibleClass m.owner = true
  /-- Their bodies have legible names in them. -/
  plain : ∀ m ∈ p.methods, m.isStatic = true → isGenerated methodStem m.name = true →
    ∀ b ∈ m.body, Plain m.descriptor b

/-- New references that keep names and types and stay legible. -/
structure Gentle (r : Renaming) : Prop where
  /-- No class gets a new name. -/
  classes : r.classes = ∅
  /-- A member keeps its name. -/
  name : ∀ m, (r.onMember m).name = m.name
  /-- A member keeps its type. -/
  descriptor : ∀ m, (r.onMember m).descriptor = m.descriptor
  /-- Legible references stay so. -/
  clear : ∀ m, isClear m = true → isClear (r.onMember m) = true

section

variable {holder : String} {home : Member → String} {r : Renaming} {p p' : Codebase}
  {m m' : Method}

/-- The reference to an image is that of the method in its class. -/
theorem Image.key (h : Image home r m m') : m'.key = m.key.withOwner (home m.key) := by
  rw [Method.key, h.owner, h.name, h.descriptor]
  rfl

/-- Every method has an image. -/
theorem Rearranged.exists_image (h : Rearranged home r p p') (hm : m ∈ p.methods) :
    ∃ m' ∈ p'.methods, Image home r m m' := by
  obtain ⟨ms, hperm, himages⟩ := h.images
  exact exists_of_mem_left himages (hperm.mem_iff.2 hm)

/-- Every method is the image of one. -/
theorem Rearranged.exists_origin (h : Rearranged home r p p') (hm' : m' ∈ p'.methods) :
    ∃ m ∈ p.methods, Image home r m m' := by
  obtain ⟨ms, hperm, himages⟩ := h.images
  obtain ⟨m, hm, himage⟩ := exists_of_mem_right himages hm'
  exact ⟨m, hperm.mem_iff.1 hm, himage⟩

/-- A new reference does not change which name an instruction calls. -/
theorem calledName?_onInstruction (hr : Gentle r) (i : Instruction Label) :
    calledName? (r.onInstruction i) = calledName? i := by
  cases i with
  | invoke op m viaInterface => exact congrArg some (hr.name m)
  | push c =>
    cases c with
    | methodHandle kind m viaInterface => exact congrArg some (hr.name m)
    | _ => rfl
  | _ => rfl

/-- The bodies are those of the codebase with their new references. -/
theorem Rearranged.mem_bodies_iff (h : Rearranged home r p p') {b' : Body} :
    b' ∈ p'.bodies ↔ ∃ b ∈ p.bodies, b' = r.onBody b := by
  rw [Codebase.bodies, List.mem_filterMap]
  constructor
  · rintro ⟨m', hm', hb'⟩
    obtain ⟨m, hm, himage⟩ := h.exists_origin hm'
    rw [himage.body] at hb'
    obtain ⟨b, hb, rfl⟩ := Option.map_eq_some_iff.1 hb'
    exact ⟨b, List.mem_filterMap.2 ⟨m, hm, hb⟩, rfl⟩
  · rintro ⟨b, hb, rfl⟩
    obtain ⟨m, hm, hb⟩ := List.mem_filterMap.1 hb
    obtain ⟨m', hm', himage⟩ := h.exists_image hm
    have hb : m.body = some b := hb
    exact ⟨m', hm', by rw [himage.body, hb]; rfl⟩

/-- The same names are called. -/
theorem Rearranged.contains_calledNames (h : Rearranged home r p p') (hr : Gentle r)
    (hbodies : ∀ b ∈ p.bodies, b.listing.handles.Nodup) (name : String) :
    (calledNames p').contains name = (calledNames p).contains name := by
  rw [Bool.eq_iff_iff, Std.HashSet.contains_iff_mem, Std.HashSet.contains_iff_mem, mem_calledNames,
    mem_calledNames]
  constructor
  · rintro ⟨b', hb', i', hi', hname⟩
    obtain ⟨b, hb, rfl⟩ := h.mem_bodies_iff.1 hb'
    have hi' : i' ∈ (r.onListing b.listing).instructions := hi'
    rw [r.instructions_onListing (hbodies b hb)] at hi'
    obtain ⟨i, hi, rfl⟩ := List.mem_map.1 hi'
    exact ⟨b, hb, i, hi, (calledName?_onInstruction hr i).symm.trans hname⟩
  · rintro ⟨b, hb, i, hi, hname⟩
    refine ⟨_, h.mem_bodies_iff.2 ⟨b, hb, rfl⟩, r.onInstruction i, ?_,
      (calledName?_onInstruction hr i).trans hname⟩
    show _ ∈ (r.onListing b.listing).instructions
    rw [r.instructions_onListing (hbodies b hb)]
    exact List.mem_map_of_mem hi

/-- A method is restless if its image is. -/
theorem Rearranged.isRestless_eq (h : Rearranged home r p p') (hr : Gentle r)
    (hp : Orderly holder p) (himage : Image home r m m') : isRestless p' m' = isRestless p m := by
  rw [isRestless, isRestless, himage.static, himage.name, h.contains_calledNames hr hp.bodies]

/-- Classes with uncalled methods of a fingerprint keep them. -/
theorem Rearranged.homes_subset (h : Rearranged home r p p') (hr : Gentle r)
    (hp : Orderly holder p)
    (hstays : ∀ d ∈ p.methods, (calledNames p).contains d.name = false → home d.key = d.owner)
    (hm : m ∈ p.methods) (hstatic : m.isStatic = true)
    (hname : isGenerated methodStem m.name = true) {b : Body} (hb : m.body = some b)
    (himage : Image home r m m') :
    homes p (fingerprint m b) ⊆ homes p' (fingerprint m' (r.onBody b)) := by
  intro owner howner
  obtain ⟨s, hs, huncalled, htext, rfl⟩ := mem_homes.1 howner
  -- The uncalled method stays where it is, is still uncalled, and its fingerprint has changed as
  -- the other one has.
  obtain ⟨c, hc, hclass, d, hd, hdstatic, hdname, bd, hbd, rfl⟩ := mem_staticMethods.1 hs
  have hdmem : d ∈ p.methods := List.mem_flatMap.2 ⟨c, hc, hd⟩
  have hhome : home d.key = d.owner := hstays d hdmem huncalled
  have hdowner : d.owner = c.name := (Part.ofMethods.owner_and_kind hp.sound hc hd).1
  obtain ⟨c', hc', hinterface, d', hd', hdimage⟩ := h.stays c hc d hd (hhome.trans hdowner)
  refine mem_homes.2 ⟨_, mem_staticMethods.2 ⟨c', hc', hinterface.trans hclass, d', hd',
    hdimage.static.trans hdstatic, by rw [hdimage.name]; exact hdname, r.onBody bd, ?_, rfl⟩,
    ?_, ?_, ?_⟩
  · rw [hdimage.body, hbd]
    rfl
  · show (calledNames p').contains d'.name = false
    rw [hdimage.name, h.contains_calledNames hr hp.bodies]
    exact huncalled
  · exact (hp.plain d hdmem hdstatic hdname bd hbd).fingerprint_onBody hr.classes
      (hp.plain m hm hstatic hname b hb) hdimage.descriptor himage.descriptor hr.clear htext
  · exact hdimage.owner.trans hhome

/-- No method becomes more restless, and one that moves where it belongs becomes less so. -/
theorem Rearranged.unrestOf_add_le (h : Rearranged home r p p') (hr : Gentle r)
    (hp : Orderly holder p)
    (hhome : ∀ d ∈ p.methods, home d.key = d.owner ∨ isRestless p d = true ∧
      ∃ b, d.body = some b ∧ home d.key = destination holder (homes p (fingerprint d b)))
    (hm : m ∈ p.methods) (himage : Image home r m m') :
    unrestOf holder p' m' + (if home m.key = m.owner then 0 else 1) ≤ unrestOf holder p m := by
  -- An uncalled method is not restless, so it stays.
  have hstays : ∀ d ∈ p.methods, (calledNames p).contains d.name = false →
      home d.key = d.owner := by
    intro d hd huncalled
    refine (hhome d hd).resolve_right fun ⟨hrestless, _⟩ => ?_
    rw [isRestless, huncalled, Bool.and_false] at hrestless
    cases hrestless
  rw [unrestOf, unrestOf, himage.body, h.isRestless_eq hr hp himage]
  cases hb : m.body with
  | none =>
    have hself : home m.key = m.owner := (hhome m hm).resolve_right fun ⟨_, b, hb', _⟩ => by
      rw [hb] at hb'
      cases hb'
    rw [if_pos hself]
    exact Nat.le_refl _
  | some b =>
    simp only [Option.map_some]
    -- A restless method has fewer homes to go to or has gone to its own; one that is at rest stays
    -- so.
    by_cases hrestless : isRestless p m = true
    · rw [if_pos hrestless, if_pos hrestless, himage.owner]
      obtain ⟨hstatic, hname⟩ := Bool.and_eq_true_iff.1 (Bool.and_eq_true_iff.1 hrestless).1
      refine restlessness_of_subset (nodup_homes _ _)
        (h.homes_subset hr hp hstays hm hstatic hname hb himage) ((hhome m hm).imp_right ?_)
      rintro ⟨-, b', hb', htarget⟩
      rw [hb] at hb'
      cases hb'
      exact htarget
    · have hself : home m.key = m.owner :=
        (hhome m hm).resolve_right fun ⟨hrestless', _⟩ => hrestless hrestless'
      rw [if_neg hrestless, if_neg hrestless, if_pos hself]

end

/-! ### What a pass of moves makes of a codebase -/

/-- What is static stays so when it becomes public. -/
theorem contains_staticFlag_publish (a : Access) :
    a.publish.contains .staticFlag = a.contains .staticFlag := by
  have hbits : a.publish.bits &&& Access.staticFlag.bits = a.bits &&& Access.staticFlag.bits := by
    rw [← UInt16.toBitVec_inj]
    change ((a.bits.toBitVec &&& ~~~7#16) ||| 1#16) &&& 8#16 = a.bits.toBitVec &&& 8#16
    rw [BitVec.and_comm, BitVec.and_or_distrib_left, BitVec.and_comm a.bits.toBitVec,
      ← BitVec.and_assoc, BitVec.and_comm a.bits.toBitVec]
    simp
  rw [Access.contains, hbits, Access.contains]

/-- The class that a method is in after the planned moves. -/
def newHome (holder : String) (p : Codebase) (m : Member) : String :=
  (((plannedMoves holder p).find? fun move => move.1 == m).map (·.2)).getD m.owner

section

variable {holder : String} {p q : Codebase} {m : Member} {move : Move}

/-- What is planned to move has its new home where it moves. -/
theorem newHome_of_mem (hmove : move ∈ plannedMoves holder p) :
    newHome holder p move.1 = move.2 := by
  have hsome : ((plannedMoves holder p).find? fun x => x.1 == move.1).isSome = true :=
    List.find?_isSome.2 ⟨move, hmove, beq_self_eq_true move.1⟩
  obtain ⟨found, hfound⟩ := Option.isSome_iff_exists.1 hsome
  have hkey : found.1 = move.1 := by simpa using List.find?_some hfound
  have heq : found = move := List.inj_on_of_nodup_map (plannedMoves_spec holder p).nodup
    (List.mem_of_find?_eq_some hfound) hmove hkey
  rw [newHome, hfound, heq]
  rfl

/-- A method stays at home or is planned to move. -/
theorem newHome_cases (holder : String) (p : Codebase) (m : Member) :
    newHome holder p m = m.owner ∨ (m, newHome holder p m) ∈ plannedMoves holder p := by
  rw [newHome]
  cases hfound : (plannedMoves holder p).find? fun move => move.1 == m with
  | none => exact .inl rfl
  | some move =>
    have hkey : move.1 = m := by simpa using List.find?_some hfound
    exact .inr (hkey ▸ List.mem_of_find?_eq_some hfound)

/-- What is not planned to move stays at home. -/
theorem newHome_of_not_mem (hm : m ∉ (plannedMoves holder p).map (·.1)) :
    newHome holder p m = m.owner :=
  (newHome_cases holder p m).resolve_right fun h => hm (List.mem_map_of_mem (f := (·.1)) h)

/-- Methods of different references are in different places after the moves. -/
theorem withOwner_newHome_inj {a b : Method} (ha : a ∈ p.methods) (hb : b ∈ p.methods)
    (heq : a.key.withOwner (newHome holder p a.key) = b.key.withOwner (newHome holder p b.key)) :
    a.key = b.key := by
  obtain ⟨-, -, hapart, -, hfree, -⟩ := plannedMoves_spec holder p
  -- a method does not move to where another one stays
  have hstays : ∀ a ∈ p.methods, ∀ b : Method,
      a.key.withOwner (newHome holder p a.key) = b.key.withOwner (newHome holder p b.key) →
      newHome holder p a.key = a.owner → newHome holder p b.key = b.owner := by
    intro a ha b heq hself
    refine (newHome_cases holder p b.key).resolve_right fun hmove => ?_
    refine hfree _ hmove a ha (Eq.trans ?_ heq)
    rw [hself]
    rfl
  rcases newHome_cases holder p a.key with hself | hmove
  · have hself' := hstays a ha b heq hself
    rw [hself] at heq
    rw [hself'] at heq
    exact heq
  · rcases newHome_cases holder p b.key with hself | hmove'
    · have hself' := hstays b hb a heq.symm hself
      rw [hself] at heq
      rw [hself'] at heq
      exact heq
    · exact congrArg Prod.fst (List.inj_on_of_nodup_map hapart hmove hmove' heq)

/-- Where a method moves is where it belongs. -/
theorem newHome_eq_destination (hkeys : (p.methods.map Method.key).Nodup) {d : Method}
    (hd : d ∈ p.methods) : newHome holder p d.key = d.owner ∨ isRestless p d = true ∧
      ∃ b, d.body = some b ∧
        newHome holder p d.key = destination holder (homes p (fingerprint d b)) := by
  refine (newHome_cases holder p d.key).imp_right fun hmove => ?_
  obtain ⟨s, hs, hkey, hbound⟩ := exists_isBound ((plannedMoves_spec holder p).planned _ hmove)
  have hcalled := hbound.called
  have htarget := hbound.eq_destination
  obtain ⟨c, hc, -, d', hd', hstatic, hname, b, hb, rfl⟩ := mem_staticMethods.1 hs
  have hsame : d' = d := List.inj_on_of_nodup_map hkeys (List.mem_flatMap.2 ⟨c, hc, hd'⟩) hd hkey
  subst hsame
  refine ⟨?_, b, hb, htarget⟩
  have hcalled : (calledNames p).contains d'.name = true := hcalled
  rw [isRestless, hstatic, hname, hcalled]
  rfl

/-- A method that nothing calls stays. -/
theorem newHome_of_uncalled (hkeys : (p.methods.map Method.key).Nodup) {d : Method}
    (hd : d ∈ p.methods) (huncalled : (calledNames p).contains d.name = false) :
    newHome holder p d.key = d.owner := by
  refine (newHome_eq_destination hkeys hd).resolve_right fun ⟨hrestless, _⟩ => ?_
  rw [isRestless, huncalled, Bool.and_false] at hrestless
  cases hrestless

/-- The new references are those of the classes that methods move to. -/
theorem onMember_methodNames (holder : String) (p : Codebase) (m : Member) :
    (methodNames holder p).onMember m = m ∨ ∃ move ∈ plannedMoves holder p,
      move.1.name = m.name ∧ move.1.descriptor = m.descriptor ∧
        (methodNames holder p).onMember m = m.withOwner move.2 := by
  rw [Renaming.onMember_ofFamilies]
  cases hfound : (newReferences holder p).reverse.find? fun x =>
      decide (m ∈ (Families.ofCodebase p).linked x.1) with
  | none => exact .inl rfl
  | some x =>
    have hlinked : m ∈ (Families.ofCodebase p).linked x.1 := by
      simpa using List.find?_some hfound
    obtain ⟨move, hmove, rfl⟩ := List.mem_map.1
      (List.mem_reverse.1 (List.mem_of_find?_eq_some hfound))
    have hsame : m.name = move.1.name ∧ m.descriptor = move.1.descriptor := by
      cases hfamily : (Families.ofCodebase p).family? move.1 with
      | none =>
        rw [Families.linked, movedTo, hfamily] at hlinked
        rw [List.mem_singleton.1 hlinked]
        exact ⟨rfl, rfl⟩
      | some φ =>
        exact Families.eq_of_family?_eq ((Families.mem_linked_iff hfamily).1 hlinked) hfamily
    refine .inr ⟨move, hmove, hsame.1.symm, hsame.2.symm, ?_⟩
    show move.1.withOwner move.2 = m.withOwner move.2
    rw [Member.withOwner, Member.withOwner, hsame.1, hsame.2]

/-- What moves goes to a class of a legible name. -/
theorem Orderly.isLegibleClass_target (h : Orderly holder p)
    (hmove : move ∈ plannedMoves holder p) : isLegibleClass move.2 = true := by
  obtain ⟨-, -, htarget⟩ := of_getElem?_methodPlan ((plannedMoves_spec holder p).planned move hmove)
  rcases htarget with htarget | ⟨s, hs, howner⟩
  · exact htarget ▸ h.holder
  · obtain ⟨d, hd, hkey, hstatic, hname⟩ := of_mem_staticMethods hs
    rw [← howner, hkey]
    exact h.owners d hd hstatic hname

/-- The new references are gentle. -/
theorem Orderly.gentle (h : Orderly holder p) : Gentle (methodNames holder p) where
  classes := Renaming.classes_ofFamilies _
  name m := by
    rcases onMember_methodNames holder p m with heq | ⟨move, -, -, -, heq⟩ <;> rw [heq]
    rfl
  descriptor m := by
    rcases onMember_methodNames holder p m with heq | ⟨move, -, -, -, heq⟩ <;> rw [heq]
    rfl
  clear m hm := by
    rcases onMember_methodNames holder p m with heq | ⟨move, hmove, -, -, heq⟩ <;> rw [heq]
    · exact hm
    · obtain ⟨-, hname, hdescriptor⟩ := of_isClear hm
      show (isLegibleClass move.2 && isLegible m.name && isLegible m.descriptor) = true
      rw [h.isLegibleClass_target hmove, hname, hdescriptor]
      rfl

end

/-! ### Publishing -/

/-- A method of which the access may have changed, but not whether it is static. It has not changed
unless something of its name and type moves. -/
def Reopened (moves : List Move) (m m' : Method) : Prop :=
  ∃ a : Access, a.contains .staticFlag = m.access.contains .staticFlag ∧
    ((∀ move ∈ moves, m.isNamed move.1.name move.1.descriptor = false) → a = m.access) ∧
    m' = { m with access := a }

/-- Classes in which the access of methods may have changed. -/
def ReopenedIn (moves : List Move) (c c' : Class) : Prop :=
  c'.name = c.name ∧ c'.isInterface = c.isInterface ∧ c'.fields = c.fields ∧
    List.Forall₂ (Reopened moves) c.methods c'.methods

section

variable {moves : List Move}

/-- A method that does not change has not been opened. -/
theorem Reopened.refl (m : Method) : Reopened moves m m :=
  ⟨m.access, rfl, fun _ => rfl, rfl⟩

/-- A method that is opened in two steps is opened. -/
theorem Reopened.trans {m m' m'' : Method} (h : Reopened moves m m') (h' : Reopened moves m' m'') :
    Reopened moves m m'' := by
  obtain ⟨a, ha, hsame, rfl⟩ := h
  obtain ⟨a', ha', hsame', rfl⟩ := h'
  exact ⟨a', ha'.trans ha, fun hmoves => (hsame' hmoves).trans (hsame hmoves), rfl⟩

/-- A class that does not change has no method that is opened. -/
theorem ReopenedIn.refl (c : Class) : ReopenedIn moves c c :=
  ⟨rfl, rfl, rfl, List.forall₂_same.2 fun m _ => .refl m⟩

/-- A class whose methods are opened in two steps has them opened. -/
theorem ReopenedIn.trans {c c' c'' : Class} (h : ReopenedIn moves c c')
    (h' : ReopenedIn moves c' c'') : ReopenedIn moves c c'' :=
  ⟨h'.1.trans h.1, h'.2.1.trans h.2.1, h'.2.2.1.trans h.2.2.1,
    forall₂_trans (fun _ _ _ h h' => h.trans h') h.2.2.2 h'.2.2.2⟩

end

/-- Publishing moved methods reopens them. -/
theorem reopened_foldl_publishMoved (moves : List Move) (q : Codebase) :
    List.Forall₂ (ReopenedIn moves) q.classes (moves.foldl publishMoved q).classes := by
  have hall : ∀ made : List Move, made ⊆ moves → ∀ q : Codebase,
      List.Forall₂ (ReopenedIn moves) q.classes (made.foldl publishMoved q).classes := by
    intro made
    induction made with
    | nil => exact fun _ q => List.forall₂_same.2 fun c _ => .refl c
    | cons move made ih =>
      intro hsub q
      -- a method that becomes public has the name and type of the move
      have hopens : ∀ m : Method, m.isNamed move.1.name move.1.descriptor = true →
          Reopened moves m { m with access := m.access.publish } := fun m hnamed =>
        ⟨_, contains_staticFlag_publish m.access, fun hnone => absurd
          (hnamed.symm.trans (hnone move (hsub List.mem_cons_self))) Bool.true_eq_false_eq_False, rfl⟩
      have hfirst : List.Forall₂ (ReopenedIn moves) q.classes (publishMoved q move).classes :=
        forall₂_modifyFirst ReopenedIn.refl fun c _ => ⟨rfl, rfl, rfl,
          forall₂_modifyFirst Reopened.refl fun m hfound => hopens m (List.find?_some hfound)⟩
      exact forall₂_trans (fun c c' c'' h h' => h.trans h') hfirst
        (ih (fun move hmove => hsub (List.mem_cons_of_mem _ hmove)) (publishMoved q move))
  exact hall moves (List.Subset.refl moves) q

/-! ### One pass -/

namespace Orderly

variable {holder : String} {p q : Codebase}

/-- All methods have different references. -/
theorem keys (h : Orderly holder p) : (p.methods.map Method.key).Nodup :=
  Part.nodup_keys .ofMethods h.sound h.distinct

/-- The planned moves are all made and bring each method where it belongs. -/
theorem exists_settled (h : Orderly holder p) : ∃ q,
    relocate (withDestinations holder p) (plannedMoves holder p) =
      ([], .ok ((plannedMoves holder p).length, q)) ∧
    Part.ofMethods.Settled (newHome holder p) (withDestinations holder p) q := by
  obtain ⟨moves, hmovable, hpairs⟩ := exists_movable holder h.sound
  have hmoves : plannedMoves holder p = moves.map fun x => (Part.ofMethods.key x.1, x.2) := by
    refine eq_map_of_forall₂ ?_
    rw [newReferences, List.forall₂_map_right_iff] at hpairs
    exact hpairs.imp fun x move hmove => Prod.ext hmove.1 hmove.2
  have hall : Part.ofMethods.all (withDestinations holder p) = p.methods :=
    methods_withDestinations holder p
  have hkeys :
      ((Part.ofMethods.all (withDestinations holder p)).map Part.ofMethods.key).Nodup := by
    rw [hall]
    exact h.keys
  have hhome : ∀ x ∈ moves, newHome holder p (Part.ofMethods.key x.1) = x.2 := by
    intro x hx
    have hmove : (Part.ofMethods.key x.1, x.2) ∈ plannedMoves holder p := by
      rw [hmoves]
      exact List.mem_map_of_mem (f := fun x => (Part.ofMethods.key x.1, x.2)) hx
    exact newHome_of_mem hmove
  have hother : ∀ m ∈ Part.ofMethods.all (withDestinations holder p),
      Part.ofMethods.key m ∉ moves.map (fun x => Part.ofMethods.key x.1) →
      newHome holder p (Part.ofMethods.key m) = (Part.ofMethods.key m).owner := by
    intro m _ hm
    refine newHome_of_not_mem ?_
    rwa [hmoves, List.map_map]
  -- Methods that are planned go home, and all others are there.
  obtain ⟨q, hq, hsettled⟩ := Part.relocate_settles (sound_withDestinations holder h.sound) hkeys
    hmovable (newHome holder p) hhome hother
  refine ⟨q, ?_, hsettled⟩
  rw [hmoves, hq, List.length_map]

variable (hsettled : Part.ofMethods.Settled (newHome holder p) (withDestinations holder p) q)

include hsettled

/-- What a class has after the moves are the images of the methods that belong to it. -/
theorem images_onClass (h : Orderly holder p) {c c' : Class} (hc : c ∈ q.classes)
    (hreopened : ReopenedIn (plannedMoves holder p) c c') :
    List.Forall₂ (Image (newHome holder p) (methodNames holder p)) c.methods
      ((methodNames holder p).onClass c').methods := by
  have hr := h.gentle
  obtain ⟨hname, -, -, hmethods⟩ := hreopened
  show List.Forall₂ _ c.methods (c'.methods.map _)
  rw [List.forall₂_map_right_iff]
  refine forall₂_of_mem_left hmethods fun m hm m' hm' => ?_
  obtain ⟨a, ha, hsame, rfl⟩ := hm'
  refine ⟨?_, hr.name m.key, hr.descriptor m.key, ha, fun hstill => hsame fun move hmove => ?_, rfl⟩
  · calc (methodNames holder p).onClassName c'.name = c'.name := Renaming.onClassName_ofFamilies _ _
      _ = c.name := hname
      _ = newHome holder p m.key := ((hsettled.mem_iff c hc m).1 hm).2.symm
  -- a move of this name and type would be one that `hstill` rules out
  · rw [← Bool.not_eq_true, Method.isNamed, Bool.and_eq_true, beq_iff_eq, beq_iff_eq]
    rintro ⟨hname, hdescriptor⟩
    have hkey : m.key.withOwner move.1.owner = move.1 := by
      rw [Member.withOwner, Method.key]
      dsimp only
      rw [hname, hdescriptor]
    have hhome := hstill move.1.owner
    rw [hkey, newHome_of_mem hmove] at hhome
    exact (of_mem_plannedMoves hmove).2.1 hhome.symm

/-- The codebase after a pass is the one before it with its methods where they belong. -/
theorem rearranged (h : Orderly holder p) (hperm : q.methods.Perm p.methods) :
    Rearranged (newHome holder p) (methodNames holder p) p
      ((methodNames holder p).apply ((plannedMoves holder p).foldl publishMoved q)) where
  images := by
    refine ⟨q.methods, hperm, ?_⟩
    have hclasses : List.Forall₂ (fun c c' => List.Forall₂ (Image (newHome holder p)
        (methodNames holder p)) c.methods c'.methods) q.classes
        ((methodNames holder p).apply ((plannedMoves holder p).foldl publishMoved q)).classes := by
      rw [Renaming.apply, List.forall₂_map_right_iff]
      exact forall₂_of_mem_left (reopened_foldl_publishMoved _ q) fun c hc c' hreopened =>
        images_onClass hsettled h hc hreopened
    exact List.rel_flatMap hclasses fun _ _ h => h
  -- A class that keeps a method is among those that are rearranged, whether or not a holder was put
  -- in.
  stays c hc m hm hhome := by
    have hc₁ : c ∈ (withDestinations holder p).classes := by
      rcases withDestinations_cases holder p with heq | ⟨heq, -⟩ <;> rw [heq]
      · rcases ensureHolder_cases holder p with ⟨-, heq⟩ | ⟨-, heq⟩ <;> rw [heq]
        · exact hc
        · exact List.mem_append_left _ hc
      · exact hc
    obtain ⟨c₂, hc₂, hsame⟩ := hsettled.exists_class hc₁
    have hname := congrArg Class.name hsame
    have hinterface := congrArg Class.isInterface hsame
    change c₂.name = c.name at hname
    change c₂.isInterface = c.isInterface at hinterface
    have hmem : m ∈ c₂.methods := by
      refine (hsettled.mem_iff c₂ hc₂ m).2 ⟨?_, hhome.trans hname.symm⟩
      exact List.mem_flatMap.2 ⟨c, hc₁, hm⟩
    obtain ⟨c', hc', hreopened⟩ :=
      exists_of_mem_left (reopened_foldl_publishMoved (plannedMoves holder p) q) hc₂
    obtain ⟨m', hm', himage⟩ := exists_of_mem_left (images_onClass hsettled h hc₂ hreopened) hmem
    exact ⟨_, List.mem_map_of_mem hc', hreopened.2.1.trans hinterface, m', hm', himage⟩

/-- What a pass leaves is told by its references. -/
theorem sound_apply (h : Orderly holder p) (hperm : q.methods.Perm p.methods) :
    ((methodNames holder p).apply ((plannedMoves holder p).foldl publishMoved q)).Sound := by
  have hreopened := reopened_foldl_publishMoved (plannedMoves holder p) q
  have hnames : ((plannedMoves holder p).foldl publishMoved q).classes.map (·.name) =
      (withDestinations holder p).classes.map (·.name) := by
    rw [← hsettled.names]
    refine eq_map_of_forall₂ ?_
    rw [List.forall₂_map_right_iff]
    exact hreopened.imp fun c c' hc => hc.1
  refine Naming.sound_apply ?_ ?_ ?_ (Renaming.onClassName_ofFamilies _) h.gentle.descriptor
  · rw [hnames]
    exact (sound_withDestinations holder h.sound).distinct
  · intro f hf
    rw [fields_foldl_publishMoved, fields_of_settled hsettled, fields_withDestinations] at hf
    obtain ⟨c, hc, hf⟩ := List.mem_flatMap.1 hf
    exact (h.sound.kinds c hc).1 f hf
  · intro m' hm'
    obtain ⟨c', hc', hm'⟩ := List.mem_flatMap.1 hm'
    obtain ⟨c, hc, -, -, -, hmethods⟩ := exists_of_mem_right hreopened hc'
    obtain ⟨m, hm, a, -, -, rfl⟩ := exists_of_mem_right hmethods hm'
    have hmem : m ∈ p.methods := hperm.mem_iff.1 (List.mem_flatMap.2 ⟨c, hc, hm⟩)
    obtain ⟨d, hd, hm⟩ := List.mem_flatMap.1 hmem
    exact (h.sound.kinds d hd).2 m hm

/-- After a pass the methods of a class still differ in name or descriptor. -/
theorem distinct_apply (h : Orderly holder p) : ∀ c' ∈ ((methodNames holder p).apply
    ((plannedMoves holder p).foldl publishMoved q)).classes,
      (c'.methods.map fun m => (m.name, m.descriptor)).Nodup := by
  intro c' hc'
  obtain ⟨c₁, hc₁, rfl⟩ := List.mem_map.1 hc'
  obtain ⟨c, hc, hreopened⟩ := exists_of_mem_right (reopened_foldl_publishMoved _ q) hc₁
  have hsame : ((methodNames holder p).onClass c₁).methods.map (fun m => (m.name, m.descriptor)) =
      c.methods.map fun m => (m.name, m.descriptor) := by
    refine eq_map_of_forall₂ ?_
    rw [List.forall₂_map_right_iff]
    exact (images_onClass hsettled h hc hreopened).imp fun m m' himage =>
      Prod.ext himage.name himage.descriptor
  rw [hsame]
  have hmem : ∀ m ∈ c.methods, m ∈ p.methods ∧ newHome holder p m.key = c.name := by
    intro m hm
    have hm := (hsettled.mem_iff c hc m).1 hm
    exact ⟨methods_withDestinations holder p ▸ hm.1, hm.2⟩
  -- Two methods of a class have homes there, so new references that agree come from one method.
  refine (hsettled.nodup c hc).of_map.map_on fun a ha b hb heq => ?_
  obtain ⟨hname, hdescriptor⟩ := Prod.mk.inj heq
  have hplace : a.key.withOwner (newHome holder p a.key) =
      b.key.withOwner (newHome holder p b.key) := by
    rw [(hmem a ha).2, (hmem b hb).2]
    show Member.mk c.name a.name a.descriptor = Member.mk c.name b.name b.descriptor
    rw [hname, hdescriptor]
  exact List.inj_on_of_nodup_map h.keys (hmem a ha).1 (hmem b hb).1
    (withOwner_newHome_inj (hmem a ha).1 (hmem b hb).1 hplace)

omit hsettled

/-- The class that a method is in after a pass has a legible name. -/
theorem isLegibleClass_newHome (h : Orderly holder p) {m : Method} (hm : m ∈ p.methods)
    (hstatic : m.isStatic = true) (hname : isGenerated methodStem m.name = true) :
    isLegibleClass (newHome holder p m.key) = true := by
  rcases newHome_cases holder p m.key with hself | hmove
  · rw [hself]
    exact h.owners m hm hstatic hname
  · have htarget := h.isLegibleClass_target hmove
    exact htarget

/-- What a pass leaves is orderly again. -/
theorem of_rearranged (h : Orderly holder p) {p' : Codebase}
    (harranged : Rearranged (newHome holder p) (methodNames holder p) p p') (hsound : p'.Sound)
    (hdistinct : ∀ c ∈ p'.classes, (c.methods.map fun m => (m.name, m.descriptor)).Nodup) :
    Orderly holder p' := by
  have hr := h.gentle
  -- Every method comes from one that it is the image of, and images are as legible and as plain.
  refine ⟨hsound, hdistinct, ?_, h.holder, ?_, ?_⟩
  · intro b' hb'
    obtain ⟨b, hb, rfl⟩ := harranged.mem_bodies_iff.1 hb'
    have hhandles : ((methodNames holder p).onListing b.listing).handles = b.listing.handles :=
      Listing.handles_foldl_modify ..
    exact hhandles ▸ h.bodies b hb
  · intro m' hm' hstatic hname
    obtain ⟨m, hm, himage⟩ := harranged.exists_origin hm'
    rw [himage.static] at hstatic
    rw [himage.name] at hname
    rw [himage.owner]
    exact h.isLegibleClass_newHome hm hstatic hname
  · intro m' hm' hstatic hname b' hb'
    obtain ⟨m, hm, himage⟩ := harranged.exists_origin hm'
    rw [himage.static] at hstatic
    rw [himage.name] at hname
    rw [himage.body] at hb'
    obtain ⟨b, hb, rfl⟩ := Option.map_eq_some_iff.1 hb'
    rw [himage.descriptor]
    exact (h.plain m hm hstatic hname b hb).onBody hr.classes hr.clear

/-- Fields stay where they are, as accessible as they were. -/
theorem fields_apply (h : Orderly holder p)
    (hsettled : Part.ofMethods.Settled (newHome holder p) (withDestinations holder p) q) :
    (((methodNames holder p).apply ((plannedMoves holder p).foldl publishMoved q)).fields.map
      fun f => (f.key, f.access)) = p.fields.map fun f => (f.key, f.access) := by
  have hr := h.gentle
  -- Each class has its fields before and after the moves, and a field names its class.
  have hmoved : q.classes.map (fun c => (c.name, c.fields)) =
      (withDestinations holder p).classes.map fun c => (c.name, c.fields) := by
    have hrest := congrArg (List.map fun c : Class => (c.name, c.fields)) hsettled.rest
    rw [List.map_map, List.map_map] at hrest
    exact hrest
  have hpublished : ((plannedMoves holder p).foldl publishMoved q).classes.map
      (fun c => (c.name, c.fields)) = q.classes.map fun c => (c.name, c.fields) := by
    refine eq_map_of_forall₂ ?_
    rw [List.forall₂_map_right_iff]
    exact (reopened_foldl_publishMoved (plannedMoves holder p) q).imp fun c c' hc =>
      Prod.ext hc.1 hc.2.2.1
  have hafter : (((methodNames holder p).apply
      ((plannedMoves holder p).foldl publishMoved q)).fields.map fun f => (f.key, f.access)) =
        (((plannedMoves holder p).foldl publishMoved q).classes.map fun c =>
          (c.name, c.fields)).flatMap fun x => x.2.map fun f =>
            (Member.mk x.1 f.name f.descriptor, f.access) := by
    rw [Codebase.fields, Renaming.apply, List.flatMap_map, List.flatMap_map, List.map_flatMap]
    refine List.flatMap_congr fun c _ => ?_
    show (c.fields.map _).map _ = _
    rw [List.map_map]
    refine List.map_congr_left fun f _ => ?_
    have hclass : (methodNames holder p).onClassName c.name = c.name :=
      Renaming.onClassName_ofFamilies _ _
    show (Member.mk ((methodNames holder p).onClassName c.name)
      ((methodNames holder p).onMember f.key).name ((methodNames holder p).onMember f.key).descriptor,
      f.access) = _
    rw [hclass, hr.name, hr.descriptor]
    rfl
  rw [hafter, hpublished, hmoved, ← fields_withDestinations holder p, Codebase.fields,
    List.flatMap_map, List.map_flatMap]
  refine List.flatMap_congr fun c hc => List.map_congr_left fun f hf => ?_
  have howner : f.owner = c.name := (Part.ofFields.owner_and_kind
    (sound_withDestinations holder h.sound) hc hf).1
  rw [Field.key, howner]

/-- **A pass over an orderly codebase** makes all planned moves and leaves it orderly. -/
theorem exists_rearranged (h : Orderly holder p) (hplan : (methodPlan holder p).isEmpty = false) :
    ∃ p', moveStaticMethods holder p =
        { result := .ok (plannedMoves holder p).length, codebase := p' } ∧ Orderly holder p' ∧
      Rearranged (newHome holder p) (methodNames holder p) p p' ∧
      (p'.fields.map fun f => (f.key, f.access)) = p.fields.map fun f => (f.key, f.access) := by
  obtain ⟨q, hq, hsettled⟩ := h.exists_settled
  have hperm : q.methods.Perm p.methods := by
    have hmethods := (relocate_perm (congrArg Prod.snd hq)).1
    rwa [methods_withDestinations] at hmethods
  have harranged := rearranged hsettled h hperm
  exact ⟨_, moveStaticMethods_eq hplan hq,
    h.of_rearranged harranged (sound_apply hsettled h hperm) (distinct_apply hsettled h), harranged,
    h.fields_apply hsettled⟩

end Orderly

end Unscramble.Tidy
