import Unscramble.Proofs.Tidy.Rehoming

/-! # Methods that wait for each other

Where a called method belongs, and whether it works there, depends on the members that its body refers
to and on the methods of its own name and type. So a method that moves in one pass, but could not move
or belonged somewhere else in the pass before, has waited for such a member to move. As many passes
move something as methods wait for each other in a chain, in which no method stands more often than it
can move.

Main definitions: `IsStill`, `Concerns`, `WaitingChain`. Main statements: `declaredAccess?_of_isStill`,
`Orderly.exists_cause`, `Orderly.exists_waitingChain_cons`, `WaitingChain.length_le_unrest`. -/

namespace Unscramble

open Naming

variable {p p' : Codebase} {holder : String} {k : Member} {m m' : Method}

/-! ### The access of declarations -/

namespace Naming.Part

variable {α : Type} (K : Part α)

/-- In a sound codebase the class that a reference names is the only one that can declare it. -/
theorem find?_all (hp : p.Sound) (k : Member) : (K.all p).find? (fun a => K.key a == k) =
    (p.class? k.owner).bind fun c => (K.items c).find? (K.isNamed k) := by
  have howners : ∀ c ∈ p.classes, ∀ a ∈ K.items c, (K.key a).owner = c.name :=
    fun c hc a ha => (K.owner_and_kind hp hc ha).1
  have hdistinct := hp.distinct
  rw [all, Codebase.class?]
  generalize p.classes = cs at howners hdistinct
  induction cs with
  | nil => rfl
  | cons c cs ih =>
    obtain ⟨hfirst, hrest⟩ := List.forall_mem_cons.1 howners
    rw [List.map_cons, List.nodup_cons] at hdistinct
    rw [List.flatMap_cons, List.find?_append, ih hrest hdistinct.2, List.find?_cons]
    by_cases hname : c.name = k.owner
    -- the class of this name comes first, and no later one has it
    · have hlater : cs.find? (·.name == k.owner) = none := by
        rw [List.find?_eq_none]
        intro d hd hdname
        refine hdistinct.1 (hname.trans (beq_iff_eq.1 hdname).symm ▸ List.mem_map_of_mem hd)
      have hsame : (K.items c).find? (fun a => K.key a == k) = (K.items c).find? (K.isNamed k) := by
        refine List.find?_congr fun a ha => ?_
        have howner : (K.key a).owner = k.owner := (hfirst a ha).trans hname
        rw [Bool.eq_iff_iff, beq_iff_eq, isNamed, Bool.and_eq_true, beq_iff_eq, beq_iff_eq]
        constructor
        · rintro rfl
          exact ⟨rfl, rfl⟩
        · rintro ⟨hname, hdescriptor⟩
          calc K.key a = ⟨(K.key a).owner, (K.key a).name, (K.key a).descriptor⟩ := rfl
            _ = k := by rw [howner, hname, hdescriptor]
      rw [hlater, beq_iff_eq.2 hname, hsame]
      exact Option.or_none
    · have hnone : (K.items c).find? (fun a => K.key a == k) = none := by
        rw [List.find?_eq_none]
        intro a ha hkey
        exact hname ((hfirst a ha).symm.trans (congrArg Member.owner (beq_iff_eq.1 hkey)))
      rw [hnone, Option.none_or, (by simpa using hname : (c.name == k.owner) = false)]

end Naming.Part

namespace Tidy

/-- The access of a declaration is that of the field or method of its reference. -/
theorem declaredAccess?_eq (hp : p.Sound) (k : Member) : declaredAccess? p k =
    if isMethod k then (p.methods.find? fun m => m.key == k).map (·.access)
    else (p.fields.find? fun f => f.key == k).map (·.access) := by
  have hmethods := Part.ofMethods.find?_all hp k
  have hfields := Part.ofFields.find?_all hp k
  change p.methods.find? (fun m => m.key == k) = _ at hmethods
  change p.fields.find? (fun f => f.key == k) = _ at hfields
  rw [declaredAccess?, hmethods, hfields]
  cases p.class? k.owner with
  | none => simp
  | some c => rfl

/-- Methods with different references are found by them. -/
theorem map_access_find?_eq_some_iff (hkeys : (p.methods.map Method.key).Nodup) {a : Access} :
    (p.methods.find? fun m => m.key == k).map (·.access) = some a ↔
      ∃ m ∈ p.methods, m.key = k ∧ m.access = a := by
  rw [Option.map_eq_some_iff]
  constructor
  · rintro ⟨m, hm, ha⟩
    exact ⟨m, List.mem_of_find?_eq_some hm, by simpa using List.find?_some hm, ha⟩
  · rintro ⟨m, hm, rfl, ha⟩
    have hsome : (p.methods.find? fun d => d.key == m.key).isSome = true :=
      List.find?_isSome.2 ⟨m, hm, beq_self_eq_true m.key⟩
    obtain ⟨d, hd⟩ := Option.isSome_iff_exists.1 hsome
    have hkey : d.key = m.key := by simpa using List.find?_some hd
    obtain rfl := List.inj_on_of_nodup_map hkeys (List.mem_of_find?_eq_some hd) hm hkey
    exact ⟨d, hd, ha⟩

/-! ### What a pass leaves alone -/

/-- No method of the name and type of a member is to move. -/
def IsStill (holder : String) (p : Codebase) (k : Member) : Prop :=
  ∀ move ∈ plannedMoves holder p, ¬(move.1.name = k.name ∧ move.1.descriptor = k.descriptor)

/-- A method has the name and type of a member, or refers to a member of this name and type. -/
def Concerns (k : Member) (m : Method) : Prop :=
  (m.name = k.name ∧ m.descriptor = k.descriptor) ∨ ∃ b, m.body = some b ∧
    ∃ i ∈ b.listing.instructions, ∃ k', referred? i = some k' ∧
      k'.name = k.name ∧ k'.descriptor = k.descriptor

/-- Members of one name and type are still together. -/
theorem IsStill.congr {k' : Member} (h : IsStill holder p k) (hname : k'.name = k.name)
    (hdescriptor : k'.descriptor = k.descriptor) : IsStill holder p k' := by
  rintro move hmove ⟨hname', hdescriptor'⟩
  exact h move hmove ⟨hname'.trans hname, hdescriptor'.trans hdescriptor⟩

/-- What is still has its home where it is, in whichever class. -/
theorem IsStill.newHome (h : IsStill holder p k) (owner : String) :
    newHome holder p (k.withOwner owner) = owner :=
  (newHome_cases holder p (k.withOwner owner)).resolve_right fun hmove => h _ hmove ⟨rfl, rfl⟩

/-- References to what is still stay. -/
theorem IsStill.onMember (h : IsStill holder p k) : (methodNames holder p).onMember k = k := by
  rcases onMember_methodNames holder p k with heq | ⟨move, hmove, hname, hdescriptor, -⟩
  · exact heq
  · exact absurd ⟨hname, hdescriptor⟩ (h move hmove)

/-- A method that is not concerned is still itself. -/
theorem isStill_key (h : ∀ move ∈ plannedMoves holder p, ¬Concerns move.1 m) :
    IsStill holder p m.key := by
  rintro move hmove ⟨hname, hdescriptor⟩
  exact h move hmove (.inl ⟨hname.symm, hdescriptor.symm⟩)

/-- A method that is not concerned refers to still members. -/
theorem isStill_of_referred? (h : ∀ move ∈ plannedMoves holder p, ¬Concerns move.1 m) {b : Body}
    (hb : m.body = some b) {i : Instruction Label} (hi : i ∈ b.listing.instructions)
    (hk : referred? i = some k) : IsStill holder p k := by
  rintro move hmove ⟨hname, hdescriptor⟩
  exact h move hmove (.inr ⟨b, hb, i, hi, k, hk, hname.symm, hdescriptor.symm⟩)

/-- An instruction works elsewhere if it did, as long as its member is as accessible as before. -/
theorem worksElsewhere_congr {c c' : Class} (hname : c'.name = c.name) {i : Instruction Label}
    (h : ∀ k, referred? i = some k → declaredAccess? p' k = declaredAccess? p k) :
    worksElsewhere p' c' i = worksElsewhere p c i := by
  cases i with
  | field op k => rw [worksElsewhere, worksElsewhere, h k rfl, hname]
  | invoke op k viaInterface => rw [worksElsewhere, worksElsewhere, h k rfl, hname]
  | _ => rfl

namespace Orderly

/-- What a pass of moves makes of an orderly codebase. -/
structure Passes (holder : String) (p p' : Codebase) : Prop where
  /-- The codebase before is orderly. -/
  before : Orderly holder p
  /-- So is the codebase afterwards. -/
  after : Orderly holder p'
  /-- Methods are where they belong. -/
  arranged : Rearranged (newHome holder p) (methodNames holder p) p p'
  /-- Fields have their references and access. -/
  fields : (p'.fields.map fun f => (f.key, f.access)) = p.fields.map fun f => (f.key, f.access)

/-- A pass over an orderly codebase that has something to move makes the planned moves. -/
theorem exists_passes (h : Orderly holder p) (hplan : (methodPlan holder p).isEmpty = false) :
    ∃ p', moveStaticMethods holder p =
        { result := .ok (plannedMoves holder p).length, codebase := p' } ∧ Passes holder p p' := by
  obtain ⟨p', hmoved, hp', harranged, hfields⟩ := h.exists_rearranged hplan
  exact ⟨p', hmoved, h, hp', harranged, hfields⟩

end Orderly

namespace Orderly.Passes

variable (h : Orderly.Passes holder p p')

include h

/-- **What is still is as accessible as before.** -/
theorem declaredAccess?_of_isStill (hstill : IsStill holder p k) :
    declaredAccess? p' k = declaredAccess? p k := by
  rw [declaredAccess?_eq h.before.sound, declaredAccess?_eq h.after.sound]
  split
  -- a method that is still keeps its reference and its access, and no other one gets its reference
  · refine Option.ext fun a => ?_
    rw [map_access_find?_eq_some_iff h.after.keys, map_access_find?_eq_some_iff h.before.keys]
    constructor
    · rintro ⟨m', hm', hkey', ha⟩
      obtain ⟨m, hm, himage⟩ := h.arranged.exists_origin hm'
      have hmstill : IsStill holder p m.key :=
        hstill.congr (himage.name.symm.trans (congrArg Member.name hkey'))
          (himage.descriptor.symm.trans (congrArg Member.descriptor hkey'))
      refine ⟨m, hm, ?_, (himage.access hmstill.newHome).symm.trans ha⟩
      have hhome : newHome holder p m.key = m.owner := hmstill.newHome m.owner
      have hkey := himage.key
      rw [hhome] at hkey
      exact hkey.symm.trans hkey'
    · rintro ⟨m, hm, rfl, ha⟩
      obtain ⟨m', hm', himage⟩ := h.arranged.exists_image hm
      refine ⟨m', hm', ?_, (himage.access hstill.newHome).trans ha⟩
      have hhome : newHome holder p m.key = m.owner := hstill.newHome m.owner
      have hkey := himage.key
      rwa [hhome] at hkey
  · have hfind : ∀ p : Codebase, (p.fields.find? fun f => f.key == k).map (·.access) =
        ((p.fields.map fun f => (f.key, f.access)).find? fun x => x.1 == k).map (·.2) := by
      intro p
      rw [List.find?_map, Option.map_map]
      rfl
    rw [hfind, hfind, h.fields]

/-- A method that stays has stayed in a class of the kind of the one it is found in. -/
theorem exists_class_of_image {c' : Class} (hc' : c' ∈ p'.classes) (hm' : m' ∈ c'.methods)
    (hm : m ∈ p.methods) (himage : Image (newHome holder p) (methodNames holder p) m m')
    (hhome : newHome holder p m.key = m.owner) :
    ∃ c ∈ p.classes, m ∈ c.methods ∧ c'.name = c.name ∧ c'.isInterface = c.isInterface := by
  obtain ⟨c, hc, hm⟩ := List.mem_flatMap.1 hm
  have howner : m.owner = c.name := (Part.ofMethods.owner_and_kind h.before.sound hc hm).1
  obtain ⟨c'', hc'', hinterface, m'', hm'', himage'⟩ :=
    h.arranged.stays c hc m hm (hhome.trans howner)
  have hname : c''.name = c'.name := by
    have howner' := (Part.ofMethods.owner_and_kind h.after.sound hc' hm').1
    have howner'' := (Part.ofMethods.owner_and_kind h.after.sound hc'' hm'').1
    exact howner''.symm.trans ((himage'.owner.trans himage.owner.symm).trans howner')
  obtain rfl := h.after.sound.class_eq hc'' hc' hname
  refine ⟨c, hc, hm, ?_, hinterface⟩
  have howner' : m'.owner = c''.name := (Part.ofMethods.owner_and_kind h.after.sound hc' hm').1
  rw [← howner', himage.owner, hhome, howner]

section

variable (hm : m ∈ p.methods) (himage : Image (newHome holder p) (methodNames holder p) m m')
  (hquiet : ∀ move ∈ plannedMoves holder p, ¬Concerns move.1 m) {b : Body} (hb : m.body = some b)

include hquiet hb

/-- A method that no move concerns keeps its instructions. -/
theorem onInstruction_of_quiet :
    ∀ i ∈ b.listing.instructions, (methodNames holder p).onInstruction i = i :=
  fun _ hi => onInstruction_eq_self h.before.gentle.classes fun _ hk =>
    (isStill_of_referred? hquiet hb hi hk).onMember

include hm himage

/-- It works elsewhere if it did. -/
theorem isMovable_of_quiet {c c' : Class} (hname : c'.name = c.name) :
    isMovable p' c' m' ((methodNames holder p).onBody b) = isMovable p c m b := by
  have hnodup : b.listing.handles.Nodup := h.before.bodies b (List.mem_filterMap.2 ⟨m, hm, hb⟩)
  have hinstructions : ((methodNames holder p).onListing b.listing).instructions =
      b.listing.instructions := by
    rw [Renaming.instructions_onListing _ hnodup]
    exact (List.map_congr_left (h.onInstruction_of_quiet hquiet hb)).trans (List.map_id' _)
  rw [isMovable, isMovable, himage.access (isStill_key hquiet).newHome]
  show (_ && ((methodNames holder p).onListing b.listing).instructions.all _) = _
  rw [hinstructions]
  congr 1
  rw [Bool.eq_iff_iff, List.all_eq_true, List.all_eq_true]
  refine forall₂_congr fun i hi => ?_
  rw [worksElsewhere_congr hname fun k hk =>
    h.declaredAccess?_of_isStill (isStill_of_referred? hquiet hb hi hk)]

variable (hstatic : m.isStatic = true) (hname : isGenerated methodStem m.name = true)

include hstatic hname

/-- It keeps its fingerprint. -/
theorem fingerprint_of_quiet :
    fingerprint m' ((methodNames holder p).onBody b) = fingerprint m b :=
  fingerprint_onBody_eq_self himage.descriptor (lines_onListing_eq_self
    (h.before.plain m hm hstatic hname b hb).handles (h.onInstruction_of_quiet hquiet hb))

/-- Classes with uncalled methods of its fingerprint are the same as before. -/
theorem mem_homes_of_quiet {owner : String} :
    owner ∈ homes p' (fingerprint m b) ↔ owner ∈ homes p (fingerprint m b) := by
  have hr := h.before.gentle
  have hplain := h.before.plain m hm hstatic hname b hb
  constructor
  · intro howner
    obtain ⟨s', hs', huncalled, htext, rfl⟩ := mem_homes.1 howner
    obtain ⟨c', hc', hclass, d', hd', hdstatic, hdname, b', hb', rfl⟩ := mem_staticMethods.1 hs'
    obtain ⟨d, hd, hdimage⟩ := h.arranged.exists_origin (List.mem_flatMap.2 ⟨c', hc', hd'⟩)
    rw [hdimage.body] at hb'
    obtain ⟨bd, hbd, rfl⟩ := Option.map_eq_some_iff.1 hb'
    rw [hdimage.static] at hdstatic
    rw [hdimage.name] at hdname
    have huncalled : (calledNames p).contains d.name = false := by
      rw [← h.arranged.contains_calledNames hr h.before.bodies, ← hdimage.name]
      exact huncalled
    have hhome : newHome holder p d.key = d.owner := newHome_of_uncalled h.before.keys hd huncalled
    obtain ⟨c, hc, hdc, -, hinterface⟩ := h.exists_class_of_image hc' hd' hd hdimage hhome
    -- Its lines have become those of the method, whose members are final, so they were so before.
    have hdplain := h.before.plain d hd hdstatic hdname bd hbd
    have hdplain' := hdplain.onBody hr.classes hr.clear
    have htext' : fingerprint d' ((methodNames holder p).onBody bd) = fingerprint m b := htext
    obtain ⟨hdescriptor, hlines⟩ := (fingerprint_eq_iff
      (hdimage.descriptor ▸ (of_isLegible hdplain.descriptor).2.2)
      (of_isLegible hplain.descriptor).2.2 hdplain'.newline_not_mem hplain.newline_not_mem).1 htext'
    have hinstructions : ((methodNames holder p).onListing bd.listing).instructions =
        bd.listing.instructions.map (methodNames holder p).onInstruction :=
      Renaming.instructions_onListing _ hdplain.handles
    have hself := onInstruction_eq_self_of_lines hr.classes hdplain.handles hplain.instructions
      (fun j hj => hdplain'.instructions _ (hinstructions ▸ List.mem_map_of_mem hj)) hlines
      fun i hi k hk => ((isStill_of_referred? hquiet hb hi hk).congr (hr.name k).symm
        (hr.descriptor k).symm).onMember
    refine mem_homes.2 ⟨_, mem_staticMethods.2 ⟨c, hc, hinterface ▸ hclass, d, hdc, hdstatic, hdname,
      bd, hbd, rfl⟩, huncalled, ?_, ?_⟩
    · exact (fingerprint_onBody_eq_self hdimage.descriptor
        (lines_onListing_eq_self hdplain.handles hself)).symm.trans htext'
    · exact (hdimage.owner.trans hhome).symm
  · intro howner
    rw [← h.fingerprint_of_quiet hm himage hquiet hb hstatic hname]
    exact h.arranged.homes_subset hr h.before
      (fun d hd huncalled => newHome_of_uncalled h.before.keys hd huncalled) hm hstatic hname hb
      himage howner

end

end Orderly.Passes

/-! ### Why methods move -/

/-- In an orderly codebase the methods that may move are told by their references. -/
theorem Orderly.eq_of_mem_staticMethods (h : Orderly holder p) {s s' : StaticMethod}
    (hs : s ∈ staticMethods p) (hs' : s' ∈ staticMethods p) (hkey : s.key = s'.key) : s = s' := by
  obtain ⟨c, hc, -, d, hd, -, -, b, hb, rfl⟩ := mem_staticMethods.1 hs
  obtain ⟨c', hc', -, d', hd', -, -, b', hb', rfl⟩ := mem_staticMethods.1 hs'
  obtain rfl : d = d' := List.inj_on_of_nodup_map h.keys (List.mem_flatMap.2 ⟨c, hc, hd⟩)
    (List.mem_flatMap.2 ⟨c', hc', hd'⟩) hkey
  obtain rfl : c = c' := h.sound.class_eq hc hc'
    ((Part.ofMethods.owner_and_kind h.sound hc hd).1.symm.trans
      (Part.ofMethods.owner_and_kind h.sound hc' hd').1)
  obtain rfl : b = b' := Option.some.inj (hb.symm.trans hb')
  rfl

namespace Orderly.Passes

variable (h : Orderly.Passes holder p p') (hm : m ∈ p.methods) (hm' : m' ∈ p'.methods)
  (himage : Image (newHome holder p) (methodNames holder p) m m')

include h hm hm' himage

/-- A method that no move concerns and that is bound for a class after the pass was so before it. -/
theorem exists_isBound_of_quiet (hquiet : ∀ move ∈ plannedMoves holder p, ¬Concerns move.1 m)
    {s' : StaticMethod} (hs' : s' ∈ staticMethods p') (hkey : s'.key = m'.key) {target : String}
    (hbound : IsBound holder p' s' target) :
    ∃ s ∈ staticMethods p, s.key = m.key ∧ IsBound holder p s target := by
  have hhome : newHome holder p m.key = m.owner := (isStill_key hquiet).newHome m.owner
  obtain ⟨c', hc', hclass, d', hd', hstatic, hname, b', hb', rfl⟩ := mem_staticMethods.1 hs'
  obtain rfl : d' = m' :=
    List.inj_on_of_nodup_map h.after.keys (List.mem_flatMap.2 ⟨c', hc', hd'⟩) hm' hkey
  obtain ⟨c, hc, hmc, hcname, hinterface⟩ := h.exists_class_of_image hc' hd' hm himage hhome
  rw [himage.static] at hstatic
  rw [himage.name] at hname
  rw [himage.body] at hb'
  obtain ⟨b, hb, rfl⟩ := Option.map_eq_some_iff.1 hb'
  have hhomes : ∀ home,
      homes p' (fingerprint d' ((methodNames holder p).onBody b)) = [home] ↔
        homes p (fingerprint m b) = [home] := by
    intro home
    rw [homes_eq_singleton_iff, homes_eq_singleton_iff,
      h.fingerprint_of_quiet hm himage hquiet hb hstatic hname]
    exact forall_congr' fun owner =>
      iff_congr (h.mem_homes_of_quiet hm himage hquiet hb hstatic hname) Iff.rfl
  refine ⟨_, mem_staticMethods.2 ⟨c, hc, hinterface ▸ hclass, m, hmc, hstatic, hname, b, hb, rfl⟩,
    rfl, ?_, ?_, ?_, ?_⟩
  · show (calledNames p).contains m.name = true
    rw [← h.arranged.contains_calledNames h.before.gentle h.before.bodies, ← himage.name]
    exact hbound.called
  · exact (h.isMovable_of_quiet hm himage hquiet hb hcname).symm.trans hbound.movable
  · have howner : d'.owner = m.owner := himage.owner.trans hhome
    exact fun hleaves => hbound.leaves (howner.trans hleaves)
  · refine hbound.home.imp (hhomes target).1 fun ⟨hnone, htarget, hpackage⟩ =>
      ⟨fun home hhome => hnone home ((hhomes home).2 hhome), htarget, ?_⟩
    have howner : d'.owner = m.owner := himage.owner.trans hhome
    show packageOf m.owner = packageOf holder
    rw [← howner]
    exact hpackage

/-- **A method that moves in the next pass is one that a move of this pass concerns.** -/
theorem exists_cause (hmoves : newHome holder p' m'.key ≠ m'.owner) :
    ∃ move ∈ plannedMoves holder p, Concerns move.1 m := by
  by_contra hnone
  have hquiet : ∀ move ∈ plannedMoves holder p, ¬Concerns move.1 m :=
    fun move hmove hconcerns => hnone ⟨move, hmove, hconcerns⟩
  have hmove := (newHome_cases holder p' m'.key).resolve_left hmoves
  generalize newHome holder p' m'.key = target at hmove
  obtain ⟨s', hs', hkey, hbound⟩ := exists_isBound ((plannedMoves_spec holder p').planned _ hmove)
  obtain ⟨s, hs, hskey, hbound⟩ := h.exists_isBound_of_quiet hm hm' himage hquiet hs' hkey hbound
  have hplan := getElem?_methodPlan_of_isBound
    (fun s hs s' hs' => h.before.eq_of_mem_staticMethods hs hs') hs hbound
  rw [hskey] at hplan
  -- The move was planned before: it was made, or its new reference was in use.
  rcases (plannedMoves_spec holder p).complete (m.key, target) hplan with
    hmade | ⟨d, hd, hdkey⟩ | ⟨other, hother, heq⟩
  · exact hquiet _ hmade (.inl ⟨rfl, rfl⟩)
  -- It still is in use by what does not move either.
  · have hdkey : d.key = m.key.withOwner target := hdkey
    have hdstill : IsStill holder p d.key :=
      IsStill.congr (isStill_key hquiet) (hdkey ▸ rfl) (hdkey ▸ rfl)
    have hdhome : newHome holder p d.key = d.owner := hdstill.newHome d.owner
    obtain ⟨d', hd', hdimage⟩ := h.arranged.exists_image hd
    refine (plannedMoves_spec holder p').free _ hmove d' hd' ?_
    have hd'key : d'.key = d.key := by
      rw [hdimage.key, hdhome]
      rfl
    rw [hd'key, hdkey]
    show m.key.withOwner target = m'.key.withOwner target
    rw [himage.key]
    rfl
  · have heq : other.1.withOwner other.2 = m.key.withOwner target := heq
    exact hquiet other hother
      (.inl ⟨(congrArg Member.name heq).symm, (congrArg Member.descriptor heq).symm⟩)

end Orderly.Passes

/-- What is planned moves a declared method. -/
theorem exists_leaving {move : Move} (hmove : move ∈ plannedMoves holder p) :
    ∃ x ∈ p.methods, x.key = move.1 ∧ newHome holder p x.key ≠ x.owner := by
  obtain ⟨⟨s, hs, hskey⟩, hleaves, -⟩ :=
    of_getElem?_methodPlan ((plannedMoves_spec holder p).planned move hmove)
  obtain ⟨x, hx, hkey, -, -⟩ := of_mem_staticMethods hs
  have hkey : x.key = move.1 := hkey.symm.trans hskey
  refine ⟨x, hx, hkey, ?_⟩
  rw [hkey, newHome_of_mem hmove]
  exact fun hhome => hleaves ((congrArg Member.owner hkey).symm.trans hhome.symm)

/-! ### Chains -/

/-- A method stands in a list no more often than its image does in the list of images. -/
theorem Image.count_le {home : Member → String} {r : Renaming} {d d' : Method}
    (hdimage : Image home r d d') {chain chain' : List Method}
    (himages : List.Forall₂ (Image home r) chain chain') :
    (chain.map Method.key).count d.key ≤ (chain'.map Method.key).count d'.key := by
  induction himages with
  | nil => exact Nat.le_refl _
  | @cons m m' chain chain' himage _ ih =>
    rw [List.map_cons, List.map_cons, List.count_cons, List.count_cons]
    by_cases hkey : m.key = d.key
    · have hkey' : m'.key = d'.key := by rw [himage.key, hdimage.key, hkey]
      rw [if_pos (beq_iff_eq.2 hkey), if_pos (beq_iff_eq.2 hkey')]
      exact Nat.add_le_add_right ih 1
    · rw [if_neg (by simpa using hkey)]
      exact ih.trans (Nat.le_add_right _ _)

/-- Methods that wait for each other: each one is concerned by the one before it, and none stands more
often in the chain than it can move. -/
structure WaitingChain (holder : String) (p : Codebase) (chain : List Method) : Prop where
  /-- The methods are those of a codebase. -/
  mem : ∀ m ∈ chain, m ∈ p.methods
  /-- Each one is concerned by the one before it. -/
  waits : chain.IsChain fun a b => Concerns a.key b
  /-- None stands there more often than it can move. -/
  count_le : ∀ m ∈ p.methods, (chain.map Method.key).count m.key ≤ unrestOf holder p m

/-- **A chain is at most as long as all methods together can move.** -/
theorem WaitingChain.length_le_unrest (hkeys : (p.methods.map Method.key).Nodup)
    {chain : List Method} (h : WaitingChain holder p chain) : chain.length ≤ unrest holder p := by
  have hmem : ∀ k ∈ ((chain.map Method.key : List Member) : Multiset Member),
      k ∈ (p.methods.map Method.key).toFinset := by
    intro k hk
    obtain ⟨m, hm, rfl⟩ := List.mem_map.1 (Multiset.mem_coe.1 hk)
    exact List.mem_toFinset.2 (List.mem_map_of_mem (h.mem m hm))
  calc chain.length = Multiset.card (chain.map Method.key : Multiset Member) :=
        (List.length_map _).symm
    _ = ∑ k ∈ (p.methods.map Method.key).toFinset,
          Multiset.count k (chain.map Method.key : Multiset Member) :=
        (Multiset.sum_count_eq_card hmem).symm
    _ = (p.methods.map fun m => (chain.map Method.key).count m.key).sum := by
        simp only [List.sum_toFinset _ hkeys, List.map_map, Multiset.coe_count]
        rfl
    _ ≤ unrest holder p := List.sum_le_sum h.count_le

namespace Orderly.Passes

variable (h : Orderly.Passes holder p p')

include h

/-- Every list of methods after a pass has one of the methods that they come from. -/
theorem exists_origins {chain' : List Method} (hmem : ∀ m' ∈ chain', m' ∈ p'.methods) :
    ∃ chain, (∀ m ∈ chain, m ∈ p.methods) ∧
      List.Forall₂ (Image (newHome holder p) (methodNames holder p)) chain chain' := by
  induction chain' with
  | nil => exact ⟨[], by simp, .nil⟩
  | cons m' chain' ih =>
    obtain ⟨hm', hchain'⟩ := List.forall_mem_cons.1 hmem
    obtain ⟨m, hm, himage⟩ := h.arranged.exists_origin hm'
    obtain ⟨chain, hchain, himages⟩ := ih hchain'
    exact ⟨m :: chain, List.forall_mem_cons.2 ⟨hm, hchain⟩, .cons himage himages⟩

/-- Methods were concerned before the pass if they are afterwards. -/
theorem concerns_of_image {d d' : Method} (hd : d ∈ p.methods)
    (himage : Image (newHome holder p) (methodNames holder p) m m')
    (hdimage : Image (newHome holder p) (methodNames holder p) d d')
    (hconcerns : Concerns m'.key d') : Concerns m.key d := by
  have hr := h.before.gentle
  rcases hconcerns with ⟨hname, hdescriptor⟩ | ⟨b', hb', i', hi', k', hk', hname, hdescriptor⟩
  · exact .inl ⟨hdimage.name.symm.trans (hname.trans himage.name),
      hdimage.descriptor.symm.trans (hdescriptor.trans himage.descriptor)⟩
  · rw [hdimage.body] at hb'
    obtain ⟨b, hb, rfl⟩ := Option.map_eq_some_iff.1 hb'
    have hi' : i' ∈ ((methodNames holder p).onListing b.listing).instructions := hi'
    rw [Renaming.instructions_onListing _ (h.before.bodies b (List.mem_filterMap.2 ⟨d, hd, hb⟩))]
      at hi'
    obtain ⟨i, hi, rfl⟩ := List.mem_map.1 hi'
    rw [referred?_onInstruction] at hk'
    obtain ⟨k, hk, rfl⟩ := Option.map_eq_some_iff.1 hk'
    exact .inr ⟨b, hb, i, hi, k, hk, (hr.name k).symm.trans (hname.trans himage.name),
      (hr.descriptor k).symm.trans (hdescriptor.trans himage.descriptor)⟩

/-- A chain after a pass was one before it. -/
theorem isChain_of_images {chain chain' : List Method} (hmem : ∀ m ∈ chain, m ∈ p.methods)
    (himages : List.Forall₂ (Image (newHome holder p) (methodNames holder p)) chain chain')
    (hwaits : chain'.IsChain fun a b => Concerns a.key b) :
    chain.IsChain fun a b => Concerns a.key b := by
  induction himages with
  | nil => exact .nil
  | cons himage himages ih =>
    obtain ⟨-, hmem⟩ := List.forall_mem_cons.1 hmem
    rw [List.isChain_cons] at hwaits ⊢
    refine ⟨fun d hd => ?_, ih hmem hwaits.2⟩
    cases himages with
    | nil => cases hd
    | cons hdimage =>
      cases hd
      exact h.concerns_of_image (hmem d List.mem_cons_self) himage hdimage (hwaits.1 _ rfl)

/-- A method that moves may stand before a chain that waits after the pass, if it concerns the first
method of the chain. -/
theorem waitingChain_cons {x : Method} (hx : x ∈ p.methods)
    (hleaves : newHome holder p x.key ≠ x.owner) {chain chain' : List Method}
    (hmem : ∀ m ∈ chain, m ∈ p.methods)
    (himages : List.Forall₂ (Image (newHome holder p) (methodNames holder p)) chain chain')
    (hchain' : WaitingChain holder p' chain') (hcause : ∀ m ∈ chain.head?, Concerns x.key m) :
    WaitingChain holder p (x :: chain) where
  mem := List.forall_mem_cons.2 ⟨hx, hmem⟩
  waits := List.isChain_cons.2 ⟨hcause, h.isChain_of_images hmem himages hchain'.waits⟩
  -- A method can move less often after the pass if it is the one that moves, and as often otherwise.
  count_le d hd := by
    obtain ⟨d', hd', hdimage⟩ := h.arranged.exists_image hd
    have hunrest := h.arranged.unrestOf_add_le h.before.gentle h.before
      (fun d hd => newHome_eq_destination h.before.keys hd) hd hdimage
    have hcount := (hdimage.count_le himages).trans (hchain'.count_le d' hd')
    rw [List.map_cons, List.count_cons]
    by_cases hself : x.key = d.key
    · obtain rfl := List.inj_on_of_nodup_map h.before.keys hx hd hself
      rw [if_neg hleaves] at hunrest
      rw [if_pos (beq_iff_eq.2 hself)]
      exact (Nat.add_le_add_right hcount 1).trans hunrest
    · rw [if_neg (by simpa using hself)]
      exact hcount.trans ((Nat.le_add_right _ _).trans hunrest)

/-- A method that moves is a chain of its own. -/
theorem waitingChain_singleton {x : Method} (hx : x ∈ p.methods)
    (hleaves : newHome holder p x.key ≠ x.owner) : WaitingChain holder p [x] :=
  h.waitingChain_cons hx hleaves (by simp) .nil ⟨by simp, .nil, fun _ _ => Nat.zero_le _⟩ (by simp)

/-- **A chain that begins with a method that moves has waited for another one that did so before.** -/
theorem exists_waitingChain_cons {chain' : List Method}
    (hmoves : newHome holder p' m'.key ≠ m'.owner) (hchain' : WaitingChain holder p' (m' :: chain')) :
    ∃ x ∈ p.methods, newHome holder p x.key ≠ x.owner ∧ ∃ chain, chain.length = chain'.length + 1 ∧
      WaitingChain holder p (x :: chain) := by
  obtain ⟨chain, hmem, himages⟩ := h.exists_origins hchain'.mem
  obtain ⟨m, rest, himage, -, rfl⟩ := List.forall₂_cons_right_iff.1 himages
  obtain ⟨move, hmove, hconcerns⟩ := h.exists_cause (hmem m List.mem_cons_self)
    (hchain'.mem m' List.mem_cons_self) himage hmoves
  obtain ⟨x, hx, hkey, hleaves⟩ := exists_leaving hmove
  refine ⟨x, hx, hleaves, m :: rest, himages.length_eq, ?_⟩
  refine h.waitingChain_cons hx hleaves hmem himages hchain' fun d hd => ?_
  obtain rfl : m = d := Option.some.inj hd
  exact hkey ▸ hconcerns

end Orderly.Passes

end Tidy

end Unscramble
