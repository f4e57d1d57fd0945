import Unscramble.Proofs.Tidy.MethodPlan

/-! # Moving static methods

A static method that moves takes the references in its family with it. If no other method is in that
family, and nothing else is found where it arrives, every reference finds what it found.

Main definition: `Rehomable`. Main statements: `Rehomable.resettlement`, `opened_publishMoved`,
`found?_moveStaticMethods`. -/

namespace Unscramble.Tidy

open Naming

variable {holder : String} {p : Codebase} {move : Move}

/-- A codebase whose static methods can be moved without mixing up calls: no other declaration shares
the family of a method that moves, and where a method arrives no reference finds another one of its
name and descriptor. -/
structure Rehomable (holder : String) (p : Codebase) : Prop where
  /-- The declarations are told by their references. -/
  sound : p.Sound
  /-- The methods of a class differ in name or descriptor. -/
  distinct : ∀ c ∈ p.classes, (c.methods.map fun m => (m.name, m.descriptor)).Nodup
  /-- Listings link each instruction once. -/
  bodies : ∀ b ∈ p.bodies, b.listing.handles.Nodup
  /-- A method that moves hides no method and is hidden by none. -/
  alone : ∀ move ∈ plannedMoves holder p, ∀ d ∈ p.declarations,
    (Families.ofCodebase p).family? d.1 = (Families.ofCodebase p).family? move.1 → d.1 = move.1
  /-- What inherits from the class that a method moves to finds no other method there. -/
  clear : ∀ move ∈ plannedMoves holder p, ∀ o D, move.2 ∈ (Hierarchy.ofCodebase p).ancestors o →
    p.found? (move.1.withOwner o) = some D → D = move.1
  /-- No class inherits from a holder that is added. -/
  noHeirs : holder ∉ p.classes.map (·.name) → ∀ c ∈ p.classes, holder ∉ c.supertypes

/-- A planned move is that of a static method with a generated name to another class, which is the
holder or one of the codebase. -/
theorem of_mem_plannedMoves (hmove : move ∈ plannedMoves holder p) :
    (∃ m ∈ p.methods, m.key = move.1 ∧ m.isStatic = true ∧ move.1.name ≠ "<init>") ∧
      move.1.owner ≠ move.2 ∧ (move.2 = holder ∨ ∃ m ∈ p.methods, m.owner = move.2) := by
  have hplan := (plannedMoves_spec holder p).planned move hmove
  obtain ⟨⟨s, hs, hkey⟩, hne, htarget⟩ := of_getElem?_methodPlan hplan
  obtain ⟨m, hm, hskey, hstatic, hname⟩ := of_mem_staticMethods hs
  refine ⟨⟨m, hm, hskey.symm.trans hkey, hstatic, ?_⟩, hne, htarget.imp id ?_⟩
  · have hnot : isGenerated methodStem "<init>" = false := by decide
    rw [← hkey, hskey]
    intro hinit
    rw [show m.name = "<init>" from hinit, hnot] at hname
    cases hname
  · rintro ⟨s', hs', howner⟩
    obtain ⟨m', hm', hskey', -⟩ := of_mem_staticMethods hs'
    exact ⟨m', hm', (congrArg Member.owner hskey').symm.trans howner⟩

/-- The methods that move with their new references. -/
abbrev newReferences (holder : String) (p : Codebase) : List (Member × Member) :=
  (plannedMoves holder p).map movedTo

/-- The renaming that gives methods that move their new references. -/
abbrev methodNames (holder : String) (p : Codebase) : Renaming :=
  Renaming.ofFamilies (Families.ofCodebase p) (newReferences holder p)

/-- Whether a reference names a method that moves. -/
abbrev IsMoving (holder : String) (p : Codebase) (m : Member) : Prop :=
  m ∈ (newReferences holder p).map (·.1)

namespace Rehomable

/-- All methods have different references. -/
theorem keys (h : Rehomable holder p) : (p.methods.map Method.key).Nodup :=
  Part.nodup_keys .ofMethods h.sound h.distinct

/-- Methods are declared. -/
theorem exists_declared (h : Rehomable holder p) {m : Method} (hm : m ∈ p.methods) :
    ∃ b, (m.key, b) ∈ p.declarations :=
  ⟨_, ((Part.ofMethods.mem_declarations_iff h.sound _).2 ⟨m, hm, rfl⟩).1⟩

/-- What is planned for methods that move keeps them apart. -/
theorem resettlement (h : Rehomable holder p) :
    Resettlement p (newReferences holder p) := by
  obtain ⟨-, hkeys, hapart, -, hfree, -⟩ := plannedMoves_spec holder p
  -- What is planned to move is a method of the codebase.
  have hmethod : ∀ move ∈ plannedMoves holder p, ∃ m ∈ Part.ofMethods.all p,
      Part.ofMethods.key m = move.1 ∧ isMethod move.1 = true := by
    intro move hmove
    obtain ⟨⟨m, hm, hkey, -⟩, -⟩ := of_mem_plannedMoves hmove
    obtain ⟨c, hc, hmc⟩ := List.mem_flatMap.1 hm
    exact ⟨m, hm, hkey, hkey ▸ (h.sound.kinds c hc).2 m hmc⟩
  refine ⟨?_, ?_, ?_, ?_, ?_, ?_, ?_⟩
  · rw [List.map_map]
    exact hkeys
  · rw [List.map_map]
    exact hapart
  · rintro x hx
    obtain ⟨move, hmove, rfl⟩ := List.mem_map.1 hx
    obtain ⟨m, hm, hkey, -⟩ := hmethod move hmove
    rw [movedTo, ← hkey]
    exact h.exists_declared hm
  · rintro x hx b hd
    obtain ⟨move, hmove, rfl⟩ := List.mem_map.1 hx
    obtain ⟨-, -, -, hkind⟩ := hmethod move hmove
    obtain ⟨m, hm, heq⟩ := (Part.ofMethods.mem_declarations_iff h.sound _).1
      ⟨hd, (isMethod_eq rfl).trans hkind⟩
    exact hfree move hmove m hm (congrArg Prod.fst heq)
  · rintro x hx
    obtain ⟨move, -, rfl⟩ := List.mem_map.1 hx
    rfl
  · rintro x hx hinit
    obtain ⟨move, hmove, rfl⟩ := List.mem_map.1 hx
    obtain ⟨⟨-, -, -, -, hname⟩, -⟩ := of_mem_plannedMoves hmove
    exact hname hinit.1
  · rintro x hx d hd hfamily
    obtain ⟨move, hmove, rfl⟩ := List.mem_map.1 hx
    exact h.alone move hmove d hd hfamily

/-- Nothing that moves gets in front of a method that stays. -/
theorem clear_of_found (h : Rehomable holder p) : ∀ m D n, isMethod m = true →
    p.found? m = some D → ¬IsMoving holder p D →
    n ∈ (Hierarchy.ofCodebase p).ancestors m.owner → ∀ d ∈ p.declarations,
    (IsMoving holder p d.1 ∨ IsMoving holder p d.1) →
    (methodNames holder p).onMember d.1 = m.withOwner n → d.1 = D := by
  intro m D n _ hD hstays hn d _ hmoves hnew
  obtain ⟨x, hx, hxd⟩ := List.mem_map.1 (or_self_iff.1 hmoves)
  rw [← hxd, h.resettlement.onMember_key hx] at hnew
  obtain ⟨move, hmove, rfl⟩ := List.mem_map.1 hx
  -- the reference finds nothing but the moved method where this arrives
  have htarget : move.2 = n := congrArg Member.owner hnew
  have hm : move.1.withOwner m.owner = m := by
    calc move.1.withOwner m.owner = (move.1.withOwner move.2).withOwner m.owner := rfl
      _ = (m.withOwner n).withOwner m.owner := congrArg (Member.withOwner · m.owner) hnew
      _ = m := rfl
  have hfound := h.clear move hmove m.owner D (htarget ▸ hn) (hm.symm ▸ hD)
  exact absurd (List.mem_map.2 ⟨_, hx, hfound.symm⟩) hstays

end Rehomable

/-! ### The classes that methods move to -/

/-- The codebase with the holder if something moves there. -/
def withDestinations (holder : String) (p : Codebase) : Codebase :=
  if (plannedMoves holder p).any fun move => move.2 == holder then ensureHolder holder p else p

/-- What gets destinations gets the class for them, or needs none. -/
theorem withDestinations_cases (holder : String) (p : Codebase) :
    withDestinations holder p = ensureHolder holder p ∨ (withDestinations holder p = p ∧
      ∀ move ∈ plannedMoves holder p, move.2 ≠ holder) := by
  rw [withDestinations]
  split
  · exact .inl rfl
  · next hnone => exact .inr ⟨rfl, fun move hmove heq => hnone (List.any_eq_true.2
      ⟨move, hmove, by simpa using heq⟩)⟩

/-- The class for destinations has no methods of its own. -/
theorem methods_withDestinations (holder : String) (p : Codebase) :
    (withDestinations holder p).methods = p.methods := by
  rcases withDestinations_cases holder p with h | ⟨h, -⟩ <;> rw [h]
  exact methods_ensureHolder holder p

/-- Nor has it fields. -/
theorem fields_withDestinations (holder : String) (p : Codebase) :
    (withDestinations holder p).fields = p.fields := by
  rcases withDestinations_cases holder p with h | ⟨h, -⟩ <;> rw [h]
  exact fields_ensureHolder holder p

/-- A sound codebase gets a class for destinations and stays sound. -/
theorem sound_withDestinations (holder : String) (hp : p.Sound) :
    (withDestinations holder p).Sound := by
  rcases withDestinations_cases holder p with heq | ⟨heq, -⟩ <;> rw [heq]
  · exact sound_ensureHolder hp holder
  · exact hp

/-- The classes that methods move to are there. -/
theorem target_mem (hp : p.Sound) (hmove : move ∈ plannedMoves holder p) :
    move.2 ∈ (withDestinations holder p).classes.map (·.name) := by
  have hown : ∀ m ∈ p.methods, ∃ c ∈ p.classes, c.name = m.owner := by
    intro m hm
    obtain ⟨c, hc, hmc⟩ := List.mem_flatMap.1 hm
    exact ⟨c, hc, (Part.ofMethods.owner_and_kind hp hc hmc).1.symm⟩
  obtain ⟨-, -, htarget⟩ := of_mem_plannedMoves hmove
  rcases withDestinations_cases holder p with heq | ⟨heq, hnot⟩ <;> rw [heq]
  · rcases htarget with htarget | ⟨m, hm, htarget⟩
    · rw [htarget]
      exact holder_mem_ensureHolder holder p
    · obtain ⟨c, hc, hname⟩ := hown m hm
      rw [← htarget, ← hname]
      exact name_mem_ensureHolder hc
  · obtain ⟨m, hm, htarget⟩ := htarget.resolve_left (hnot move hmove)
    obtain ⟨c, hc, hname⟩ := hown m hm
    rw [← htarget, ← hname]
    exact List.mem_map_of_mem hc

/-- The planned moves, each with the method that moves. -/
theorem exists_movable (holder : String) (hp : p.Sound) : ∃ moves : List (Method × String),
    Part.ofMethods.Movable (withDestinations holder p) moves ∧
      List.Forall₂ (fun x pair => pair.1 = Part.ofMethods.key x.1 ∧ pair.2.owner = x.2) moves
        (newReferences holder p) := by
  have hmethod : ∀ move ∈ plannedMoves holder p, ∃ m ∈ p.methods, m.key = move.1 ∧
      m.isStatic = true := by
    intro move hmove
    obtain ⟨⟨m, hm, hkey, hstatic, -⟩, -⟩ := of_mem_plannedMoves hmove
    exact ⟨m, hm, hkey, hstatic⟩
  choose! method hmem hkey hstatic using hmethod
  refine ⟨(plannedMoves holder p).map fun move => (method move, move.2), ⟨?_, ?_, ?_, ?_, ?_, ?_⟩,
    ?_⟩
  · rw [List.map_map]
    have hkeys := (plannedMoves_spec holder p).nodup
    rwa [← List.map_congr_left hkey] at hkeys
  · rintro x hx
    obtain ⟨move, hmove, rfl⟩ := List.mem_map.1 hx
    change method move ∈ (withDestinations holder p).methods
    rw [methods_withDestinations]
    exact hmem move hmove
  · rintro x hx
    obtain ⟨move, hmove, rfl⟩ := List.mem_map.1 hx
    exact hstatic move hmove
  · rintro x hx
    obtain ⟨move, hmove, rfl⟩ := List.mem_map.1 hx
    exact target_mem hp hmove
  · rintro x hx
    obtain ⟨move, hmove, rfl⟩ := List.mem_map.1 hx
    change (method move).key.owner ≠ move.2
    rw [hkey move hmove]
    exact (of_mem_plannedMoves hmove).2.1
  · -- otherwise the new reference of the second method would be that of the first one
    rintro x hx y hy htarget
    obtain ⟨move, hmove, rfl⟩ := List.mem_map.1 hx
    obtain ⟨move', hmove', rfl⟩ := List.mem_map.1 hy
    rw [Bool.eq_false_iff]
    intro hnamed
    obtain ⟨hname, hdescriptor⟩ := Bool.and_eq_true_iff.1 hnamed
    rw [beq_iff_eq] at hname hdescriptor
    refine (plannedMoves_spec holder p).free move' hmove' (method move) (hmem move hmove) ?_
    calc (method move).key = ⟨(method move).key.owner, (method move).key.name,
          (method move).key.descriptor⟩ := rfl
      _ = ⟨move'.2, (method move').key.name, (method move').key.descriptor⟩ :=
        congr (congr (congrArg Member.mk htarget.symm) hname.symm) hdescriptor.symm
      _ = (movedTo move').2 := by rw [hkey move' hmove']; rfl
  · rw [List.forall₂_map_left_iff, List.forall₂_map_right_iff, List.forall₂_same]
    exact fun move hmove => ⟨(hkey move hmove).symm, rfl⟩

/-! ### Publishing -/

/-- Every method that moves under a reference is one of the opened. -/
def OnlyOpens (opened : Member → Prop) (moves : List Move) (q : Codebase) : Prop :=
  ∀ move ∈ moves, ∀ c ∈ q.classes, c.name = move.2 → ∀ m ∈ c.methods,
    Method.isNamed move.1.name move.1.descriptor m = true → opened m.key

variable {opened : Member → Prop} {moves : List Move} {q q' : Codebase}

/-- Making the moved method public opens it. -/
theorem opened_publishMoved (hdistinct : (q.classes.map (·.name)).Nodup)
    (h : OnlyOpens opened [move] q) : Part.ofMethods.Opened opened q (publishMoved q move) := by
  rw [Part.Opened, publishMoved, Part.classes_modifyClass hdistinct, List.forall₂_map_right_iff,
    List.forall₂_same]
  intro c hc
  split
  · next hname =>
    refine ⟨rfl, rfl, ?_⟩
    -- The first method of the name is made public, and the others stay.
    change List.Forall₂ _ c.methods (modifyFirst (Method.isNamed move.1.name move.1.descriptor)
      (fun m => { m with access := m.access.publish }) c.methods)
    have hsame : ∀ ms : List Method, List.Forall₂ (Part.ofMethods.Widens opened) ms ms :=
      fun ms => List.forall₂_same.2 fun m _ => Part.Widens.refl m
    rcases modifyFirst_cases (Method.isNamed move.1.name move.1.descriptor)
      (fun m => { m with access := m.access.publish }) c.methods with
      ⟨-, heq⟩ | ⟨front, m, back, hs, hfind, heq⟩
    · rw [heq]
      exact hsame _
    · rw [heq, hs]
      refine List.rel_append (hsame front) (.cons ?_ (hsame back))
      have hpublic : Part.ofMethods.isPrivate { m with access := m.access.publish } = false :=
        Access.contains_privateFlag_publish m.access
      have hopened := h move List.mem_cons_self c hc hname m (List.mem_of_find?_eq_some hfind)
        (List.find?_some hfind)
      refine ⟨⟨m.access.publish, rfl⟩, fun hprivate => ?_, .inr hopened⟩
      rw [hpublic] at hprivate
      cases hprivate
  · exact ⟨rfl, rfl, List.forall₂_same.2 fun m _ => Part.Widens.refl m⟩

/-- Wider access leaves open what may be opened. -/
theorem OnlyOpens.of_opened (h : OnlyOpens opened moves q)
    (hopened : Part.ofMethods.Opened opened q q') : OnlyOpens opened moves q' := by
  intro move hmove c' hc' hname m' hm' hnamed
  obtain ⟨c, hc, hcname, -, hitems⟩ := exists_of_mem_right hopened hc'
  obtain ⟨m, hm, hwidens⟩ := exists_of_mem_right hitems hm'
  have hkey : m'.key = m.key := hwidens.key_eq
  have hnamed' : Method.isNamed move.1.name move.1.descriptor m = true := by
    obtain ⟨⟨flags, rfl⟩, -⟩ := hwidens
    exact hnamed
  rw [hkey]
  exact h move hmove c hc (hcname.symm.trans hname) m hm hnamed'

/-- Making the moved methods public opens them. -/
theorem opened_foldl_publishMoved (hdistinct : (q.classes.map (·.name)).Nodup)
    (h : OnlyOpens opened moves q) :
    Part.ofMethods.Opened opened q (moves.foldl publishMoved q) := by
  induction moves generalizing q with
  | nil => exact Part.Opened.refl q
  | cons move moves ih =>
    have hfirst : Part.ofMethods.Opened opened q (publishMoved q move) :=
      opened_publishMoved hdistinct fun move' hmove' => h move' (by simp_all)
    rw [List.foldl_cons]
    refine hfirst.trans (ih ?_ ?_)
    · rw [Hierarchy.names_of_lineage hfirst.lineage]
      exact hdistinct
    · exact fun move' hmove' => h.of_opened hfirst move' (List.mem_cons_of_mem _ hmove')

/-- Making methods public leaves the fields. -/
theorem fields_foldl_publishMoved (moves : List Move) (q : Codebase) :
    (moves.foldl publishMoved q).fields = q.fields := by
  induction moves generalizing q with
  | nil => rfl
  | cons move moves ih =>
    rw [List.foldl_cons, ih]
    exact Codebase.fields_modifyClass (fun _ => by rfl) q move.2

/-- Moves of methods leave the fields where they are. -/
theorem fields_of_settled {p₁ q : Codebase} {home : Member → String}
    (h : Part.ofMethods.Settled home p₁ q) : q.fields = p₁.fields := by
  have hfields : ∀ q : Codebase,
      q.fields = (q.classes.map (Part.ofMethods.withItems · [])).flatMap (·.fields) := fun q => by
    rw [List.flatMap_map]
    rfl
  rw [hfields, h.rest, ← hfields]

namespace Rehomable

/-- The class for destinations extends no other one. -/
theorem extends_withDestinations (h : Rehomable holder p) :
    Hierarchy.Extends p (withDestinations holder p) := by
  rcases withDestinations_cases holder p with heq | ⟨heq, -⟩ <;> rw [heq]
  · exact extends_ensureHolder h.sound h.noHeirs
  · exact ⟨h.sound.distinct, fun i c hi => ⟨c, hi, rfl, rfl⟩, fun i c hi hlength =>
      absurd (List.getElem?_eq_some_iff.1 hi).1 (by omega)⟩

/-- Only methods that have moved are made public. -/
theorem onlyOpens (h : Rehomable holder p) {q : Codebase}
    (hsettled : Part.ofMethods.Settled (fun m => ((methodNames holder p).onMember m).owner)
      (withDestinations holder p) q) :
    OnlyOpens (IsMoving holder p)
      (plannedMoves holder p) q := by
  intro move hmove c hc hname m hm hnamed
  obtain ⟨hall, hhome⟩ := (hsettled.mem_iff c hc m).1 hm
  have hall : m ∈ p.methods := methods_withDestinations holder p ▸ hall
  obtain ⟨b, hb⟩ := h.exists_declared hall
  rcases h.resettlement.onMember_cases hb with ⟨x, hx, hxm, -⟩ | ⟨-, hstay⟩
  · exact List.mem_map.2 ⟨x, hx, hxm⟩
  · -- a method that stays would have the new reference of the one that moves
    have howner : m.owner = move.2 := (congrArg Member.owner hstay).symm.trans (hhome.trans hname)
    obtain ⟨hmname, hdescriptor⟩ := Bool.and_eq_true_iff.1 hnamed
    rw [beq_iff_eq] at hmname hdescriptor
    refine absurd ?_ ((plannedMoves_spec holder p).free move hmove m hall)
    calc m.key = ⟨m.owner, m.name, m.descriptor⟩ := rfl
      _ = (movedTo move).2 := congr (congr (congrArg Member.mk howner) hmname) hdescriptor

/-- Planned methods arrive under their new references. -/
theorem arrived (h : Rehomable holder p) : ∃ q : Codebase,
    relocate (withDestinations holder p) (plannedMoves holder p) =
      ([], .ok ((plannedMoves holder p).length, q)) ∧
    Part.ofMethods.Arrived (methodNames holder p)
      (IsMoving holder p) p
      ((methodNames holder p).apply
        ((plannedMoves holder p).foldl publishMoved q)) ∧
    Hierarchy.Extends p
      ((methodNames holder p).apply
        ((plannedMoves holder p).foldl publishMoved q)) := by
  have hp₁ := sound_withDestinations holder h.sound
  obtain ⟨moves, hmovable, hpairs⟩ := exists_movable holder h.sound
  -- Publishing widens methods only, and fields are those of the codebase.
  obtain ⟨q, hq, -, harrived, hextends⟩ := Part.ofMethods.exists_arrived h.resettlement h.sound hp₁
    (methods_withDestinations holder p) h.keys h.extends_withDestinations hmovable hpairs
    ((plannedMoves holder p).foldl publishMoved) fun q hsettled => by
      have hdistinct : (q.classes.map (·.name)).Nodup := hsettled.names ▸ hp₁.distinct
      have hopened := opened_foldl_publishMoved hdistinct (h.onlyOpens hsettled)
      refine ⟨hopened, fun f hf => ?_, fun m hm => hopened.isMethod_key hsettled hp₁ hm⟩
      rw [fields_foldl_publishMoved, fields_of_settled hsettled, fields_withDestinations] at hf
      obtain ⟨c, hc, hf⟩ := List.mem_flatMap.1 hf
      exact (h.sound.kinds c hc).1 f hf
  have hmoves : (newReferences holder p).map (fun x => (x.1, x.2.owner)) =
      plannedMoves holder p := by
    rw [List.map_map]
    exact List.map_id' _
  rw [hmoves, List.length_map] at hq
  exact ⟨q, hq, harrived, hextends⟩

end Rehomable

/-- The planned moves are made, and what has moved is published and renamed. -/
theorem moveStaticMethods_eq {n : Nat} (hplan : (methodPlan holder p).isEmpty = false)
    (hq : relocate (withDestinations holder p) (plannedMoves holder p) = ([], .ok (n, q))) :
    moveStaticMethods holder p =
      { result := .ok n
        codebase := (methodNames holder p).apply
            ((plannedMoves holder p).foldl publishMoved q) } := by
  rw [moveStaticMethods]
  dsimp only
  rw [hplan, if_neg Bool.false_ne_true, ← plannedMoves, ← withDestinations, hq,
    (plannedMoves_spec holder p).names]

/-- If nothing is planned, nothing changes. -/
theorem moveStaticMethods_eq_self (hplan : (methodPlan holder p).isEmpty = true) :
    moveStaticMethods holder p = { result := .ok 0, codebase := p } ∧ plannedMoves holder p = [] := by
  constructor
  · rw [moveStaticMethods]
    dsimp only
    rw [hplan, if_pos rfl]
  · rw [List.eq_nil_iff_forall_not_mem]
    intro move hmove
    have hplanned := (plannedMoves_spec holder p).planned move hmove
    rw [Std.HashMap.getElem?_of_isEmpty hplan] at hplanned
    cases hplanned

/-- **Moving static methods keeps every call on the same body**, if no method that moves hides another
one or is hidden and none is found where another one arrives: the moves are made, the methods of every
class differ in name or descriptor, every method has an image of its own with its rewritten body,
unmoved or where it was sent, and every reference that resolved to a method is rewritten so that it
resolves to the image. -/
theorem found?_moveStaticMethods (h : Rehomable holder p) :
    ∃ (n : Nat) (r : Renaming) (p' : Codebase),
      moveStaticMethods holder p = { result := .ok n, codebase := p' } ∧
      (∀ c ∈ p'.classes, (c.methods.map fun m => (m.name, m.descriptor)).Nodup) ∧
      (∀ m ∈ p.methods, (r.onMember m.key = m.key ∨
          (m.key, (r.onMember m.key).owner) ∈ plannedMoves holder p) ∧
        ∃ m' ∈ p'.methods, m'.key = r.onMember m.key ∧ m'.body.map (·.listing.instructions) =
          m.body.map fun b => b.listing.instructions.map r.onInstruction) ∧
      (∀ m ∈ p.methods, ∀ m' ∈ p.methods, r.onMember m.key = r.onMember m'.key → m.key = m'.key) ∧
      ∀ m D, isMethod m = true → p.found? m = some D →
        p'.found? (r.onMember m) = some (r.onMember D) := by
  -- Without moves the codebase is left as it is; otherwise the methods arrive.
  by_cases hplan : (methodPlan holder p).isEmpty = true
  · obtain ⟨hself, -⟩ := moveStaticMethods_eq_self hplan
    have hnew : ∀ m, (Renaming.ofFamilies (Families.ofCodebase p) []).onMember m = m := fun m => by
      rw [Renaming.onMember_ofFamilies]
      rfl
    refine ⟨0, Renaming.ofFamilies (Families.ofCodebase p) [], p, hself, h.distinct, ?_, ?_, ?_⟩
    · refine fun m hm => ⟨.inl (hnew _), m, hm, (hnew _).symm, ?_⟩
      rw [funext (Renaming.onInstruction_eq_self (Renaming.classes_ofFamilies []) hnew)]
      cases m.body with
      | none => rfl
      | some b => exact congrArg some (List.map_id' _).symm
    · intro m _ m' _ heq
      rwa [hnew, hnew] at heq
    · intro m D _ hD
      rwa [hnew, hnew]
  · obtain ⟨q, hq, harrived, hextends⟩ := h.arrived
    refine ⟨_, methodNames holder p, _, moveStaticMethods_eq (Bool.not_eq_true _ ▸ hplan) hq,
      fun c hc => Part.ofMethods.nodup_signatures harrived.sound hc (harrived.nodup c hc), ?_, ?_, ?_⟩
    · intro m hm
      constructor
      · obtain ⟨b, hb⟩ := h.exists_declared hm
        rcases h.resettlement.onMember_cases hb with ⟨x, hx, hxm, hnew⟩ | ⟨-, hstay⟩
        · obtain ⟨move, hmove, rfl⟩ := List.mem_map.1 hx
          have hkey : move.1 = m.key := hxm
          rw [hnew, ← hkey]
          exact .inr hmove
        · exact .inl hstay
      · obtain ⟨m', hm', hkey, b, ⟨⟨flags, rfl⟩, -⟩, rfl⟩ := harrived.arrived m hm
        refine ⟨_, hm', hkey, ?_⟩
        change (m.body.map _).map _ = _
        cases hbody : m.body with
        | none => rfl
        | some b =>
          have hb : b ∈ p.bodies := List.mem_filterMap.2 ⟨m, hm, hbody⟩
          exact congrArg some (Renaming.instructions_onListing _ (h.bodies b hb))
    · intro m hm m' hm' heq
      obtain ⟨b, hb⟩ := h.exists_declared hm
      obtain ⟨b', hb'⟩ := h.exists_declared hm'
      exact h.resettlement.onMember_inj hb hb' heq
    · intro m D hm hD
      exact h.resettlement.found?_onMember h.sound harrived.sound hextends
        (IsMoving holder p) (harrived.kept h.sound)
        (harrived.stems h.sound) h.clear_of_found hm hD

/-! ### Two small codebases -/

/-- A static method that returns a constant. -/
def constantMethod (owner : String) (push : Opcode) : Method :=
  { owner, name := "method1", descriptor := "()I", access := ⟨0x0009⟩
    body := some
      { listing :=
          { nodes := #[⟨.plain push, none⟩, ⟨.plain .ireturn, none⟩]
            order := #[0, 1] }
        maxStack := 1 } }

/-- A method that adds what the method returns as called through two classes. -/
def addingMethod : Method :=
  { owner := "C", name := "run", descriptor := "()I", access := ⟨0x0009⟩
    body := some
      { listing :=
          { nodes := #[⟨.invoke .invokestatic ⟨"A", "method1", "()I"⟩ false, none⟩,
              ⟨.invoke .invokestatic ⟨"lib/B", "method1", "()I"⟩ false, none⟩,
              ⟨.plain ⟨96⟩, none⟩, ⟨.plain .ireturn, none⟩]
            order := #[0, 1, 2, 3] }
        maxStack := 2 } }

/-- A class `A` with the method, a subclass `lib/B` of another package and a class that calls. -/
def withCalls (methods : List Method) : Codebase :=
  { classes :=
      [{ name := "A", superclass := some "java/lang/Object", access := ⟨0x0021⟩
         methods := [constantMethod "A" ⟨4⟩] },
        { name := "lib/B", superclass := some "A", access := ⟨0x0021⟩, methods },
        { name := "C", superclass := some "java/lang/Object", access := ⟨0x0021⟩
          methods := [addingMethod] }] }

/-- The subclass inherits the method. -/
def inheritingCalls : Codebase :=
  withCalls []

/-- The subclass hides the method by one of its own. -/
def hidingCalls : Codebase :=
  withCalls [constantMethod "lib/B" ⟨5⟩]

/-- The method of `A` moves, and that of the other package stays. -/
theorem plannedMoves_withCalls {methods : List Method}
    (hmethods : ∀ m ∈ methods, ∃ push, m = constantMethod "lib/B" push) :
    plannedMoves "H" (withCalls methods) = [(⟨"A", "method1", "()I"⟩, "H")] := by
  have hall : (withCalls methods).methods = constantMethod "A" ⟨4⟩ :: methods ++ [addingMethod] := by
    simp [Codebase.methods, withCalls]
  have hcalled : (calledNames (withCalls methods)).contains "method1" = true := by
    rw [Std.HashSet.contains_iff_mem, mem_calledNames]
    refine ⟨_, List.mem_filterMap.2 ⟨addingMethod, ?_, rfl⟩, .invoke .invokestatic
      ⟨"A", "method1", "()I"⟩ false, List.mem_cons_self, rfl⟩
    rw [hall]
    simp
  -- Both constant methods are called by their name, so a home is one for reasons of packages only.
  have hconstant : ∀ s ∈ staticMethods (withCalls methods), s.called = true ∧
      (s.key = ⟨"A", "method1", "()I"⟩ ∨ s.key = ⟨"lib/B", "method1", "()I"⟩) := by
    intro s hs
    obtain ⟨c, hc, -, d, hd, -, hname, b, -, rfl⟩ := mem_staticMethods.1 hs
    have hdmem : d ∈ (withCalls methods).methods := List.mem_flatMap.2 ⟨c, hc, hd⟩
    rw [hall, List.mem_append, List.mem_cons, List.mem_singleton] at hdmem
    rcases hdmem with (rfl | hd) | rfl
    · exact ⟨hcalled, .inl rfl⟩
    · obtain ⟨push, rfl⟩ := hmethods d hd
      exact ⟨hcalled, .inr rfl⟩
    · exact absurd hname (by decide)
  refine plannedMoves_eq_singleton (fun k t => ?_) fun m hm heq => ?_
  · rw [getElem?_methodPlan_of_called fun s hs => (hconstant s hs).1, and_comm, and_congr_left_iff]
    rintro rfl
    constructor
    · rintro ⟨s, hs, -, rfl, -, hpackage⟩
      rcases (hconstant s hs).2 with h | h
      · exact h
      · rw [h] at hpackage
        exact absurd hpackage (by decide)
    · rintro rfl
      refine ⟨_, mem_staticMethods.2 ⟨_, List.mem_cons_self, rfl,
        constantMethod "A" ⟨4⟩, List.mem_cons_self, by decide, by decide, _, rfl, rfl⟩, ?_, rfl,
        by decide, by decide⟩
      rfl
  · rw [hall, List.mem_append, List.mem_cons, List.mem_singleton] at hm
    rcases hm with (rfl | hm) | rfl
    · exact absurd heq (by decide)
    · obtain ⟨push, rfl⟩ := hmethods m hm
      exact absurd (congrArg Member.owner heq) (by simp [constantMethod, Method.key, Member.withOwner])
    · exact absurd heq (by decide)

/-- The call may move. -/
theorem rehomable_inheritingCalls : Rehomable "H" inheritingCalls := by
  have hsound : inheritingCalls.Sound := ⟨by decide, by decide, by decide⟩
  have hplanned : ∀ move ∈ plannedMoves "H" inheritingCalls,
      move.1 = ⟨"A", "method1", "()I"⟩ := by
    rw [inheritingCalls, plannedMoves_withCalls (by simp)]
    simp
  have honly : ∀ d ∈ inheritingCalls.declarations, d.1.name = "method1" →
      d.1 = ⟨"A", "method1", "()I"⟩ := by decide
  refine ⟨hsound, by decide, by decide, ?_, ?_, by decide⟩
  · intro move hmove d hd hfamily
    rw [hplanned move hmove] at hfamily ⊢
    obtain ⟨c, hc, hmem⟩ := List.mem_flatMap.1 hd
    obtain ⟨φ, hφ⟩ := Option.isSome_iff_exists.1
      (Families.isSome_family?_of_declared hc (mem_declared_of_members hmem))
    exact honly d hd (Families.eq_of_family?_eq hφ (hfamily ▸ hφ)).1
  · intro move hmove o D _ hD
    rw [hplanned move hmove] at hD ⊢
    obtain ⟨-, hDm, b, hb, -⟩ := hsound.declared_of_found hD
    exact honly _ hb (congrArg Member.name hDm)

/-- The call is found under its new name, also through the class that inherits the method. -/
theorem found?_moveStaticMethods_inheritingCalls :
    Rehomable "H" inheritingCalls ∧
    plannedMoves "H" inheritingCalls = [(⟨"A", "method1", "()I"⟩, "H")] ∧
    inheritingCalls.found? ⟨"lib/B", "method1", "()I"⟩ = some ⟨"A", "method1", "()I"⟩ ∧
    ∃ (n : Nat) (r : Renaming) (p' : Codebase),
      moveStaticMethods "H" inheritingCalls = { result := .ok n, codebase := p' } ∧
      p'.found? (r.onMember ⟨"lib/B", "method1", "()I"⟩) =
        some (r.onMember ⟨"A", "method1", "()I"⟩) ∧
      ∃ m ∈ p'.methods, m.key = r.onMember ⟨"A", "method1", "()I"⟩ ∧
        m.body.map (·.listing.instructions) = some [.plain ⟨4⟩, .plain .ireturn] := by
  have h := rehomable_inheritingCalls
  have hB : inheritingCalls.found? ⟨"lib/B", "method1", "()I"⟩ =
      some ⟨"A", "method1", "()I"⟩ := by
    -- The class of another package has no method of that name itself, so the one it inherits is
    -- found.
    have hparent := h.sound.supertype_mem_ancestors (List.mem_cons_of_mem _ List.mem_cons_self)
      List.mem_cons_self (List.mem_cons_self : "A" ∈ ["A"])
    refine h.sound.found?_eq_of_unique hparent (by decide) fun n _ hshows => ?_
    obtain ⟨b, hb, -⟩ := Codebase.Sound.shows_eq_true_iff.1 hshows
    have honly : ∀ d ∈ inheritingCalls.declarations, d.1.name = "method1" → d.1.owner = "A" := by
      decide
    exact honly _ hb rfl
  obtain ⟨n, r, p', heq, -, himage, -, hfound⟩ := found?_moveStaticMethods h
  obtain ⟨-, m, hm, hkey, hbody⟩ := himage (constantMethod "A" ⟨4⟩)
    (List.mem_flatMap.2 ⟨_, List.mem_cons_self, List.mem_cons_self⟩)
  exact ⟨h, plannedMoves_withCalls (by simp), hB, n, r, p', heq, hfound _ _ (by decide) hB, m, hm,
    hkey, hbody⟩

/-- Both references are linked, and the new one of the method that moves is written for both. -/
theorem onMember_hidingCalls :
    (methodNames "H" hidingCalls).onMember ⟨"A", "method1", "()I"⟩ = ⟨"H", "method1", "()I"⟩ ∧
    (methodNames "H" hidingCalls).onMember ⟨"lib/B", "method1", "()I"⟩ =
      ⟨"H", "method1", "()I"⟩ ∧
    (methodNames "H" hidingCalls).onMember ⟨"C", "run", "()I"⟩ = ⟨"C", "run", "()I"⟩ := by
  have hsound : hidingCalls.Sound := ⟨by decide, by decide, by decide⟩
  have hA : hidingCalls.classes[0] ∈ hidingCalls.classes := List.mem_cons_self
  have hB : hidingCalls.classes[1] ∈ hidingCalls.classes := List.mem_cons_of_mem _ List.mem_cons_self
  -- The two methods of one name are linked, since one class inherits from the other.
  have hlink : ((⟨"A", "method1", "()I"⟩ : Member), ⟨"lib/B", "method1", "()I"⟩) ∈
      Families.links hidingCalls :=
    mem_links hsound.distinct hB hA
      (hsound.supertype_mem_ancestors hB hA (List.mem_cons_self : "A" ∈ ["A"])) (by decide)
      (by decide : (⟨"A", "method1", "()I"⟩ : Member) ∈ inheritable hidingCalls.classes[0])
  obtain ⟨hsome, hfamily⟩ := Families.family?_eq_of_link hlink
  obtain ⟨φ, hφ⟩ := Option.isSome_iff_exists.1 hsome
  have hlinkedA := (Families.mem_linked_iff hφ).2 hφ
  have hlinkedB := (Families.mem_linked_iff hφ).2 (hfamily ▸ hφ)
  have hother : (⟨"C", "run", "()I"⟩ : Member) ∉
      (Families.ofCodebase hidingCalls).linked ⟨"A", "method1", "()I"⟩ := fun hmem =>
    absurd (Families.eq_of_family?_eq hφ ((Families.mem_linked_iff hφ).1 hmem)).1 (by decide)
  have hplanned : plannedMoves "H" hidingCalls = [(⟨"A", "method1", "()I"⟩, "H")] :=
    plannedMoves_withCalls (by simp)
  rw [methodNames, newReferences, hplanned, Renaming.onMember_ofFamilies,
    Renaming.onMember_ofFamilies, Renaming.onMember_ofFamilies]
  simp [movedTo, Member.withOwner, hlinkedA, hlinkedB, hother]

/-- The call of the method that stays is redirected to the one that moves. -/
theorem moveStaticMethods_hiding :
    (hidingCalls.classes.map (·.name)).Nodup ∧
    (∀ c ∈ hidingCalls.classes, (c.methods.map fun m => (m.name, m.descriptor)).Nodup) ∧
    hidingCalls.found? ⟨"lib/B", "method1", "()I"⟩ = some ⟨"lib/B", "method1", "()I"⟩ ∧
    hidingCalls.methods.map (fun m => (m.key, m.body.map (·.listing.instructions))) =
      [(⟨"A", "method1", "()I"⟩, some [.plain ⟨4⟩, .plain .ireturn]),
        (⟨"lib/B", "method1", "()I"⟩, some [.plain ⟨5⟩, .plain .ireturn]),
        (⟨"C", "run", "()I"⟩, some [.invoke .invokestatic ⟨"A", "method1", "()I"⟩ false,
          .invoke .invokestatic ⟨"lib/B", "method1", "()I"⟩ false, .plain ⟨96⟩, .plain .ireturn])] ∧
    ∃ p', moveStaticMethods "H" hidingCalls = { result := .ok 1, codebase := p' } ∧
      p'.methods.map (fun m => (m.key, m.body.map (·.listing.instructions))) =
        [(⟨"lib/B", "method1", "()I"⟩, some [.plain ⟨5⟩, .plain .ireturn]),
          (⟨"C", "run", "()I"⟩, some [.invoke .invokestatic ⟨"H", "method1", "()I"⟩ false,
            .invoke .invokestatic ⟨"H", "method1", "()I"⟩ false, .plain ⟨96⟩, .plain .ireturn]),
          (⟨"H", "method1", "()I"⟩, some [.plain ⟨4⟩, .plain .ireturn])] := by
  have hsound : hidingCalls.Sound := ⟨by decide, by decide, by decide⟩
  have hplanned : plannedMoves "H" hidingCalls = [(⟨"A", "method1", "()I"⟩, "H")] :=
    plannedMoves_withCalls (by simp)
  have hplan : (methodPlan "H" hidingCalls).isEmpty = false := by
    rw [← Bool.not_eq_true]
    intro hempty
    rw [(moveStaticMethods_eq_self hempty).2] at hplanned
    cases hplanned
  -- The move and the publication compute; the calls are rewritten by the references found above.
  have hmoved : ∃ q, relocate (withDestinations "H" hidingCalls) (plannedMoves "H" hidingCalls) =
        ([], .ok (1, q)) ∧ ((plannedMoves "H" hidingCalls).foldl publishMoved q).classes.map
          (fun c => (c.name, c.methods)) = [("A", []), ("lib/B", [constantMethod "lib/B" ⟨5⟩]),
            ("C", [addingMethod]), ("H", [constantMethod "A" ⟨4⟩])] := by
    rw [withDestinations, hplanned]
    exact ⟨_, rfl, rfl⟩
  obtain ⟨q, hq, hclasses⟩ := hmoved
  obtain ⟨hA, hB, hC⟩ := onMember_hidingCalls
  refine ⟨by decide, by decide, hsound.found_own (b := false) (by decide), rfl, _,
    moveStaticMethods_eq hplan hq, ?_⟩
  have himage : ∀ (owner : String) (m : Method) (k : Member) (b : Body)
      (is : List (Instruction Label)), (methodNames "H" hidingCalls).onMember m.key = k →
      m.body = some b → b.listing.instructions = is → b.listing.handles.Nodup →
      (((methodNames "H" hidingCalls).onMethod owner m).key,
        ((methodNames "H" hidingCalls).onMethod owner m).body.map (·.listing.instructions)) =
      (⟨owner, k.name, k.descriptor⟩, some (is.map (methodNames "H" hidingCalls).onInstruction)) := by
    rintro owner m _ b _ rfl hbody rfl hnodup
    refine Prod.ext rfl ?_
    change (m.body.map _).map _ = _
    rw [hbody]
    exact congrArg some (Renaming.instructions_onListing _ hnodup)
  have happly := congrArg (List.flatMap fun x : String × List Method => x.2.map fun m =>
    (((methodNames "H" hidingCalls).onMethod x.1 m).key,
      ((methodNames "H" hidingCalls).onMethod x.1 m).body.map (·.listing.instructions))) hclasses
  rw [List.flatMap_map] at happly
  rw [Codebase.methods, Renaming.apply, List.flatMap_map, List.map_flatMap]
  refine Eq.trans (List.flatMap_congr fun c _ => ?_) (happly.trans ?_)
  · change (c.methods.map _).map _ = _
    rw [List.map_map, Renaming.onClassName_ofFamilies]
    rfl
  · simp only [List.flatMap_cons, List.flatMap_nil, List.map_cons, List.map_nil, List.nil_append,
      List.cons_append]
    rw [himage "lib/B" (constantMethod "lib/B" ⟨5⟩) _ _ [.plain ⟨5⟩, .plain .ireturn] hB rfl rfl
        (by decide),
      himage "C" addingMethod _ _ [.invoke .invokestatic ⟨"A", "method1", "()I"⟩ false,
        .invoke .invokestatic ⟨"lib/B", "method1", "()I"⟩ false, .plain ⟨96⟩, .plain .ireturn] hC rfl
        rfl (by decide),
      himage "H" (constantMethod "A" ⟨4⟩) _ _ [.plain ⟨4⟩, .plain .ireturn] hA rfl rfl (by decide)]
    simp [Renaming.onInstruction, hA, hB]

end Unscramble.Tidy
