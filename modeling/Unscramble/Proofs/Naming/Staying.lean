import Unscramble.Proofs.Naming.Assignment
import Unscramble.Proofs.Naming.Relocation

/-! # What moves leave in place

Only static members move: a relocation looks at every member before it moves any, and if no member
is to move twice, what it has looked at is what moves. So a class keeps the members of its instances
and all that is no member.

Main definitions: `Class.Retains`, `NotInstance`. Main statements: `retains_relocate`,
`nodup_moves_ofCodebase`. -/

namespace Unscramble

/-- The fields of the instances of a class. -/
def Class.instanceFields (c : Class) : List Field :=
  c.fields.filter fun f => !f.isStatic

/-- The methods of the instances of a class. -/
def Class.instanceMethods (c : Class) : List Method :=
  c.methods.filter fun m => !m.isStatic

/-- A class with other static members: the members of its instances are the same, and so are its
pool and the parts that are carried along. -/
structure Class.Retains (c c' : Class) : Prop where
  /-- The pool. -/
  pool : c'.pool = c.pool
  /-- The parts that are carried along. -/
  attributes : c'.attributes = c.attributes
  /-- The fields of instances. -/
  fields : c'.instanceFields = c.instanceFields
  /-- The methods of instances. -/
  methods : c'.instanceMethods = c.instanceMethods

namespace Class.Retains

/-- A class retains what it has. -/
protected theorem refl (c : Class) : c.Retains c :=
  ⟨rfl, rfl, rfl, rfl⟩

/-- What is retained in two steps is retained. -/
protected theorem trans {c c' c'' : Class} (h : c.Retains c') (h' : c'.Retains c'') :
    c.Retains c'' :=
  ⟨h'.pool.trans h.pool, h'.attributes.trans h.attributes, h'.fields.trans h.fields,
    h'.methods.trans h.methods⟩

/-- Classes that change one by one, and then again. -/
theorem forall₂_trans {cs cs' cs'' : List Class} (h : List.Forall₂ Class.Retains cs cs')
    (h' : List.Forall₂ Class.Retains cs' cs'') : List.Forall₂ Class.Retains cs cs'' :=
  Unscramble.forall₂_trans (R := Class.Retains) (S := Class.Retains)
    (fun _ _ _ h h' => h.trans h') h h'

end Class.Retains

/-! ### Taking out the first item of a kind -/

section EraseFirst

variable {α : Type} {q r keep : α → Bool} {as : List α} {a : α}

/-- Taking out an item that is filtered out anyway. -/
theorem filter_eraseP_of_find? (h : as.find? q = some a) (ha : keep a = false) :
    (as.eraseP q).filter keep = as.filter keep := by
  induction as with
  | nil => rfl
  | cons b as ih =>
    rw [List.find?_cons] at h
    split at h
    · next hq =>
      cases h
      rw [List.eraseP_cons_of_pos hq, List.filter_cons_of_neg (by simp [ha])]
    · next hq =>
      rw [List.eraseP_cons_of_neg (by simp [hq]), List.filter_cons, List.filter_cons, ih h]

/-- Taking out an item that is not looked for. -/
theorem find?_eraseP_of_disjoint (h : ∀ a, q a = true → r a = false) :
    (as.eraseP q).find? r = as.find? r := by
  induction as with
  | nil => rfl
  | cons b as ih =>
    by_cases hq : q b = true
    · rw [List.eraseP_cons_of_pos hq, List.find?_cons_of_neg (by simp [h b hq])]
    · rw [List.eraseP_cons_of_neg hq, List.find?_cons, List.find?_cons, ih]

/-- Adding an item of a kind at the end. -/
theorem find?_append_ne {g : α → Bool} (h : (as.find? q).map g ≠ some false) (ha : g a = true) :
    ((as ++ [a]).find? q).map g ≠ some false := by
  rw [List.find?_append]
  cases hfound : as.find? q with
  | some b =>
    rw [hfound] at h
    exact h
  | none =>
    rw [Option.none_or, List.find?_singleton]
    split
    · simp [ha]
    · simp

end EraseFirst

namespace Naming

variable {p p' : Codebase} {n count : Nat} {m k : Member} {target : String} {moves : List Move}

/-! ### Moves of static members -/

/-- A reference does not name a member of instances. -/
def NotInstance (p : Codebase) (m : Member) : Prop :=
  ∀ c, p.class? m.owner = some c → isStaticIn? c m ≠ some false

/-- The member of a valid move is static. -/
theorem notInstance_of_checkMove {move : Move} (h : checkMove p move = .valid) :
    NotInstance p move.1 := by
  intro c hc hstatic
  rw [checkMove, hc, Option.bind_some, hstatic] at h
  split at h <;> cases h

/-- What a reference to no member of instances finds is static. -/
theorem NotInstance.isStatic {c : Class} (hm : NotInstance p m) (hc : p.class? m.owner = some c) :
    (∀ method, isMethod m = true → c.method? m.name m.descriptor = some method →
      method.isStatic = true) ∧
    ∀ field, isMethod m = false → c.field? m.name m.descriptor = some field →
      field.isStatic = true := by
  have hstatic := hm c hc
  rw [isStaticIn?] at hstatic
  refine ⟨fun method hmethod hfound => ?_, fun field hfield hfound => ?_⟩
  · rwa [if_pos hmethod, hfound, Option.map_some, ne_eq, Option.some_inj, Bool.not_eq_false]
      at hstatic
  · rwa [if_neg (by simp [hfield]), hfound, Option.map_some, ne_eq, Option.some_inj,
      Bool.not_eq_false] at hstatic

/-- A move of a static member leaves all instances alone. -/
theorem retains_makeMove (hm : NotInstance p m) :
    List.Forall₂ Class.Retains p.classes (makeMove (n, p) (m, target)).2.classes := by
  -- A move changes two classes, one after the other; each change keeps the instances.
  have htwo : ∀ {f g : Class → Class} {c}, p.class? m.owner = some c → c.Retains (f c) →
      (∀ d : Class, d.Retains (g d)) → List.Forall₂ Class.Retains p.classes
        ((p.modifyClass m.owner f).modifyClass target g).classes := by
    intro f g c hc hf hg
    have hfirst : List.Forall₂ Class.Retains p.classes (p.modifyClass m.owner f).classes := by
      refine forall₂_modifyFirst Class.Retains.refl fun d hd => ?_
      obtain rfl : c = d := Option.some_inj.1 (hc.symm.trans hd)
      exact hf
    have hsecond : List.Forall₂ Class.Retains (p.modifyClass m.owner f).classes
        ((p.modifyClass m.owner f).modifyClass target g).classes :=
      forall₂_modifyFirst Class.Retains.refl fun d _ => hg d
    exact Class.Retains.forall₂_trans hfirst hsecond
  -- In one class the member is taken out, in the other it is appended; it is static in both.
  rcases makeMove_cases n p m target with heq | ⟨c, hc, -, ⟨hmethod, method, hfound, heq⟩ |
    ⟨hfield, field, hfound, heq⟩⟩ <;> rw [heq]
  · exact List.forall₂_same.2 fun c _ => .refl c
  · have hstatic := (hm.isStatic hc).1 method hmethod hfound
    refine htwo hc ⟨rfl, rfl, rfl, ?_⟩ fun d => ⟨rfl, rfl, rfl, ?_⟩
    · exact filter_eraseP_of_find? hfound (by simp [hstatic])
    · simp [Class.instanceMethods, hstatic]
  · have hstatic := (hm.isStatic hc).2 field hfield hfound
    refine htwo hc ⟨rfl, rfl, ?_, rfl⟩ fun d => ⟨rfl, rfl, ?_, rfl⟩
    · exact filter_eraseP_of_find? hfound (by simp [hstatic])
    · simp [Class.instanceFields, hstatic]

/-- What is no member of an instance is none after changing a class, if the change makes none. -/
theorem notInstance_modifyClass {f : Class → Class} {name : String} (hf : ∀ c, (f c).name = c.name)
    (hk : NotInstance p k) (hstep : k.owner = name → ∀ c, isStaticIn? c k ≠ some false →
      isStaticIn? (f c) k ≠ some false) :
    NotInstance (p.modifyClass name f) k := by
  intro c hc
  rw [Codebase.class?_modifyClass hf] at hc
  split at hc
  · next howner =>
    obtain ⟨d, hd, rfl⟩ := Option.map_eq_some_iff.1 hc
    exact hstep howner d (hk d hd)
  · exact hk c hc

/-- Members of one class with different references differ in their names or descriptors. -/
theorem isNamed_eq_false (howner : k.owner = m.owner) (hne : k ≠ m) {name descriptor : String}
    (h : (name == m.name && descriptor == m.descriptor) = true) :
    (name == k.name && descriptor == k.descriptor) = false := by
  rw [Bool.and_eq_true, beq_iff_eq, beq_iff_eq] at h
  rw [← Bool.not_eq_true, Bool.and_eq_true, beq_iff_eq, beq_iff_eq, h.1, h.2]
  rintro ⟨hname, hdescriptor⟩
  refine hne ?_
  calc k = ⟨k.owner, k.name, k.descriptor⟩ := rfl
    _ = ⟨m.owner, m.name, m.descriptor⟩ := by rw [howner, hname, hdescriptor]

/-- A move of a static member leaves other references naming no member of instances. -/
theorem notInstance_makeMove (hm : NotInstance p m) (hk : NotInstance p k) (hne : k ≠ m) :
    NotInstance (makeMove (n, p) (m, target)).2 k := by
  rcases makeMove_cases n p m target with heq | ⟨c, hc, -, ⟨hmethod, method, hfound, heq⟩ |
    ⟨hfield, field, hfound, heq⟩⟩ <;> rw [heq]
  · exact hk
  -- The class it leaves has another member of that name or none, and where it arrives it is found
  -- last.
  · have hstatic := (hm.isStatic hc).1 method hmethod hfound
    refine notInstance_modifyClass (fun _ => rfl) (notInstance_modifyClass (fun _ => rfl) hk ?_) ?_
    · intro howner d hd
      have hother : ∀ e, Method.isNamed m.name m.descriptor e = true →
          Method.isNamed k.name k.descriptor e = false := fun e => isNamed_eq_false howner hne
      rw [isStaticIn?] at hd ⊢
      split
      · next hmethod =>
        rw [Class.method?, find?_eraseP_of_disjoint hother]
        rwa [if_pos hmethod] at hd
      · next hfield => rwa [if_neg hfield] at hd
    · intro _ d hd
      rw [isStaticIn?] at hd ⊢
      split
      · next hmethod =>
        rw [if_pos hmethod] at hd
        exact find?_append_ne hd hstatic
      · next hfield => rwa [if_neg hfield] at hd
  · have hstatic := (hm.isStatic hc).2 field hfield hfound
    refine notInstance_modifyClass (fun _ => rfl) (notInstance_modifyClass (fun _ => rfl) hk ?_) ?_
    · intro howner d hd
      have hother : ∀ e, Field.isNamed m.name m.descriptor e = true →
          Field.isNamed k.name k.descriptor e = false := fun e => isNamed_eq_false howner hne
      rw [isStaticIn?] at hd ⊢
      split
      · next hmethod => rwa [if_pos hmethod] at hd
      · next hfield =>
        rw [Class.field?, find?_eraseP_of_disjoint hother]
        rwa [if_neg hfield] at hd
    · intro _ d hd
      rw [isStaticIn?] at hd ⊢
      split
      · next hmethod => rwa [if_pos hmethod] at hd
      · next hfield =>
        rw [if_neg hfield] at hd
        exact find?_append_ne hd hstatic

/-- Moves of different static members leave all instances alone. -/
theorem retains_foldl_makeMove (hnodup : (moves.map (·.1)).Nodup)
    (h : ∀ move ∈ moves, NotInstance p move.1) :
    List.Forall₂ Class.Retains p.classes (moves.foldl makeMove (n, p)).2.classes := by
  induction moves generalizing n p with
  | nil => exact List.forall₂_same.2 fun c _ => .refl c
  | cons move moves ih =>
    obtain ⟨m, target⟩ := move
    obtain ⟨hm, hmoves⟩ := List.forall_mem_cons.1 h
    obtain ⟨hfresh, hnodup⟩ := List.nodup_cons.1 hnodup
    rw [List.foldl_cons]
    refine Class.Retains.forall₂_trans (retains_makeMove (n := n) hm)
      (ih hnodup fun move' hmove' => notInstance_makeMove hm (hmoves move' hmove') ?_)
    exact fun hsame => hfresh (List.mem_map.2 ⟨move', hmove', hsame⟩)

/-- A relocation of different members leaves all instances alone. -/
theorem retains_relocate (hnodup : (moves.map (·.1)).Nodup)
    (h : (relocate p moves).2 = .ok (count, p')) :
    List.Forall₂ Class.Retains p.classes p'.classes := by
  obtain ⟨valid, hvalid, hmoved⟩ := relocate_cases h
  obtain ⟨hsub, hchecked⟩ := checkMoves_spec hvalid
  have hretains := retains_foldl_makeMove (n := 0) (hnodup.sublist (hsub.map _)) fun move hmove =>
    notInstance_of_checkMove (hchecked move hmove)
  rwa [hmoved] at hretains

/-! ### Moves of a renaming -/

namespace Assignment

variable {policy : Policy} {families : Families} {present : Std.HashMap String String}
  {a : Assignment} {x : Candidate}

/-- The members that are to move are of different families, and these are decided. -/
structure MovesOnce (families : Families) (a : Assignment) : Prop where
  /-- No member moves twice. -/
  nodup : (a.moves.map (·.1)).Nodup
  /-- The family of a member that moves is decided. -/
  decided : ∀ move ∈ a.moves, ∃ φ, families.family? move.1 = some φ ∧
    a.decided.contains φ = true

/-- Following a mapping notes at most one move. -/
theorem moves_followMapping (families : Families) (present : Std.HashMap String String)
    (x : Candidate) (mapping? : Option Mapping) (a : Assignment) :
    (followMapping families present x mapping? a).decided = a.decided ∧
      ((followMapping families present x mapping? a).moves = a.moves ∨
        ∃ target, (followMapping families present x mapping? a).moves =
          (x.member, target) :: a.moves) := by
  cases mapping? with
  | none => exact ⟨rfl, .inl rfl⟩
  | some mapping =>
    have hnote : (noteMove present a x.member mapping).2.decided = a.decided ∧
        ((noteMove present a x.member mapping).2.moves = a.moves ∨
          ∃ target, (noteMove present a x.member mapping).2.moves =
            (x.member, target) :: a.moves) := by
      rw [noteMove]
      split
      · exact ⟨rfl, .inl rfl⟩
      · split
        · exact ⟨rfl, .inr ⟨_, rfl⟩⟩
        · exact ⟨rfl, .inl rfl⟩
    rw [followMapping]
    dsimp only
    split <;> exact hnote

/-- Following a mapping to a class that is there notes a move. -/
theorem moves_followMapping_relocate {owner name target : String}
    (h : present[owner]? = some target) (a : Assignment) :
    (followMapping families present x (some (.relocate owner name)) a).moves =
      (x.member, target) :: a.moves := by
  have hnote : noteMove present a x.member (.relocate owner name) =
      (some owner, { a with moves := (x.member, target) :: a.moves }) := by
    rw [noteMove]
    dsimp only [Mapping.owner?]
    rw [h]
  rw [followMapping]
  dsimp only
  rw [hnote]
  split <;> rfl

/-- Naming a member notes no family twice. -/
theorem MovesOnce.nameMember (ha : MovesOnce families a) (x : Candidate) :
    MovesOnce families (nameMember families present a x) := by
  cases hφ : families.family? x.member with
  | none =>
    rw [Assignment.nameMember, hφ]
    exact ha
  | some φ =>
    rw [nameMember_of_family hφ]
    split
    · exact ha
    · next hundecided =>
      have hframe := chooses_chooseMapping (markDecided φ a) x
      have hdecided : (chooseMapping (markDecided φ a) x).2.decided = a.decided.insert φ :=
        hframe.decided
      have hmoves : (chooseMapping (markDecided φ a) x).2.moves = a.moves := hframe.moves
      obtain ⟨hsame, hnoted⟩ := moves_followMapping families present x
        (chooseMapping (markDecided φ a) x).1 (chooseMapping (markDecided φ a) x).2
      have hkept : ∀ move ∈ a.moves, ∃ ψ, families.family? move.1 = some ψ ∧
          (a.decided.insert φ).contains ψ = true := by
        intro move hmove
        obtain ⟨ψ, hψ, hin⟩ := ha.decided move hmove
        exact ⟨ψ, hψ, by simp [hin]⟩
      dsimp only
      rcases hnoted with hnoted | ⟨target, hnoted⟩
      · constructor
        · rw [hnoted, hmoves]
          exact ha.nodup
        · rw [hnoted, hmoves, hsame, hdecided]
          exact hkept
      -- A family is marked once a member of it has moved, so no second member moves.
      · constructor
        · rw [hnoted, hmoves, List.map_cons, List.nodup_cons]
          refine ⟨fun hmem => ?_, ha.nodup⟩
          obtain ⟨move, hmove, heq⟩ := List.mem_map.1 hmem
          obtain ⟨ψ, hψ, hin⟩ := ha.decided move hmove
          rw [heq, hφ, Option.some_inj] at hψ
          exact hundecided (hψ ▸ hin)
        · rw [hnoted, hmoves, hsame, hdecided]
          exact List.forall_mem_cons.2 ⟨⟨φ, hφ, by simp⟩, hkept⟩

/-- Naming a class notes nothing. -/
theorem MovesOnce.nameClass (ha : MovesOnce families a) (defaultPackage : String) (c : Class) :
    MovesOnce families (nameClass policy defaultPackage a c) := by
  have hframe := namesClass_nameClass policy defaultPackage a c
  constructor
  · rw [hframe.moves]
    exact ha.nodup
  · rw [hframe.moves, hframe.decided]
    exact ha.decided

/-- A renaming moves no member twice. -/
theorem nodup_moves_ofCodebase (policy : Policy) (defaultPackage : String) (p : Codebase)
    (table : Table) :
    ((ofCodebase policy defaultPackage p table).moves.map (·.1)).Nodup := by
  have hclasses : MovesOnce (Families.ofCodebase p)
      (p.classes.foldl (nameClass policy defaultPackage) (start table)) :=
    List.foldlRecOn p.classes _ ⟨.nil, by simp [start]⟩ fun a ha c _ => ha.nameClass defaultPackage c
  refine (List.foldlRecOn p.classes (nameMembers policy (Families.ofCodebase p) _)
    (motive := MovesOnce (Families.ofCodebase p)) hclasses fun a ha c _ => ?_).nodup
  rw [nameMembers]
  exact List.foldlRecOn _ _ ha fun a ha x _ => ha.nameMember x

end Assignment

end Naming

end Unscramble
