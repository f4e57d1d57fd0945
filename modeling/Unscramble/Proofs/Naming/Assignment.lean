import Unscramble.Naming.Assignment
import Unscramble.Proofs.Naming.Table

/-! # Steps of an assignment

The steps of an assignment of names, each as a choice and what is done with it. A table that moves
no member gives an assignment that moves none, so a renaming through such a table succeeds.

Main definitions: `NamesClass`, `Chooses`. Main statements: `namesClass_nameClass`,
`chooses_chooseMapping`, `nameMember_of_family`, `rename_result_of_stationary`. -/

namespace Unscramble.Naming

/-- A table stays as it is, or it gets a new name for a key that it does not know. -/
def Table.Learns (key : String) (t t' : Table) : Prop :=
  t' = t ∨ t.get? key = none ∧ ∃ name, t' = t.put key (.rename name)

/-- What a table knows stays. -/
theorem Table.Learns.get? {key : String} {t t' : Table} (h : t.Learns key t') {k : String}
    {old : Mapping} (hget : t.get? k = some old) : t'.get? k = some old := by
  rcases h with rfl | ⟨hnone, name, rfl⟩
  · exact hget
  · have hne : k ≠ key := by
      rintro rfl
      rw [hnone] at hget
      cases hget
    rw [Table.get?_put, if_neg hne, hget]

namespace Assignment

variable {policy : Policy} {families : Families} {present : Std.HashMap String String}
  {x : Candidate} {a : Assignment}

/-- The generated name of a class. -/
def freshClassName (a : Assignment) (c : Class) : String :=
  Text.throughLast '/' c.name ++ "class" ++ toString (a.classCounter + 1)

/-- The name of a class is what the table says, its own, or a generated one that the table gets. -/
theorem chooseClassName_cases (policy : Policy) (a : Assignment) (c : Class) :
    (∃ mapping, a.table.get? (classKey c) = some mapping ∧
      chooseClassName policy a c = (mapping.name, a)) ∨
    (a.table.get? (classKey c) = none ∧ policy.ofClass (simpleName (classKey c)) = false ∧
      chooseClassName policy a c = (c.name, a)) ∨
    (a.table.get? (classKey c) = none ∧ policy.ofClass (simpleName (classKey c)) = true ∧
      chooseClassName policy a c = (a.freshClassName c,
        { a with
          classCounter := a.classCounter + 1
          table := a.table.put (classKey c) (.rename (a.freshClassName c)) })) := by
  cases hget : a.table.get? (classKey c) with
  | some mapping => exact .inl ⟨mapping, rfl, by simp [chooseClassName, hget]⟩
  | none =>
    cases hpolicy : policy.ofClass (simpleName (classKey c)) with
    | false => exact .inr (.inl ⟨rfl, rfl, by simp [chooseClassName, hget, hpolicy]⟩)
    | true =>
      refine .inr (.inr ⟨rfl, rfl, ?_⟩)
      simp [chooseClassName, hget, hpolicy, Table.insert, freshClassName]

/-- Gives a class its chosen name. -/
def giveClassName (defaultPackage : String) (c : Class) (chosen : String) (a : Assignment) :
    Assignment :=
  let new := holderName chosen defaultPackage
  let a := { a with classKeys := a.classKeys.insert c.name (classKey c) }
  if new == c.name then a else
    { a with
      names := a.names.renameClass c.name new
      summary := { a.summary with classes := a.summary.classes + 1 } }

/-- A class is given the name that is chosen for it. -/
theorem nameClass_eq (policy : Policy) (defaultPackage : String) (a : Assignment) (c : Class) :
    nameClass policy defaultPackage a c =
      giveClassName defaultPackage c (chooseClassName policy a c).1 (chooseClassName policy a c).2 :=
  rfl

/-- What naming a class does to what is not the name of a class. -/
structure NamesClass (c : Class) (a b : Assignment) : Prop where
  /-- The table learns a name for the class at most. -/
  table : a.table.Learns (classKey c) b.table
  /-- The class gets its key. -/
  classKeys : b.classKeys = a.classKeys.insert c.name (classKey c)
  /-- The names of members stay. -/
  members : b.names.members = a.names.members
  /-- The same families are decided. -/
  decided : b.decided = a.decided
  /-- The same moves are noted. -/
  moves : b.moves = a.moves

/-- Giving a name to a class leaves what members are given. -/
theorem giveClassName_frame (defaultPackage : String) (c : Class) (chosen : String)
    (a : Assignment) :
    let b := giveClassName defaultPackage c chosen a
    b.table = a.table ∧ b.classKeys = a.classKeys.insert c.name (classKey c) ∧
      b.names.members = a.names.members ∧ b.decided = a.decided ∧ b.moves = a.moves := by
  have hmembers : ∀ new, (a.names.renameClass c.name new).members = a.names.members := by
    intro new
    rw [Renaming.renameClass]
    split <;> rfl
  rw [giveClassName]
  split
  · exact ⟨rfl, rfl, rfl, rfl, rfl⟩
  · exact ⟨rfl, rfl, hmembers _, rfl, rfl⟩

/-- Naming a class names it and leaves the others. -/
theorem namesClass_nameClass (policy : Policy) (defaultPackage : String) (a : Assignment)
    (c : Class) : NamesClass c a (nameClass policy defaultPackage a c) := by
  obtain ⟨htable, hkeys, hmembers, hdecided, hmoves⟩ :=
    giveClassName_frame defaultPackage c (chooseClassName policy a c).1 (chooseClassName policy a c).2
  rw [← nameClass_eq] at htable hkeys hmembers hdecided hmoves
  rcases chooseClassName_cases policy a c with ⟨mapping, -, h⟩ | ⟨-, -, h⟩ | ⟨hnone, -, h⟩ <;>
    rw [h] at htable hkeys hmembers hdecided hmoves
  · exact ⟨.inl htable, hkeys, hmembers, hdecided, hmoves⟩
  · exact ⟨.inl htable, hkeys, hmembers, hdecided, hmoves⟩
  · exact ⟨.inr ⟨hnone, _, htable⟩, hkeys, hmembers, hdecided, hmoves⟩

/-- What happens to a member is what the table says, nothing, or a generated name that the table
gets. -/
theorem chooseMapping_cases (a : Assignment) (x : Candidate) :
    (∃ mapping, a.table.get? x.key = some mapping ∧ chooseMapping a x = (some mapping, a)) ∨
    (a.table.get? x.key = none ∧ x.obfuscated = false ∧ chooseMapping a x = (none, a)) ∨
    (a.table.get? x.key = none ∧ isMethod x.member = true ∧
      chooseMapping a x = (some (.rename ("method" ++ toString (a.methodCounter + 1))),
        { a with
          methodCounter := a.methodCounter + 1
          table := a.table.put x.key (.rename ("method" ++ toString (a.methodCounter + 1))) })) ∨
    (a.table.get? x.key = none ∧ isMethod x.member = false ∧
      chooseMapping a x = (some (.rename ("field" ++ toString (a.fieldCounter + 1))),
        { a with
          fieldCounter := a.fieldCounter + 1
          table := a.table.put x.key (.rename ("field" ++ toString (a.fieldCounter + 1))) })) := by
  -- The table decides; where it says nothing, a name that is not obfuscated is kept, and the kind
  -- picks the counter.
  cases hget : a.table.get? x.key with
  | some mapping => exact .inl ⟨mapping, rfl, by simp [chooseMapping, hget]⟩
  | none =>
    cases hobfuscated : x.obfuscated with
    | false => exact .inr (.inl ⟨rfl, rfl, by simp [chooseMapping, hget, hobfuscated]⟩)
    | true =>
      cases hmethod : isMethod x.member with
      | true =>
        refine .inr (.inr (.inl ⟨rfl, rfl, ?_⟩))
        simp [chooseMapping, hget, hobfuscated, hmethod, Table.insert]
      | false =>
        refine .inr (.inr (.inr ⟨rfl, rfl, ?_⟩))
        simp [chooseMapping, hget, hobfuscated, hmethod, Table.insert]

/-- What choosing a name for a member leaves alone. -/
structure Chooses (x : Candidate) (a b : Assignment) : Prop where
  /-- The table learns a name for the member at most. -/
  table : a.table.Learns x.key b.table
  /-- The keys of the classes stay. -/
  classKeys : b.classKeys = a.classKeys
  /-- All names stay. -/
  names : b.names = a.names
  /-- The same families are decided. -/
  decided : b.decided = a.decided
  /-- The same moves are noted. -/
  moves : b.moves = a.moves

/-- Choosing a name for a member leaves all but the table alone. -/
theorem chooses_chooseMapping (a : Assignment) (x : Candidate) :
    Chooses x a (chooseMapping a x).2 := by
  rcases chooseMapping_cases a x with
    ⟨mapping, -, h⟩ | ⟨-, -, h⟩ | ⟨hnone, -, h⟩ | ⟨hnone, -, h⟩ <;> rw [h]
  · exact ⟨.inl rfl, rfl, rfl, rfl, rfl⟩
  · exact ⟨.inl rfl, rfl, rfl, rfl, rfl⟩
  · exact ⟨.inr ⟨hnone, _, rfl⟩, rfl, rfl, rfl, rfl⟩
  · exact ⟨.inr ⟨hnone, _, rfl⟩, rfl, rfl, rfl, rfl⟩

/-- Does to the family of a member what a mapping says, if there is one. -/
def followMapping (families : Families) (presentNames : Std.HashMap String String) (x : Candidate)
    (mapping? : Option Mapping) (a : Assignment) : Assignment :=
  match mapping? with
  | none => a
  | some mapping =>
    let (target, a) := noteMove presentNames a x.member mapping
    let isNew := mapping.name != x.member.name || target.isSome
    let a := if isNew then a.countMember x.member else a
    mapFamily families a x.member mapping.name target

/-- Notes that the name of a family is decided. -/
def markDecided (family : Nat) (a : Assignment) : Assignment :=
  { a with decided := a.decided.insert family }

/-- A family is named by the first of its members that is met. -/
theorem nameMember_of_family {family : Nat} (hfamily : families.family? x.member = some family)
    (a : Assignment) :
    nameMember families present a x =
      if a.decided.contains family then a else
        let choice := chooseMapping (markDecided family a) x
        followMapping families present x choice.1 choice.2 := by
  rw [nameMember, hfamily]
  rfl

/-! ### Tables that move nothing -/

end Assignment

/-- No entry of the table moves a member. -/
def Table.Stationary (t : Table) : Prop :=
  ∀ key mapping, t.get? key = some mapping → mapping.owner? = none

/-- A table is stationary if none of its entries has an owner. -/
theorem Table.stationary_of_forall {t : Table} (h : ∀ e ∈ t.entries, e.2.owner? = none) :
    t.Stationary := by
  intro key mapping hget
  obtain ⟨front, back, hentries, -⟩ := List.lookup_eq_some_iff.1 hget
  exact h (key, mapping) (by simp [hentries])

/-- A new name moves nothing. -/
theorem Table.Stationary.learns {t t' : Table} (h : t.Stationary) {key : String}
    (hlearns : t.Learns key t') : t'.Stationary := by
  rcases hlearns with rfl | ⟨-, name, rfl⟩
  · exact h
  · intro k mapping hget
    rw [get?_put] at hget
    split at hget
    · cases hget
      rfl
    · exact h k mapping hget

/-- Nothing is to move, now or through the table. -/
structure Assignment.AtRest (a : Assignment) : Prop where
  /-- The table moves nothing. -/
  stationary : a.table.Stationary
  /-- No move is noted. -/
  moves : a.moves = []

namespace Assignment

/-- Naming a class makes nothing move. -/
theorem AtRest.nameClass (ha : a.AtRest) (defaultPackage : String) (c : Class) :
    (nameClass policy defaultPackage a c).AtRest := by
  have hframe := namesClass_nameClass policy defaultPackage a c
  exact ⟨ha.stationary.learns hframe.table, hframe.moves.trans ha.moves⟩

/-- What is chosen moves nothing. -/
theorem AtRest.owner?_chooseMapping (ha : a.AtRest) :
    ∀ mapping ∈ (chooseMapping a x).1, mapping.owner? = none := by
  rcases chooseMapping_cases a x with ⟨mapping, hget, h⟩ | ⟨-, -, h⟩ | ⟨-, -, h⟩ | ⟨-, -, h⟩ <;>
    rw [h]
  · simpa using ha.stationary x.key mapping hget
  · simp
  · rintro _ ⟨⟩
    rfl
  · rintro _ ⟨⟩
    rfl

/-- A mapping that moves nothing leaves the moves alone. -/
theorem AtRest.followMapping (ha : a.AtRest) {mapping? : Option Mapping}
    (h : ∀ mapping ∈ mapping?, mapping.owner? = none) :
    (followMapping families present x mapping? a).AtRest := by
  cases mapping? with
  | none => exact ha
  | some mapping =>
    rw [Assignment.followMapping, noteMove, h mapping rfl]
    dsimp only
    split <;> exact ⟨ha.stationary, ha.moves⟩

/-- Naming a member makes nothing move. -/
theorem AtRest.nameMember (ha : a.AtRest) (x : Candidate) :
    (nameMember families present a x).AtRest := by
  cases hfamily : families.family? x.member with
  | none =>
    rw [Assignment.nameMember, hfamily]
    exact ha
  | some family =>
    rw [nameMember_of_family hfamily]
    split
    · exact ha
    · have hmarked : (markDecided family a).AtRest := ⟨ha.stationary, ha.moves⟩
      have hframe := chooses_chooseMapping (markDecided family a) x
      refine AtRest.followMapping ?_ hmarked.owner?_chooseMapping
      exact ⟨hmarked.stationary.learns hframe.table, hframe.moves.trans hmarked.moves⟩

/-- A table that moves nothing gives an assignment that moves nothing. -/
theorem atRest_ofCodebase {table : Table} (h : table.Stationary) (defaultPackage : String)
    (p : Codebase) : (ofCodebase policy defaultPackage p table).AtRest := by
  have hclasses : (p.classes.foldl (nameClass policy defaultPackage) (start table)).AtRest :=
    List.foldlRecOn p.classes _ ⟨h, rfl⟩ fun a ha c _ => ha.nameClass defaultPackage c
  refine List.foldlRecOn p.classes _ hclasses fun a ha c _ => ?_
  rw [nameMembers]
  exact List.foldlRecOn _ _ ha fun a ha x _ => ha.nameMember x

end Assignment

/-- The codebase under the names of an assignment, with what changed. -/
theorem rename_result (policy : Policy) (defaultPackage : String) (p : Codebase) (table : Table) :
    let a := Assignment.ofCodebase policy defaultPackage p table
    (rename policy defaultPackage p table).result =
      (relocate p a.moves.reverse).2.map fun moved =>
        ({ a.summary with relocated := moved.1, newEntries := a.table.size - table.size },
          recordSources ((p.classes.map fun c => (c.name, a.names.onClassName c.name)).filterMap
            fun (old, new) => if new == old then none else some new) (a.names.apply moved.2)) :=
  rfl

/-- A renaming through a table that moves nothing succeeds. -/
theorem rename_result_of_stationary (policy : Policy) (defaultPackage : String) (p : Codebase)
    {table : Table} (h : table.Stationary) :
    let a := Assignment.ofCodebase policy defaultPackage p table
    ∃ s, (rename policy defaultPackage p table).result =
      .ok (s, recordSources ((p.classes.map fun c => (c.name, a.names.onClassName c.name)).filterMap
        fun (old, new) => if new == old then none else some new) (a.names.apply p)) := by
  intro a
  have hmoves : a.moves = [] := (Assignment.atRest_ofCodebase h defaultPackage p).moves
  rw [rename_result]
  exact ⟨_, by rw [hmoves]; rfl⟩

end Unscramble.Naming
