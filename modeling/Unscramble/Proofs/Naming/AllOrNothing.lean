import Unscramble.Naming.InPlace
import Unscramble.Proofs.Naming.Transfer

/-! # All or nothing

Edits in place come to what `relocate` and `rename` tell, and a failure leaves the codebase alone:
the check edits nothing, and the moves that it admits do not fail, since a class that is there when a
member leaves for it is still there when the member arrives.

Main statements: `on_relocateInPlace`, `on_renameInPlace`, `relocateInPlace_all_or_nothing`. -/

namespace Unscramble.Naming

variable {s s' : Site} {moves : List Move} {move : Move}

/-! ### Series of edits -/

section Edit

variable {α β : Type} {e : Edit α} {f : α → Edit β} {a : α} {failure : Error}

/-- Edits after others that succeed start with what these leave. -/
theorem Edit.on_bind_ok (h : e.on s = (.ok a, s')) (f : α → Edit β) :
    (e >>= f).on s = (f a).on s' := by
  unfold Edit.on at h ⊢
  rw [ExceptT.run_bind, StateT.run_bind, h]
  rfl

/-- Edits after others that fail do not happen. -/
theorem Edit.on_bind_error (h : e.on s = (.error failure, s')) (f : α → Edit β) :
    (e >>= f).on s = (.error failure, s') := by
  unfold Edit.on at h ⊢
  rw [ExceptT.run_bind, StateT.run_bind, h]
  rfl

end Edit

/-! ### The check -/

/-- The check warns and changes nothing else, whatever it says. -/
theorem on_admitted (moves : List Move) (s : Site) :
    (admitted moves).on s = ((checkMoves s.codebase moves).2,
      { s with warnings := s.warnings ++ (checkMoves s.codebase moves).1 }) := by
  -- On the moves, for every site: a warning is added at once, and an invalid move ends the check.
  induction moves generalizing s with
  | nil =>
    show (Except.ok [], s) = _
    rw [checkMoves, List.append_nil]
  | cons move moves ih =>
    have hget : (get : Edit Site).on s = (.ok s, s) := rfl
    rw [admitted, Edit.on_bind_ok hget, checkMoves]
    cases checkMove s.codebase move with
    | notStatic =>
      show (Except.error _, s) = _
      rw [List.append_nil]
    | noTarget =>
      have hwarn : (Edit.warn (.missingTarget move.2 move.1)).on s =
          (.ok (), { s with warnings := s.warnings ++ [.missingTarget move.2 move.1] }) := rfl
      dsimp only
      rw [Edit.on_bind_ok hwarn, ih, List.append_assoc]
      rfl
    | absent => exact ih s
    | valid =>
      dsimp only
      cases hrest : (checkMoves s.codebase moves).2 with
      | error failure =>
        have hfails := ih s
        rw [hrest] at hfails
        exact Edit.on_bind_error hfails _
      | ok valid =>
        have hgoes := ih s
        rw [hrest] at hgoes
        exact Edit.on_bind_ok hgoes _

/-- The check fails at a member of instances. -/
theorem checkMoves_error {p : Codebase} {failure : Error}
    (h : (checkMoves p moves).2 = .error failure) :
    ∃ move ∈ moves, checkMove p move = .notStatic ∧
      failure = .nonStaticRelocation move.1.text := by
  -- The check ends at the first move of a member of instances.
  induction moves with
  | nil => cases h
  | cons move moves ih =>
    rw [checkMoves] at h
    cases hcheck : checkMove p move with
    | notStatic =>
      rw [hcheck] at h
      cases h
      exact ⟨move, List.mem_cons_self, hcheck, rfl⟩
    | noTarget | absent =>
      rw [hcheck] at h
      obtain ⟨found, hmem, hfound⟩ := ih h
      exact ⟨found, List.mem_cons_of_mem move hmem, hfound⟩
    | valid =>
      rw [hcheck] at h
      dsimp only at h
      cases hrest : (checkMoves p moves).2 with
      | ok valid =>
        rw [hrest] at h
        cases h
      | error failure' =>
        rw [hrest] at h
        cases h
        obtain ⟨found, hmem, hfound⟩ := ih hrest
        exact ⟨found, List.mem_cons_of_mem move hmem, hfound⟩

/-! ### The moves -/

/-- A member arrives in a class that is there. -/
theorem on_settle {target : String} (htarget : (s.codebase.class? target).isSome = true)
    (f : Class → Class) :
    (settle target f).on s = (.ok 1, { s with codebase := s.codebase.modifyClass target f }) := by
  obtain ⟨c, hc⟩ := Option.isSome_iff_exists.1 htarget
  have hclass : (Edit.class? target).on s = (.ok (some c), s) := by rw [← hc]; rfl
  unfold settle
  rw [Edit.on_bind_ok hclass]
  rfl

/-- A member leaves one class and arrives in another one that is there. -/
theorem on_modifyClass_settle {target : String} {f : Class → Class}
    (hname : ∀ c, (f c).name = c.name) (htarget : (s.codebase.class? target).isSome = true)
    (owner : String) (g : Class → Class) :
    (do Edit.modifyClass owner f; settle target g : Edit Nat).on s = (.ok 1,
      { s with codebase := (s.codebase.modifyClass owner f).modifyClass target g }) := by
  have hleft : (Edit.modifyClass owner f).on s =
      (.ok (), { s with codebase := s.codebase.modifyClass owner f }) := rfl
  have hstill : ((s.codebase.modifyClass owner f).class? target).isSome = true :=
    (Codebase.isSome_class?_modifyClass hname _ _ _).trans htarget
  rw [Edit.on_bind_ok hleft, on_settle hstill]

/-- A move is made in place as it is told, if the class to move to is there. -/
theorem on_carry (htarget : (s.codebase.class? move.2).isSome = true) (n : Nat) :
    ∃ made, (carry move).on s =
        (.ok made, { s with codebase := (makeMove (n, s.codebase) move).2 }) ∧
      (makeMove (n, s.codebase) move).1 = n + made := by
  obtain ⟨m, target⟩ := move
  have hclass : (Edit.class? m.owner).on s = (.ok (s.codebase.class? m.owner), s) := rfl
  unfold carry makeMove
  dsimp only
  -- A move that is not to be made, by its class or its member, counts nothing and changes nothing.
  by_cases hne : (m.owner == target) = true
  · rw [if_pos hne, if_pos hne]
    exact ⟨0, rfl, rfl⟩
  rw [if_neg hne, if_neg hne, Edit.on_bind_ok hclass]
  cases howner : s.codebase.class? m.owner with
  | none => exact ⟨0, rfl, rfl⟩
  | some owner =>
    dsimp only
    by_cases hkind : isMethod m = true
    · rw [if_pos hkind, if_pos hkind]
      cases owner.method? m.name m.descriptor with
      | none => exact ⟨0, rfl, rfl⟩
      | some method =>
        refine ⟨1, on_modifyClass_settle ?_ htarget _ _, rfl⟩
        exact fun c => rfl
    · rw [if_neg hkind, if_neg hkind]
      cases owner.field? m.name m.descriptor with
      | none => exact ⟨0, rfl, rfl⟩
      | some field =>
        refine ⟨1, on_modifyClass_settle ?_ htarget _ _, rfl⟩
        exact fun c => rfl

/-- Carrying out moves in place is making them. -/
theorem on_carryAll (htargets : ∀ move ∈ moves, (s.codebase.class? move.2).isSome = true)
    (n : Nat) : (carryAll n moves).on s = (.ok (moves.foldl makeMove (n, s.codebase)).1,
      { s with codebase := (moves.foldl makeMove (n, s.codebase)).2 }) := by
  induction moves generalizing n s with
  | nil => rfl
  | cons move moves ih =>
    obtain ⟨htarget, htargets⟩ := List.forall_mem_cons.1 htargets
    obtain ⟨made, hcarry, hcount⟩ := on_carry htarget n
    -- a move takes no class away, so the moves to come find their targets
    have hstill : ∀ move' ∈ moves,
        ((makeMove (n, s.codebase) move).2.class? move'.2).isSome = true := fun move' hmove' =>
      (isSome_class?_makeMove _ _ _).trans (htargets move' hmove')
    unfold carryAll
    rw [Edit.on_bind_ok hcarry, ih hstill, ← hcount]
    rfl

/-! ### Relocations and renamings -/

/-- A relocation that fails its check. -/
theorem on_relocateInPlace_of_error {failure : Error}
    (h : (checkMoves s.codebase moves).2 = .error failure) :
    (relocateInPlace moves).on s = (.error failure,
      { s with warnings := s.warnings ++ (checkMoves s.codebase moves).1 }) := by
  have hpassed := on_admitted moves s
  rw [h] at hpassed
  exact Edit.on_bind_error hpassed _

/-- A relocation that passes its check. -/
theorem on_relocateInPlace_of_ok {valid : List Move}
    (h : (checkMoves s.codebase moves).2 = .ok valid) :
    (relocateInPlace moves).on s = (.ok (valid.foldl makeMove (0, s.codebase)).1,
      { s with
        codebase := (valid.foldl makeMove (0, s.codebase)).2
        warnings := s.warnings ++ (checkMoves s.codebase moves).1 }) := by
  have hpassed := on_admitted moves s
  rw [h] at hpassed
  unfold relocateInPlace
  rw [Edit.on_bind_ok hpassed]
  refine on_carryAll (fun move hmove => ?_) 0
  exact isSome_class?_of_checkMove ((checkMoves_spec h).2 move hmove)

/-- A relocation in place comes to what is told of it, and a failing one only warns. -/
theorem on_relocateInPlace (moves : List Move) (s : Site) :
    (relocateInPlace moves).on s =
      let told := relocate s.codebase moves
      let s' := { s with warnings := s.warnings ++ told.1 }
      match told.2 with
      | .ok (count, p) => (.ok count, { s' with codebase := p })
      | .error failure => (.error failure, s') := by
  unfold relocate
  dsimp only
  cases hchecked : (checkMoves s.codebase moves).2 with
  | error failure => exact on_relocateInPlace_of_error hchecked
  | ok valid => exact on_relocateInPlace_of_ok hchecked

/-- A renaming in place comes to what is told of it, and a failing one leaves the codebase alone. -/
theorem on_renameInPlace (policy : Policy) (defaultPackage : String) (s : Site) :
    (renameInPlace policy defaultPackage).on s =
      let told := rename policy defaultPackage s.codebase s.table
      let s' := { s with table := told.table, warnings := s.warnings ++ told.warnings }
      match told.result with
      | .ok (summary, p) => (.ok summary, { s' with codebase := p })
      | .error failure => (.error failure, s') := by
  unfold rename
  dsimp only
  set a := Assignment.ofCodebase policy defaultPackage s.codebase s.table with ha
  have hget : (get : Edit Site).on s = (.ok s, s) := rfl
  have hset : (set { s with table := a.table, warnings := s.warnings ++ a.warnings.reverse } :
      Edit Unit).on s = (.ok (),
        { s with table := a.table, warnings := s.warnings ++ a.warnings.reverse }) := rfl
  have hrelocate := on_relocateInPlace a.moves.reverse
    { s with table := a.table, warnings := s.warnings ++ a.warnings.reverse }
  -- the table and the warnings are set before the members move, so a failure finds them changed
  unfold renameInPlace
  rw [Edit.on_bind_ok hget]
  dsimp only
  rw [← ha, Edit.on_bind_ok hset]
  dsimp only at hrelocate
  cases htold : (relocate s.codebase a.moves.reverse).2 with
  | error failure =>
    rw [htold] at hrelocate
    rw [Edit.on_bind_error hrelocate, List.append_assoc]
    rfl
  | ok made =>
    obtain ⟨count, p⟩ := made
    rw [htold] at hrelocate
    rw [Edit.on_bind_ok hrelocate, ← List.append_assoc]
    rfl

/-- A relocation in a codebase without repeated members fails at a member of instances and leaves
the codebase as it was, or succeeds, and then it has made as many steps as it counts: each takes a
static member out of its class and appends it to another one, so all members are still there, and
those of instances are in their classes in their order. A renaming that fails leaves the codebase as
it was, too. -/
theorem relocateInPlace_all_or_nothing (s : Site) :
    (s.codebase.DistinctMembers → ∀ moves, ∃ s',
      ((∃ move ∈ moves, (relocateInPlace moves).on s =
          (.error (.nonStaticRelocation move.1.text), s')) ∧ s'.codebase = s.codebase) ∨
      ∃ performed, performed.Sublist moves ∧
        (relocateInPlace moves).on s = (.ok performed.length, s') ∧
        Transfers s.codebase performed s'.codebase ∧ Relocated s.codebase s'.codebase) ∧
    ∀ policy defaultPackage failure s',
      (renameInPlace policy defaultPackage).on s = (.error failure, s') →
        s'.codebase = s.codebase := by
  constructor
  · intro hs moves
    -- Everything is checked before the first move is made, so a failure leaves the codebase as it
    -- was.
    cases hchecked : (checkMoves s.codebase moves).2 with
    | error failure =>
      obtain ⟨move, hmove, -, rfl⟩ := checkMoves_error hchecked
      exact ⟨_, .inl ⟨⟨move, hmove, on_relocateInPlace_of_error hchecked⟩, rfl⟩⟩
    | ok valid =>
      obtain ⟨hsub, hvalid⟩ := checkMoves_spec hchecked
      obtain ⟨performed, hperformed, hcount, hsteps⟩ := exists_transfers
        (fun move hmove => staticOnly_of_checkMove hs (hvalid move hmove))
        (fun move hmove => isSome_class?_of_checkMove (hvalid move hmove)) 0
      have hgoes := on_relocateInPlace_of_ok hchecked
      rw [hcount, Nat.zero_add] at hgoes
      exact ⟨_, .inr ⟨performed, hperformed.trans hsub, hgoes, hsteps, hsteps.relocated⟩⟩
  -- A renaming fails while the names are chosen, before the codebase is touched.
  · intro policy defaultPackage failure s' hfails
    rw [on_renameInPlace] at hfails
    dsimp only at hfails
    split at hfails
    · cases hfails
    · cases hfails
      rfl

/-- Two classes with a static field of one name each, and one of instances. -/
def twinFields : Site where
  codebase :=
    { classes :=
        [{ name := "lib/A", superclass := some "java/lang/Object", access := ⟨0x0021⟩
           fields :=
             [{ owner := "lib/A", name := "f", descriptor := "I", access := ⟨0x0008⟩ },
              { owner := "lib/A", name := "g", descriptor := "I", access := ⟨0x0000⟩ }] },
         { name := "lib/B", superclass := some "java/lang/Object", access := ⟨0x0021⟩
           fields := [{ owner := "lib/B", name := "f", descriptor := "I", access := ⟨0x0008⟩ }] }] }

/-- There and back again, with a repeated move and one that leads nowhere. -/
def exchange : List Move :=
  [(⟨"lib/A", "f", "I"⟩, "lib/B"), (⟨"lib/A", "f", "I"⟩, "lib/B"), (⟨"lib/B", "f", "I"⟩, "lib/A"),
    (⟨"lib/A", "g", "I"⟩, "lib/C")]

/-- Of the moves that exchange two fields two are made, and the fields stay apart. -/
theorem relocateInPlace_exchange :
    twinFields.codebase.DistinctMembers ∧ ∃ s' performed, performed.Sublist exchange ∧
      performed.length = 2 ∧ (relocateInPlace exchange).on twinFields = (.ok 2, s') ∧
      Transfers twinFields.codebase performed s'.codebase ∧
      Relocated twinFields.codebase s'.codebase := by
  have hdistinct : twinFields.codebase.DistinctMembers := by
    unfold Codebase.DistinctMembers
    decide
  have hcount : ((relocateInPlace exchange).on twinFields).1 = .ok 2 := by rfl
  refine ⟨hdistinct, ?_⟩
  obtain ⟨s', ⟨⟨move, -, hfails⟩, -⟩ | ⟨performed, hsub, hgoes, hsteps, hall⟩⟩ :=
    (relocateInPlace_all_or_nothing twinFields).1 hdistinct exchange
  · rw [hfails] at hcount
    cases hcount
  · rw [hgoes] at hcount
    have hlength : performed.length = 2 := Except.ok.inj hcount
    exact ⟨s', performed, hsub, hlength, hlength ▸ hgoes, hsteps, hall⟩

end Unscramble.Naming
