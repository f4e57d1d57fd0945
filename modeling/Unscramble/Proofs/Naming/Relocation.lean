import Unscramble.Naming.Relocation
import Unscramble.Proofs.Lists

/-! # What moves leave behind

A move takes a member out of its class and puts it into another one, which is there. So the members
of a codebase after some moves are those that it had before.

Main statements: `modifyFirst_cases`, `makeMove_cases`, `relocate_perm`. -/

namespace Unscramble

open scoped List

/-! ### Changing one class -/

section ModifyFirst

variable {α β : Type} {test : α → Bool} {f : α → α} {xs : List α}

/-- The first item that satisfies a test is changed, if there is one. -/
theorem modifyFirst_cases (test : α → Bool) (f : α → α) (xs : List α) :
    (xs.find? test = none ∧ modifyFirst test f xs = xs) ∨
      ∃ front a back, xs = front ++ a :: back ∧ xs.find? test = some a ∧
        modifyFirst test f xs = front ++ f a :: back := by
  induction xs with
  | nil => exact .inl ⟨rfl, rfl⟩
  | cons a xs ih =>
    rw [modifyFirst, List.find?_cons]
    cases htest : test a with
    | true => exact .inr ⟨[], a, xs, rfl, rfl, rfl⟩
    | false =>
      rcases ih with ⟨hnone, heq⟩ | ⟨front, b, back, rfl, hsome, heq⟩
      · exact .inl ⟨hnone, by rw [heq]; rfl⟩
      · exact .inr ⟨a :: front, b, back, rfl, hsome, by rw [heq]; rfl⟩

/-- A change of the first item that satisfies a test. -/
theorem forall₂_modifyFirst {R : α → α → Prop} (hrefl : ∀ a, R a a)
    (hf : ∀ a, xs.find? test = some a → R a (f a)) : List.Forall₂ R xs (modifyFirst test f xs) := by
  rcases modifyFirst_cases test f xs with ⟨-, heq⟩ | ⟨front, a, back, hxs, hsome, heq⟩
  · rw [heq]
    exact List.forall₂_same.2 fun a _ => hrefl a
  · rw [heq, hxs]
    exact List.rel_append (List.forall₂_same.2 fun a _ => hrefl a)
      (.cons (hf a hsome) (List.forall₂_same.2 fun a _ => hrefl a))

/-- What no item loses or gains stays. -/
theorem flatMap_modifyFirst {part : α → List β} (h : ∀ a, part (f a) = part a) (test : α → Bool)
    (xs : List α) : (modifyFirst test f xs).flatMap part = xs.flatMap part := by
  rcases modifyFirst_cases test f xs with ⟨-, heq⟩ | ⟨front, a, back, rfl, -, heq⟩
  · rw [heq]
  · rw [heq, List.flatMap_append, List.flatMap_append, List.flatMap_cons, List.flatMap_cons, h]

/-- What one item gains, all gain. -/
theorem flatMap_modifyFirst_perm_cons {part : α → List β} {b : β}
    (hsome : (xs.find? test).isSome = true) (h : ∀ a, part (f a) ~ b :: part a) :
    (modifyFirst test f xs).flatMap part ~ b :: xs.flatMap part := by
  rcases modifyFirst_cases test f xs with ⟨hnone, -⟩ | ⟨front, a, back, rfl, -, heq⟩
  · rw [hnone] at hsome
    cases hsome
  · rw [heq, List.flatMap_append, List.flatMap_append, List.flatMap_cons, List.flatMap_cons]
    exact (List.Perm.append_left _ ((h a).append_right _)).trans List.perm_middle

/-- What one item loses, all lose. -/
theorem cons_flatMap_modifyFirst_perm {part : α → List β} {a : α} {b : β}
    (ha : xs.find? test = some a) (h : b :: part (f a) ~ part a) :
    b :: (modifyFirst test f xs).flatMap part ~ xs.flatMap part := by
  rcases modifyFirst_cases test f xs with ⟨hnone, -⟩ | ⟨front, c, back, rfl, hsome, heq⟩
  · rw [hnone] at ha
    cases ha
  · rw [hsome] at ha
    cases ha
    rw [heq, List.flatMap_append, List.flatMap_append, List.flatMap_cons, List.flatMap_cons]
    refine List.perm_middle.symm.trans (List.Perm.append_left _ ?_)
    exact h.append_right _

/-- Taking out the first item that satisfies a test. -/
theorem cons_eraseP_perm {b : β} {q : β → Bool} {ys : List β} (h : ys.find? q = some b) :
    b :: ys.eraseP q ~ ys := by
  induction ys with
  | nil => cases h
  | cons y ys ih =>
    rw [List.find?_cons] at h
    split at h
    · next hq =>
      cases h
      rw [List.eraseP_cons_of_pos hq]
    · next hq =>
      rw [List.eraseP_cons_of_neg (by simp [hq])]
      exact (List.Perm.swap y b _).trans ((ih h).cons y)

end ModifyFirst

/-- Every field, class by class. -/
def Codebase.fields (p : Codebase) : List Field :=
  p.classes.flatMap (·.fields)

/-- Changing a class apart from its methods leaves the methods of the codebase. -/
theorem Codebase.methods_modifyClass {f : Class → Class} (h : ∀ c, (f c).methods = c.methods)
    (p : Codebase) (name : String) : (p.modifyClass name f).methods = p.methods :=
  flatMap_modifyFirst h _ _

/-- Changing a class apart from its fields leaves the fields of the codebase. -/
theorem Codebase.fields_modifyClass {f : Class → Class} (h : ∀ c, (f c).fields = c.fields)
    (p : Codebase) (name : String) : (p.modifyClass name f).fields = p.fields :=
  flatMap_modifyFirst h _ _

/-- Changing a class without its name changes what is found under the name. -/
theorem Codebase.class?_modifyClass {f : Class → Class} (h : ∀ c, (f c).name = c.name)
    (p : Codebase) (name n : String) :
    (p.modifyClass name f).class? n = if n = name then (p.class? n).map f else p.class? n := by
  rw [class?, class?, modifyClass]
  dsimp only
  induction p.classes with
  | nil => simp [modifyFirst]
  | cons c cs ih =>
    rw [modifyFirst]
    by_cases hc : c.name = name
    · subst hc
      rw [if_pos (beq_self_eq_true c.name), List.find?_cons, List.find?_cons, h]
      by_cases hn : n = c.name
      · simp [hn]
      · simp [hn, beq_false_of_ne (Ne.symm hn)]
    · rw [if_neg (by simpa using hc), List.find?_cons, List.find?_cons]
      by_cases hn : c.name = n
      · subst hn
        simp [hc]
      · rw [beq_false_of_ne hn]
        exact ih

/-- Changing a class without its name takes no name away. -/
theorem Codebase.isSome_class?_modifyClass {f : Class → Class} (h : ∀ c, (f c).name = c.name)
    (p : Codebase) (name n : String) :
    ((p.modifyClass name f).class? n).isSome = (p.class? n).isSome := by
  rw [class?_modifyClass h]
  split
  · exact Option.isSome_map
  · rfl

namespace Naming

variable {p : Codebase} {n : Nat} {m : Member} {target : String}

/-- A codebase with a method in another class. -/
def moveMethod (p : Codebase) (m : Member) (target : String) (method : Method) : Codebase :=
  (p.modifyClass m.owner fun c =>
    { c with methods := c.methods.eraseP (Method.isNamed m.name m.descriptor) }).modifyClass target
      fun c => { c with methods := c.methods ++ [method] }

/-- A codebase with a field in another class. -/
def moveField (p : Codebase) (m : Member) (target : String) (field : Field) : Codebase :=
  (p.modifyClass m.owner fun c =>
    { c with fields := c.fields.eraseP (Field.isNamed m.name m.descriptor) }).modifyClass target
      fun c => { c with fields := c.fields ++ [field] }

/-- A move changes nothing or puts a member into another class. -/
theorem makeMove_cases (n : Nat) (p : Codebase) (m : Member) (target : String) :
    makeMove (n, p) (m, target) = (n, p) ∨
      ∃ c, p.class? m.owner = some c ∧ m.owner ≠ target ∧
        ((isMethod m = true ∧ ∃ method, c.method? m.name m.descriptor = some method ∧
            makeMove (n, p) (m, target) = (n + 1, moveMethod p m target method)) ∨
          (isMethod m = false ∧ ∃ field, c.field? m.name m.descriptor = some field ∧
            makeMove (n, p) (m, target) = (n + 1, moveField p m target field))) := by
  -- The branches of the definition: the same class, no such class, no such member, and the two
  -- kinds of members.
  rw [makeMove.eq_def]
  dsimp only
  split
  · exact .inl rfl
  next hne =>
  split
  · exact .inl rfl
  next c hc =>
  split
  · next hmethod =>
    split
    · exact .inl rfl
    · next method hfound =>
      exact .inr ⟨c, hc, by simpa using hne, .inl ⟨hmethod, method, hfound, rfl⟩⟩
  · next hfield =>
    split
    · exact .inl rfl
    · next field hfound =>
      exact .inr ⟨c, hc, by simpa using hne, .inr ⟨by simpa using hfield, field, hfound, rfl⟩⟩

/-- Moving a method leaves the fields. -/
theorem fields_moveMethod (p : Codebase) (m : Member) (target : String) (method : Method) :
    (moveMethod p m target method).fields = p.fields := by
  rw [moveMethod]
  refine (Codebase.fields_modifyClass ?_ _ _).trans (Codebase.fields_modifyClass ?_ _ _)
  · exact fun c => rfl
  · exact fun c => rfl

/-- Moving a field leaves the methods. -/
theorem methods_moveField (p : Codebase) (m : Member) (target : String) (field : Field) :
    (moveField p m target field).methods = p.methods := by
  rw [moveField]
  refine (Codebase.methods_modifyClass ?_ _ _).trans (Codebase.methods_modifyClass ?_ _ _)
  · exact fun c => rfl
  · exact fun c => rfl

/-- A move of a method keeps the methods and the fields. -/
theorem moveMethod_perm {c : Class} {method : Method} (hc : p.class? m.owner = some c)
    (hmethod : c.method? m.name m.descriptor = some method)
    (htarget : (p.class? target).isSome = true) :
    (moveMethod p m target method).methods ~ p.methods ∧
      (moveMethod p m target method).fields ~ p.fields := by
  constructor
  · refine (flatMap_modifyFirst_perm_cons ?_ fun c => ?_).trans
      (cons_flatMap_modifyFirst_perm hc (cons_eraseP_perm hmethod))
    · refine (Codebase.isSome_class?_modifyClass ?_ p m.owner target).trans htarget
      exact fun c => rfl
    · exact List.perm_append_singleton method _
  · rw [fields_moveMethod]

/-- A move of a field keeps the methods and the fields. -/
theorem moveField_perm {c : Class} {field : Field} (hc : p.class? m.owner = some c)
    (hfield : c.field? m.name m.descriptor = some field)
    (htarget : (p.class? target).isSome = true) :
    (moveField p m target field).methods ~ p.methods ∧
      (moveField p m target field).fields ~ p.fields := by
  constructor
  · rw [methods_moveField]
  · refine (flatMap_modifyFirst_perm_cons ?_ fun c => ?_).trans
      (cons_flatMap_modifyFirst_perm hc (cons_eraseP_perm hfield))
    · refine (Codebase.isSome_class?_modifyClass ?_ p m.owner target).trans htarget
      exact fun c => rfl
    · exact List.perm_append_singleton field _

/-- A move takes no class away. -/
theorem isSome_class?_makeMove (state : Nat × Codebase) (move : Move) (name : String) :
    ((makeMove state move).2.class? name).isSome = (state.2.class? name).isSome := by
  obtain ⟨n, p⟩ := state
  obtain ⟨m, target⟩ := move
  rcases makeMove_cases n p m target with heq | ⟨c, -, -, ⟨-, method, -, heq⟩ | ⟨-, field, -, heq⟩⟩ <;>
    rw [heq]
  · refine (Codebase.isSome_class?_modifyClass ?_ _ _ _).trans
      (Codebase.isSome_class?_modifyClass ?_ _ _ _)
    · exact fun c => rfl
    · exact fun c => rfl
  · refine (Codebase.isSome_class?_modifyClass ?_ _ _ _).trans
      (Codebase.isSome_class?_modifyClass ?_ _ _ _)
    · exact fun c => rfl
    · exact fun c => rfl

/-- One move loses no member and makes none. -/
theorem makeMove_perm (state : Nat × Codebase) (move : Move)
    (htarget : (state.2.class? move.2).isSome = true) :
    (makeMove state move).2.methods ~ state.2.methods ∧
      (makeMove state move).2.fields ~ state.2.fields := by
  obtain ⟨n, p⟩ := state
  obtain ⟨m, target⟩ := move
  rcases makeMove_cases n p m target with heq | ⟨c, hc, -, ⟨-, method, hmethod, heq⟩ |
    ⟨-, field, hfield, heq⟩⟩ <;> rw [heq]
  · exact ⟨.refl _, .refl _⟩
  · exact moveMethod_perm hc hmethod htarget
  · exact moveField_perm hc hfield htarget

/-- Moves lose no member and make none. -/
theorem foldl_makeMove_perm (state : Nat × Codebase) (moves : List Move)
    (htargets : ∀ move ∈ moves, (state.2.class? move.2).isSome = true) :
    (moves.foldl makeMove state).2.methods ~ state.2.methods ∧
      (moves.foldl makeMove state).2.fields ~ state.2.fields := by
  induction moves generalizing state with
  | nil => exact ⟨.refl _, .refl _⟩
  | cons move moves ih =>
    obtain ⟨hmethods, hfields⟩ := ih (makeMove state move) fun move' hmove' =>
      (isSome_class?_makeMove state move move'.2).trans
        (htargets move' (List.mem_cons_of_mem _ hmove'))
    obtain ⟨hmethods', hfields'⟩ := makeMove_perm state move (htargets move List.mem_cons_self)
    exact ⟨hmethods.trans hmethods', hfields.trans hfields'⟩

/-- The moves that pass the check are some of the given ones, and valid. -/
theorem checkMoves_spec {moves valid : List Move} (h : (checkMoves p moves).2 = .ok valid) :
    valid.Sublist moves ∧ ∀ move ∈ valid, checkMove p move = .valid := by
  induction moves generalizing valid with
  | nil =>
    cases h
    exact ⟨.slnil, by simp⟩
  | cons first rest ih =>
    rw [checkMoves] at h
    split at h
    · cases h
    · exact ⟨(ih h).1.cons first, (ih h).2⟩
    · exact ⟨(ih h).1.cons first, (ih h).2⟩
    · next hvalid =>
      dsimp only at h
      cases hchecked : (checkMoves p rest).2 with
      | error e =>
        rw [hchecked] at h
        cases h
      | ok others =>
        rw [hchecked] at h
        cases h
        obtain ⟨hsub, hothers⟩ := ih hchecked
        exact ⟨hsub.cons_cons first, List.forall_mem_cons.2 ⟨hvalid, hothers⟩⟩

/-- The class that a valid move goes to is there. -/
theorem isSome_class?_of_checkMove {move : Move} (h : checkMove p move = .valid) :
    (p.class? move.2).isSome = true := by
  rw [checkMove] at h
  split at h
  · cases h
  · next hnone => simpa [Option.isSome_iff_ne_none] using hnone

/-- What moves, moves by valid moves. -/
theorem relocate_cases {moves : List Move} {count : Nat} {p' : Codebase}
    (h : (relocate p moves).2 = .ok (count, p')) :
    ∃ valid, (checkMoves p moves).2 = .ok valid ∧ valid.foldl makeMove (0, p) = (count, p') := by
  rw [relocate] at h
  dsimp only at h
  cases hvalid : (checkMoves p moves).2 with
  | error e =>
    rw [hvalid] at h
    cases h
  | ok valid =>
    rw [hvalid, Except.map, Except.ok.injEq] at h
    exact ⟨valid, rfl, h⟩

/-- Relocating members keeps them. -/
theorem relocate_perm {moves : List Move} {count : Nat} {p' : Codebase}
    (h : (relocate p moves).2 = .ok (count, p')) :
    p'.methods ~ p.methods ∧ p'.fields ~ p.fields := by
  obtain ⟨valid, hvalid, hmoved⟩ := relocate_cases h
  have hall := foldl_makeMove_perm (0, p) valid fun move hmove =>
    isSome_class?_of_checkMove ((checkMoves_spec hvalid).2 move hmove)
  rwa [hmoved] at hall

end Naming

end Unscramble
