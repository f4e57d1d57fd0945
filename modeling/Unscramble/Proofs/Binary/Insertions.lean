import Unscramble.Proofs.Binary.PoolFormat

/-! # Insertions into pools

A pool is filled by insertions one after the other, and some of them fail: a text may be too long,
and the pool may be full when only some parts of a compound entry have been added. Whatever has
failed, the pool stays valid and keeps its slots, so an index that was returned answers what was
inserted, then and for ever.

Main definitions: `Insertion`, `Pool.insertAll`, `Preserves`, `Pool.Extends`. Main statement:
`Pool.insertAll_answers`. -/

namespace Unscramble.Binary

/-! ### Computations that preserve pools -/

/-- A computation that keeps a pool valid and lets it grow, whether it answers or fails. -/
def Preserves {α : Type} (m : PoolM α) : Prop :=
  ∀ p answer p', p.Valid → m p = (answer, p') → p'.Valid ∧ p.Below p'

section Preserves

variable {α β : Type} {m : PoolM α}

/-- A failure leaves every entry. -/
theorem preserves_throw (cause : Malformation) : Preserves (throw cause : PoolM α) := by
  intro p answer p' hp hm
  cases hm
  exact ⟨hp, Pool.Below.refl p⟩

/-- Steps one after the other. The steps behind a failure are not made. -/
theorem Preserves.bind {f : α → PoolM β} (hm : Preserves m) (hf : ∀ a, Preserves (f a)) :
    Preserves (m >>= f) := by
  intro p answer p'' hp h
  rcases hrun : m p with ⟨result, p'⟩
  obtain ⟨hvalid, hbelow⟩ := hm p result p' hp hrun
  change ExceptT.bindCont f (m p).1 (m p).2 = _ at h
  rw [hrun] at h
  -- the first step has left its pool behind whatever it answers, and only an answer leads on
  cases result with
  | error cause =>
    cases h
    exact ⟨hvalid, hbelow⟩
  | ok a =>
    obtain ⟨hvalid', hbelow'⟩ := hf a p' answer p'' hvalid h
    exact ⟨hvalid', hbelow.trans hbelow'⟩

end Preserves

namespace Pool

/-- A pool that is full stays as it is. -/
theorem preserves_intern {e : Entry} (he : isWritable e = true) : Preserves (intern e) := by
  intro p answer p' hp h
  cases answer with
  | ok i =>
    have hyields : Yields p (intern e) _ := yields_intern (sound_of_isWritable he)
    obtain ⟨hvalid, hbelow, -⟩ := hyields p i p' hp (Below.refl p) h
    exact ⟨hvalid, hbelow⟩
  | error cause =>
    -- it fails only for want of room, before anything is appended
    rw [intern] at h
    split at h
    · cases h
    · dsimp only at h
      split at h
      · cases h
        exact ⟨hp, Below.refl p⟩
      · cases h

/-- Adding a text leaves every entry. -/
theorem preserves_utf8 (text : String) : Preserves (utf8 text) := by
  by_cases hlength : 65535 < (ModifiedUtf8.encode text).length
  · rw [utf8, if_pos hlength]
    exact preserves_throw _
  · rw [utf8, if_neg hlength]
    exact preserves_intern (decide_eq_true (Nat.not_lt.1 hlength))

/-- Adding a class leaves every entry. -/
theorem preserves_ofClass (name : String) : Preserves (ofClass name) :=
  (preserves_utf8 name).bind fun _ => preserves_intern rfl

/-- Adding a name with a descriptor leaves every entry. -/
theorem preserves_nameAndType (name descriptor : String) :
    Preserves (nameAndType name descriptor) :=
  (preserves_utf8 name).bind fun _ => (preserves_utf8 descriptor).bind fun _ =>
    preserves_intern rfl

/-- Adding a member leaves every entry. -/
theorem preserves_member (m : Member) (kind : MemberKind) : Preserves (member m kind) :=
  (preserves_ofClass m.owner).bind fun _ => (preserves_nameAndType m.name m.descriptor).bind
    fun _ => preserves_intern rfl

/-- Adding a dynamic call leaves every entry. -/
theorem preserves_invokeDynamic (call : DynamicCall) : Preserves (invokeDynamic call) :=
  (preserves_nameAndType call.name call.descriptor).bind fun _ =>
    preserves_intern rfl

/-- Adding a constant leaves every entry. -/
theorem preserves_constant (c : Constant) : Preserves (constant c) := by
  cases c with
  | int v => exact preserves_intern rfl
  | float bits => exact preserves_intern rfl
  | long v => exact preserves_intern rfl
  | double bits => exact preserves_intern rfl
  | string s =>
    exact (preserves_utf8 s).bind fun _ => preserves_intern rfl
  | ofClass name => exact preserves_ofClass name
  | methodType d =>
    exact (preserves_utf8 d).bind fun _ => preserves_intern rfl
  | methodHandle kind m viaInterface =>
    exact (preserves_member m _).bind fun _ => preserves_intern rfl
  | dynamic bootstrap name d =>
    exact (preserves_nameAndType name d).bind fun _ => preserves_intern rfl

/-- A constant as a pool gives it back: a handle of a field does not lead through an interface. -/
def asRead : Constant → Constant
  | .methodHandle kind m viaInterface =>
    .methodHandle kind m (if 1 ≤ kind && kind ≤ 4 then false else viaInterface)
  | c => c

/-- A constant as it is read back still fits its kind of handle. -/
theorem fitsHandle_asRead (c : Constant) : FitsHandle (asRead c) := by
  cases c with
  | methodHandle kind m viaInterface =>
    intro hlow hhigh
    rw [if_pos (by simp [hlow, hhigh])]
  | _ => exact trivial

/-- A pool makes no difference between a constant and what it gives back. -/
theorem constant_asRead (c : Constant) : constant (asRead c) = constant c := by
  cases c with
  | methodHandle kind m viaInterface =>
    -- where the flag is dropped, the handle holds a field, and this does not depend on the flag
    have hkind : handleKind kind (if 1 ≤ kind && kind ≤ 4 then false else viaInterface) =
        handleKind kind viaInterface := by
      unfold handleKind
      by_cases hfield : (1 ≤ kind && kind ≤ 4) = true
      · rw [if_pos hfield, if_pos hfield]
      · rw [if_neg hfield, if_neg hfield, if_neg hfield]
    exact congrArg (fun k => (do intern (.methodHandle kind (← member m k)) : PoolM UInt16)) hkind
  | _ => rfl

end Pool

/-! ### Insertions -/

/-- What can be inserted into a pool. -/
inductive Insertion where
  /-- A text. -/
  | utf8 (text : String)
  /-- A class. -/
  | ofClass (name : String)
  /-- A reference to a member. -/
  | member (m : Member) (kind : MemberKind)
  /-- A call site. -/
  | invokeDynamic (call : DynamicCall)
  /-- A constant. -/
  | constant (c : Constant)

namespace Insertion

/-- Inserts into a pool. -/
def run : Insertion → PoolM UInt16
  | utf8 text => Pool.utf8 text
  | ofClass name => Pool.ofClass name
  | member m kind => Pool.member m kind
  | invokeDynamic call => Pool.invokeDynamic call
  | constant c => Pool.constant c

/-- A pool gives back at an index what was inserted. -/
def Answered (p : Pool) (i : UInt16) : Insertion → Prop
  | utf8 text => p.utf8At i = .ok text
  | ofClass name => p.classAt i = .ok name
  | member m kind => p.memberAt i = .ok (m, kind)
  | invokeDynamic call => p.dynamicAt i = .ok call
  | constant c => p.constantAt i = .ok (Pool.asRead c)

/-- Insertions leave every entry. -/
theorem preserves_run (ins : Insertion) : Preserves ins.run := by
  cases ins with
  | utf8 text => exact Pool.preserves_utf8 text
  | ofClass name => exact Pool.preserves_ofClass name
  | member m kind => exact Pool.preserves_member m kind
  | invokeDynamic call => exact Pool.preserves_invokeDynamic call
  | constant c => exact Pool.preserves_constant c

/-- An insertion answers an index where what is inserted stands. -/
theorem yields_run (base : Pool) (ins : Insertion) :
    Yields base ins.run fun i q => ins.Answered q i := by
  cases ins with
  | utf8 text => exact (Pool.yields_utf8 text).mono fun _ _ h => h.2
  | ofClass name => exact (Pool.yields_ofClass name).mono fun _ _ h => h.2
  | member m kind => exact (Pool.yields_member m kind).mono fun _ _ h => h.2
  | invokeDynamic call => exact (Pool.yields_invokeDynamic call).mono fun _ _ h => h.2
  | constant c =>
    have hyields : Yields base _ _ := Pool.yields_constant (Pool.fitsHandle_asRead c)
    rw [Pool.constant_asRead] at hyields
    exact hyields.mono fun _ _ h => h.2

end Insertion

namespace Pool

/-- The pool after insertions, of which each may fail. -/
def insertAll (insertions : List Insertion) (p : Pool) : Pool :=
  insertions.foldl (fun p ins => (ins.run p).2) p

/-- Insertions preserve a pool. -/
theorem insertAll_preserves (insertions : List Insertion) {p : Pool} (hp : p.Valid) :
    (insertAll insertions p).Valid ∧ p.Below (insertAll insertions p) := by
  induction insertions generalizing p with
  | nil => exact ⟨hp, Below.refl p⟩
  | cons ins insertions ih =>
    obtain ⟨hvalid, hbelow⟩ := ins.preserves_run p _ _ hp rfl
    obtain ⟨hvalid', hbelow'⟩ := ih hvalid
    exact ⟨hvalid', hbelow.trans hbelow'⟩

/-- Behind a 64-bit number stands a slot that cannot be used. -/
theorem getElem?_succ_flatMap_slotsOf {entries : List PoolSlot} (h : ∀ slot ∈ entries, Sound slot)
    {i : Nat} {slot : PoolSlot} (hslot : (entries.flatMap slotsOf)[i]? = some slot)
    (hwide : slot.entry.isWide = true) :
    (entries.flatMap slotsOf)[i + 1]? = some ⟨.unusable, none⟩ := by
  induction entries generalizing i with
  | nil => cases hslot
  | cons first entries ih =>
    rw [List.flatMap_cons] at hslot ⊢
    by_cases hlt : i < (slotsOf first).length
    · rw [List.getElem?_append_left hlt] at hslot
      rw [slotsOf] at hslot hlt ⊢
      split at hslot
      · next hfirst =>
        rw [if_pos hfirst]
        cases i with
        | zero => rfl
        | succ i =>
          cases i with
          | zero =>
            -- the second slot holds no number
            cases hslot
            cases hwide
          | succ i => cases hslot
      · next hfirst =>
        cases i with
        | zero =>
          cases hslot
          exact absurd hwide hfirst
        | succ i => cases hslot
    · rw [List.getElem?_append_right (Nat.not_lt.1 hlt)] at hslot
      rw [List.getElem?_append_right (by omega),
        show i + 1 - (slotsOf first).length = i - (slotsOf first).length + 1 by omega]
      exact ih (fun slot hs => h slot (List.mem_cons_of_mem first hs)) hslot

/-- A pool that has come from another one by insertions. -/
structure Extends (p q : Pool) : Prop where
  /-- Every slot keeps its index, its entry and its bytes. -/
  below : p.Below q
  /-- Behind a 64-bit number stands a slot that cannot be used. -/
  wide : ∀ (i : Nat) (slot : PoolSlot), q.slots[i]? = some slot → slot.entry.isWide = true →
    q.slots[i + 1]? = some ⟨.unusable, none⟩
  /-- An entry stands where the index says. -/
  index : ∀ e i, q.index[e]? = some i → q.entryAt i = .ok e

/-- A valid pool extends those below it. -/
theorem Valid.extends {p q : Pool} (hq : q.Valid) (hbelow : p.Below q) : p.Extends q := by
  obtain ⟨entries, hslots, hsound⟩ := hq.holds
  refine ⟨hbelow, ?_, fun e i hi => (hq.index e i hi).2⟩
  intro i slot hslot hwide
  rw [← Array.getElem?_toList, hslots] at hslot ⊢
  cases i with
  | zero =>
    -- slot 0 holds no number
    cases hslot
    cases hwide
  | succ i => exact getElem?_succ_flatMap_slotsOf hsound hslot hwide

/-- Insertions, failing ones included, leave all slots of a pool in place, and what an insertion
returns is an index that gives back what was inserted, after any later insertions as well. -/
theorem insertAll_answers {p : Pool}
    (hp : p = empty ∨ ∃ c c', read c = .ok (p, c')) (insertions : List Insertion) :
    p.Extends (insertAll insertions p) ∧
      ∀ ins i q, Insertion.run ins (insertAll insertions p) = (.ok i, q) →
        ∀ later, ins.Answered (insertAll later q) i := by
  have hvalid : p.Valid := by
    rcases hp with rfl | ⟨c, c', hread⟩
    · exact valid_empty
    · exact valid_of_read hread
  obtain ⟨hinserted, hbelow⟩ := insertAll_preserves insertions hvalid
  refine ⟨hinserted.extends hbelow, ?_⟩
  intro ins i q hrun later
  -- the answer is good in every pool above, and later insertions only lead up
  obtain ⟨hq, -, hanswers⟩ := ins.yields_run _ _ i q hinserted (Below.refl _) hrun
  exact hanswers _ (insertAll_preserves later hq).2

/-- A pool with a repeated text, a class whose name is no text, and a method without a class. -/
def oddEntries : List Entry :=
  [.utf8 "a", .utf8 "a", .ofClass 4, .member .method 9 9]

/-- Insertions that find a text, add a number with two slots, and add a member with its parts. -/
def mixedInsertions : List Insertion :=
  [.constant (.string "a"), .constant (.long 5), .member ⟨"a", "b", "()V"⟩ .interfaceMethod]

/-- Insertions of several kinds, into a pool that was read, leave its entries and find their own. -/
theorem insertAll_answers_mixed :
    (∃ c c', read c = .ok (ofEntries oddEntries, c')) ∧
      (ofEntries oddEntries).Extends (insertAll mixedInsertions (ofEntries oddEntries)) ∧
      ∀ ins i q, Insertion.run ins (insertAll mixedInsertions (ofEntries oddEntries)) =
        (.ok i, q) → ∀ later, ins.Answered (insertAll later q) i := by
  have hread : ∃ c c', read c = .ok (ofEntries oddEntries, c') :=
    ⟨_, _, reads_read_ofEntries (by decide) (by decide) (by decide) [] 0⟩
  exact ⟨hread, insertAll_answers (.inr hread) mixedInsertions⟩

end Pool

end Unscramble.Binary
