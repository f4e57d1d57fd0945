import Unscramble.Proofs.Binary.Pool
import Unscramble.Proofs.Binary.Reading

/-! # What readers take

The converse of reading back what is written. When a reader answers, it has taken some bytes off the
front of its input, and the answer tells something about these bytes: a word that was read spells
exactly the bytes that were taken. Two readers can also be compared on the same input: where the one
answers, the other answers as well and leaves the same rest.

Main definitions: `Took`, `Takes`, `Follows`. Main statements: `Takes.bind`, `takes_u16`,
`takes_many`, `follows_counted`. -/

namespace Unscramble.Binary

open Reader

variable {α β γ : Type}

/-! ### Bytes that were taken -/

/-- Some bytes stand between two states of an input. -/
def Took (c : Cursor) (bs : Bytes) (c' : Cursor) : Prop :=
  c.rest = bs ++ c'.rest ∧ c'.position = c.position + bs.length

/-- Nothing stands between a state and itself. -/
theorem Took.nil (c : Cursor) : Took c [] c :=
  ⟨rfl, rfl⟩

/-- What stands between two states and between the second one and a third stands between the first
and the third. -/
theorem Took.append {c c' c'' : Cursor} {bs bs' : Bytes} (h : Took c bs c')
    (h' : Took c' bs' c'') : Took c (bs ++ bs') c'' := by
  refine ⟨?_, ?_⟩
  · rw [h.1, h'.1, List.append_assoc]
  · rw [h'.2, h.2, List.length_append, Nat.add_assoc]

/-- Whenever a reader answers, the answer and the bytes that it took satisfy a condition. -/
def Takes (r : Reader α) (post : α → Bytes → Prop) : Prop :=
  ∀ c a c', r c = .ok (a, c') → ∃ bs, Took c bs c' ∧ post a bs

/-- What is taken may be said with less. -/
theorem Takes.mono {r : Reader α} {post post' : α → Bytes → Prop} (h : Takes r post)
    (himp : ∀ a bs, post a bs → post' a bs) : Takes r post' := by
  intro c a c' hr
  obtain ⟨bs, htook, hpost⟩ := h c a c' hr
  exact ⟨bs, htook, himp a bs hpost⟩

/-- An answer without reading takes nothing. -/
theorem takes_pure {a : α} {post : α → Bytes → Prop} (h : post a []) :
    Takes (pure a : Reader α) post := by
  intro c b c' hr
  cases hr
  exact ⟨[], Took.nil c, h⟩

/-- What fails takes anything. -/
theorem takes_fail {cause : Malformation} {post : α → Bytes → Prop} :
    Takes (fail cause : Reader α) post := by
  intro c a c' hr
  cases hr

/-- A reader that is chosen by a condition takes what the chosen one does. -/
theorem Takes.ite {p : Prop} [Decidable p] {r r' : Reader α} {post : α → Bytes → Prop}
    (h : p → Takes r post) (h' : ¬p → Takes r' post) : Takes (if p then r else r') post := by
  by_cases hp : p
  · rw [if_pos hp]
    exact h hp
  · rw [if_neg hp]
    exact h' hp

/-- What the first of two readers took stands in front of what the second one took. -/
theorem Takes.bind {r : Reader α} {f : α → Reader β} {post : α → Bytes → Prop}
    {post' : β → Bytes → Prop} (hr : Takes r post)
    (hf : ∀ a, Takes (f a) fun b bs => ∀ front, post a front → post' b (front ++ bs)) :
    Takes (r >>= f) post' := by
  intro c b c'' h
  obtain ⟨a, c', ha, hb⟩ := bind_eq_ok_iff.1 h
  obtain ⟨front, htook, hfront⟩ := hr c a c' ha
  obtain ⟨bs, htook', hbs⟩ := hf a c' b c'' hb
  exact ⟨front ++ bs, htook.append htook', hbs front hfront⟩

/-- A reader whose answer is returned at once takes what it took. -/
theorem Takes.bind_pure {r : Reader α} {f : α → β} {post : α → Bytes → Prop}
    {post' : β → Bytes → Prop} (hr : Takes r post) (hf : ∀ a bs, post a bs → post' (f a) bs) :
    Takes (do return f (← r)) post' := by
  refine hr.bind fun a => takes_pure ?_
  intro front hfront
  rw [List.append_nil]
  exact hf a front hfront

/-- As many bytes are taken as are asked for, and they are the answer. -/
theorem takes_bytes (n : Nat) : Takes (bytes n) fun a bs => bs = a ∧ a.length = n := by
  intro c a c' h
  rw [bytes, List.splitAt_eq] at h
  dsimp only at h
  split at h
  · next hlength =>
    cases h
    refine ⟨_, ⟨(List.take_append_drop n c.rest).symm, ?_⟩, rfl, hlength⟩
    rw [hlength]
  · cases h

/-- A byte is taken and is the answer. -/
theorem takes_u8 : Takes u8 fun b bs => bs = [b] := by
  intro c b c' h
  rw [u8] at h
  split at h
  · cases h
  · next first rest hrest =>
    cases h
    exact ⟨[b], ⟨hrest, rfl⟩, rfl⟩

/-- A number of 16 bits is taken in two bytes. -/
theorem takes_u16 : Takes u16 fun n bs => bs = word16 n := by
  refine (takes_bytes 2).bind_pure ?_
  rintro a bs ⟨rfl, hlength⟩
  exact (word16_natOfBytes hlength).symm

/-- A number of 32 bits is taken in four bytes. -/
theorem takes_u32 : Takes u32 fun n bs => bs = word32 n := by
  refine (takes_bytes 4).bind_pure ?_
  rintro a bs ⟨rfl, hlength⟩
  exact (word32_natOfBytes hlength).symm

/-- A number of 64 bits is taken in eight bytes. -/
theorem takes_u64 : Takes u64 fun n bs => bs = word64 n := by
  refine (takes_bytes 8).bind_pure ?_
  rintro a bs ⟨rfl, hlength⟩
  exact (word64_natOfBytes hlength).symm

/-- A signed number of 8 bits is taken in one byte. -/
theorem takes_i8 : Takes i8 fun n bs => bs = [n.toUInt8] :=
  takes_u8.bind_pure fun _ _ hbs => hbs

/-- A signed number of 16 bits is taken in two bytes. -/
theorem takes_i16 : Takes i16 fun n bs => bs = word16 n.toUInt16 :=
  takes_u16.bind_pure fun _ _ hbs => hbs

/-- A signed number of 32 bits is taken in four bytes. -/
theorem takes_i32 : Takes i32 fun n bs => bs = word32 n.toUInt32 :=
  takes_u32.bind_pure fun _ _ hbs => hbs

/-- A signed number of 64 bits is taken in eight bytes. -/
theorem takes_i64 : Takes i64 fun n bs => bs = word64 n.toUInt64 :=
  takes_u64.bind_pure fun _ _ hbs => hbs

/-- What is required is there, and nothing is taken for it. -/
theorem require_eq_ok_iff {answer : Except Malformation α} {a : α} {c c' : Cursor} :
    require answer c = .ok (a, c') ↔ answer = .ok a ∧ c' = c := by
  cases answer with
  | error e =>
    constructor
    · intro h
      cases h
    · rintro ⟨h, -⟩
      cases h
  | ok b =>
    constructor
    · intro h
      cases h
      exact ⟨rfl, rfl⟩
    · rintro ⟨h, rfl⟩
      cases h
      rfl

/-- What is required was answered, and no bytes are taken for it. -/
theorem takes_require {answer : Except Malformation α} :
    Takes (require answer) fun a bs => bs = [] ∧ answer = .ok a := by
  intro c a c' h
  obtain ⟨hanswer, rfl⟩ := require_eq_ok_iff.1 h
  exact ⟨[], Took.nil _, rfl, hanswer⟩

/-- Items that were read one after the other stand one after the other. -/
theorem takes_manyFrom {item : Reader α} {each : α → Bytes → Prop} (h : Takes item each)
    (done : List α) (n : Nat) :
    Takes (manyFrom item done n) fun items bs => ∃ chunks more, bs = chunks.flatten ∧
      items = done.reverse ++ more ∧ more.length = n ∧ List.Forall₂ each more chunks := by
  induction n generalizing done with
  | zero => exact takes_pure ⟨[], [], rfl, (List.append_nil _).symm, rfl, .nil⟩
  | succ n ih =>
    refine h.bind fun a => (ih (a :: done)).mono ?_
    rintro items bs ⟨chunks, more, rfl, rfl, rfl, hmore⟩ front hfront
    refine ⟨front :: chunks, a :: more, rfl, ?_, rfl, .cons hfront hmore⟩
    rw [List.reverse_cons, List.append_assoc]
    rfl

/-- Items are taken one after the other, each in a chunk of its own. -/
theorem takes_many {item : Reader α} {each : α → Bytes → Prop} (h : Takes item each) (n : Nat) :
    Takes (many n item) fun items bs => ∃ chunks, bs = chunks.flatten ∧ items.length = n ∧
      List.Forall₂ each items chunks := by
  refine (takes_manyFrom h [] n).mono ?_
  rintro items bs ⟨chunks, more, hbs, rfl, hlength, hmore⟩
  exact ⟨chunks, hbs, hlength, hmore⟩

/-- As many items are read as are asked for. -/
theorem length_of_manyFrom {item : Reader α} {n : Nat} {done items : List α} {c c' : Cursor}
    (h : manyFrom item done n c = .ok (items, c')) : items.length = done.length + n := by
  induction n generalizing done c with
  | zero =>
    cases h
    exact List.length_reverse
  | succ n ih =>
    obtain ⟨a, c₁, -, h⟩ := bind_eq_ok_iff.1 h
    rw [ih h, List.length_cons]
    omega

/-- A count has 16 bits. -/
theorem length_of_counted {item : Reader α} {items : List α} {c c' : Cursor}
    (h : counted item c = .ok (items, c')) : items.length ≤ 65535 := by
  obtain ⟨n, c₁, -, h⟩ := bind_eq_ok_iff.1 h
  have hlength : items.length = 0 + n.toNat := length_of_manyFrom h
  have hlt : n.toNat < 65536 := n.toNat_lt
  omega

/-! ### Readers side by side -/

/-- Where a reader answers, another one answers as well and leaves the same rest; and the answers
are related. -/
def Follows (r : Reader α) (r' : Reader β) (rel : α → β → Prop) : Prop :=
  ∀ c a c', r c = .ok (a, c') → ∃ b, r' c = .ok (b, c') ∧ rel a b

/-- A reader follows itself. -/
theorem follows_refl (r : Reader α) : Follows r r fun a b => b = a :=
  fun _ a _ h => ⟨a, h, rfl⟩

/-- Two readers in sequence follow two others if each follows its partner. -/
theorem Follows.bind {δ : Type} {r : Reader α} {r' : Reader β} {f : α → Reader γ}
    {f' : β → Reader δ} {rel : α → β → Prop} {rel' : γ → δ → Prop} (h : Follows r r' rel)
    (hf : ∀ a b, rel a b → Follows (f a) (f' b) rel') : Follows (r >>= f) (r' >>= f') rel' := by
  intro c x c'' hx
  obtain ⟨a, c', ha, hx⟩ := bind_eq_ok_iff.1 hx
  obtain ⟨b, hb, hrel⟩ := h c a c' ha
  obtain ⟨y, hy, hrel'⟩ := hf a b hrel c' x c'' hx
  exact ⟨y, bind_eq_ok_iff.2 ⟨b, c', hb, hy⟩, hrel'⟩

/-- A first step that both readers share. -/
theorem follows_bind_same {δ : Type} (r : Reader α) {f : α → Reader γ} {f' : α → Reader δ}
    {rel : γ → δ → Prop} (h : ∀ a, Follows (f a) (f' a) rel) :
    Follows (r >>= f) (r >>= f') rel :=
  (follows_refl r).bind fun a b hab => by
    rw [hab]
    exact h a

/-- Items are read after items that have been read, each as its partner. -/
theorem follows_manyFrom {item : Reader α} {item' : Reader β} {rel : α → β → Prop}
    (h : Follows item item' rel) (n : Nat) {done : List α} {done' : List β}
    (hdone : List.Forall₂ rel done done') :
    Follows (manyFrom item done n) (manyFrom item' done' n) (List.Forall₂ rel) := by
  induction n generalizing done done' with
  | zero =>
    intro c items c' hr
    cases hr
    exact ⟨done'.reverse, rfl, List.rel_reverse hdone⟩
  | succ n ih => exact h.bind fun a b hab => ih (.cons hab hdone)

/-- Items behind a count are read side by side. -/
theorem follows_counted {item : Reader α} {item' : Reader β} {rel : α → β → Prop}
    (h : Follows item item' rel) :
    Follows (counted item) (counted item') (List.Forall₂ rel) :=
  follows_bind_same u16 fun n => follows_manyFrom h n.toNat .nil

/-! ### Inputs of their own -/

/-- What is read of an input is what a reader answers at its first byte. -/
theorem on_eq_ok_iff {r : Reader α} {input : Bytes} {a : α} :
    r.on input = .ok a ↔ ∃ c, r ⟨input, 0⟩ = .ok (a, c) := by
  have hrun : r.on input = (r ⟨input, 0⟩).map (·.1) := rfl
  rw [hrun]
  cases r ⟨input, 0⟩ with
  | error e =>
    constructor
    · intro h
      cases h
    · rintro ⟨c, h⟩
      cases h
  | ok answer =>
    constructor
    · intro h
      cases h
      exact ⟨answer.2, rfl⟩
    · rintro ⟨c, h⟩
      cases h
      rfl

/-- What a reader always answers, it answers for every item behind a count. -/
theorem forall_of_counted {item : Reader α} {good : α → Prop}
    (h : ∀ c a c', item c = .ok (a, c') → good a) {c c' : Cursor} {items : List α}
    (hitems : counted item c = .ok (items, c')) : ∀ a ∈ items, good a := by
  have hself : Follows item item fun a _ => good a := fun c a c' ha => ⟨a, ha, h c a c' ha⟩
  obtain ⟨items', -, hgood⟩ := follows_counted hself _ _ _ hitems
  intro a ha
  obtain ⟨_, -, hgood⟩ := exists_of_mem_left hgood ha
  exact hgood

end Unscramble.Binary
