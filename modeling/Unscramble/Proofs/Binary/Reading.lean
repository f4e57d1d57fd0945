import Unscramble.Binary.Reader
import Unscramble.Proofs.Lists

/-! # Reading back what is written

A reader reads some bytes as a value if it answers this value whenever the bytes stand at the front
of its input, and takes exactly these bytes. Readers that run one after the other read bytes that
stand one after the other.

Main definition: `Reads`. Main statements: `Reads.bind`, `reads_u16`, `reads_counted`,
`on_eq_ok_of_reads`, `bind_eq_ok_iff`. -/

namespace Unscramble.Binary

open Reader

/-! ### Words -/

/-- A list of bytes spells its front times a power of 256, and its back. -/
theorem natOfBytes_concat (bs : Bytes) (b : UInt8) :
    natOfBytes (bs ++ [b]) = natOfBytes bs * 256 + b.toNat := by
  rw [natOfBytes, List.foldl_append]
  rfl

/-- A number is written in as many bytes as are asked for. -/
theorem length_bytesOfNat (count n : Nat) : (bytesOfNat count n).length = count := by
  induction count generalizing n with
  | zero => rfl
  | succ count ih => rw [bytesOfNat, List.length_append, ih, List.length_singleton]

/-- The digits of a number that fits spell it. -/
theorem natOfBytes_bytesOfNat {count n : Nat} (hn : n < 256 ^ count) :
    natOfBytes (bytesOfNat count n) = n := by
  induction count generalizing n with
  | zero =>
    have hzero : n = 0 := by simpa using hn
    rw [hzero]
    rfl
  | succ count ih =>
    have hdiv : n / 256 < 256 ^ count := by
      rw [Nat.div_lt_iff_lt_mul (by decide), ← Nat.pow_succ]
      exact hn
    have hdigit : n.toUInt8.toNat = n % 256 := rfl
    rw [bytesOfNat, natOfBytes_concat, ih hdiv, hdigit]
    omega

/-- The number that bytes spell is bounded by their number. -/
theorem natOfBytes_lt (bs : Bytes) : natOfBytes bs < 256 ^ bs.length := by
  induction bs using List.reverseRecOn with
  | nil => decide
  | append_singleton bs b ih =>
    have hb : b.toNat < 256 := b.toNat_lt
    rw [natOfBytes_concat, List.length_append, List.length_singleton, Nat.pow_succ]
    omega

/-- Bytes are the digits of the number that they spell. -/
theorem bytesOfNat_natOfBytes (bs : Bytes) : bytesOfNat bs.length (natOfBytes bs) = bs := by
  induction bs using List.reverseRecOn with
  | nil => rfl
  | append_singleton bs b ih =>
    have hb : b.toNat < 256 := b.toNat_lt
    have hdiv : (natOfBytes bs * 256 + b.toNat) / 256 = natOfBytes bs := by omega
    have hmod : (natOfBytes bs * 256 + b.toNat).toUInt8 = b := by
      apply UInt8.toNat_inj.1
      change (natOfBytes bs * 256 + b.toNat) % 256 = b.toNat
      omega
    rw [natOfBytes_concat, List.length_append, List.length_singleton, bytesOfNat, hdiv, ih, hmod]

/-- A number of 16 bits is written in two bytes. -/
@[simp] theorem length_word16 (n : UInt16) : (word16 n).length = 2 := length_bytesOfNat 2 _

/-- A number of 32 bits is written in four bytes. -/
@[simp] theorem length_word32 (n : UInt32) : (word32 n).length = 4 := length_bytesOfNat 4 _

/-- A number of 64 bits is written in eight bytes. -/
@[simp] theorem length_word64 (n : UInt64) : (word64 n).length = 8 := length_bytesOfNat 8 _

/-- A short count is written in two bytes. -/
@[simp] theorem length_count16 (n : Nat) : (count16 n).length = 2 := length_word16 _

/-- A long count is written in four bytes. -/
@[simp] theorem length_count32 (n : Nat) : (count32 n).length = 4 := length_word32 _

/-- A short signed number is written in two bytes. -/
@[simp] theorem length_signed16 (n : Int) : (signed16 n).length = 2 := length_word16 _

/-- A long signed number is written in four bytes. -/
@[simp] theorem length_signed32 (n : Int) : (signed32 n).length = 4 := length_word32 _

/-- Two bytes as a 16-bit word. -/
theorem word16_natOfBytes {bs : Bytes} (h : bs.length = 2) :
    word16 (natOfBytes bs).toUInt16 = bs := by
  have hlt : natOfBytes bs < 65536 := by simpa [h] using natOfBytes_lt bs
  have hnat : (natOfBytes bs).toUInt16.toNat = natOfBytes bs := Nat.mod_eq_of_lt hlt
  rw [word16, hnat, ← h, bytesOfNat_natOfBytes]

/-- Four bytes as a 32-bit word. -/
theorem word32_natOfBytes {bs : Bytes} (h : bs.length = 4) :
    word32 (natOfBytes bs).toUInt32 = bs := by
  have hlt : natOfBytes bs < 4294967296 := by simpa [h] using natOfBytes_lt bs
  have hnat : (natOfBytes bs).toUInt32.toNat = natOfBytes bs := Nat.mod_eq_of_lt hlt
  rw [word32, hnat, ← h, bytesOfNat_natOfBytes]

/-- Eight bytes as a 64-bit word. -/
theorem word64_natOfBytes {bs : Bytes} (h : bs.length = 8) :
    word64 (natOfBytes bs).toUInt64 = bs := by
  have hlt : natOfBytes bs < 18446744073709551616 := by simpa [h] using natOfBytes_lt bs
  have hnat : (natOfBytes bs).toUInt64.toNat = natOfBytes bs := Nat.mod_eq_of_lt hlt
  rw [word64, hnat, ← h, bytesOfNat_natOfBytes]

/-! ### Readers one after the other -/

variable {α β : Type}

/-- A reader after another one goes on where that one stops. -/
theorem run_bind (r : Reader α) (f : α → Reader β) (c : Cursor) :
    (r >>= f) c = (r c).bind fun p => f p.1 p.2 := rfl

/-- Two readers one after the other answer if both do. -/
theorem bind_eq_ok_iff {r : Reader α} {f : α → Reader β} {c c'' : Cursor} {b : β} :
    (r >>= f) c = .ok (b, c'') ↔ ∃ a c', r c = .ok (a, c') ∧ f a c' = .ok (b, c'') := by
  rw [run_bind]
  constructor
  · intro h
    cases hr : r c with
    | error e => rw [hr] at h; cases h
    | ok p =>
      rw [hr] at h
      exact ⟨p.1, p.2, rfl, h⟩
  · rintro ⟨a, c', hr, hf⟩
    rw [hr]
    exact hf

/-- A reader takes some bytes off the front of every input and answers a value. -/
def Reads (r : Reader α) (bs : Bytes) (a : α) : Prop :=
  ∀ rest position, r ⟨bs ++ rest, position⟩ = .ok (a, ⟨rest, position + bs.length⟩)

/-- An answer without reading is read from nothing. -/
theorem reads_pure (a : α) : Reads (pure a) [] a :=
  fun _ _ => rfl

/-- Readers one after the other read bytes one after the other. -/
theorem Reads.bind {r : Reader α} {f : α → Reader β} {bs bs' : Bytes} {a : α} {b : β}
    (hr : Reads r bs a) (hf : Reads (f a) bs' b) : Reads (r >>= f) (bs ++ bs') b := by
  intro rest position
  have hfirst := hr (bs' ++ rest) position
  have hsecond := hf rest (position + bs.length)
  rw [List.append_assoc, run_bind, hfirst]
  refine hsecond.trans ?_
  rw [List.length_append, Nat.add_assoc]

/-- A step that takes no bytes may follow a reader. -/
theorem Reads.bind_nil {r : Reader α} {f : α → Reader β} {bs : Bytes} {a : α} {b : β}
    (hr : Reads r bs a) (hf : Reads (f a) [] b) : Reads (r >>= f) bs b := by
  have hread := hr.bind hf
  rw [List.append_nil] at hread
  exact hread

/-- A reader whose answer is changed. -/
theorem Reads.map {r : Reader α} {bs : Bytes} {a : α} (hr : Reads r bs a) (f : α → β) :
    Reads (f <$> r) bs (f a) := by
  intro rest position
  change (r >>= fun a => pure (f a)) _ = _
  rw [run_bind, hr rest position]
  rfl

/-- A reader whose answer is returned at once. -/
theorem Reads.bind_pure {r : Reader α} {bs : Bytes} {a : α} (hr : Reads r bs a) (f : α → β) :
    Reads (do return f (← r)) bs (f a) := by
  intro rest position
  rw [run_bind, hr rest position]
  rfl

/-- As many bytes as are asked for are read as they are. -/
theorem reads_bytes {n : Nat} {bs : Bytes} (hn : bs.length = n) : Reads (bytes n) bs bs := by
  intro rest position
  rw [bytes, List.splitAt_eq, ← hn, List.take_left, List.drop_left]
  exact if_pos rfl

/-- A byte is read as it is. -/
theorem reads_u8 (b : UInt8) : Reads u8 [b] b :=
  fun _ _ => rfl

/-- A number of 16 bits is read back from its two bytes. -/
theorem reads_u16 (n : UInt16) : Reads u16 (word16 n) n := by
  have hnat : (natOfBytes (word16 n)).toUInt16 = n := by
    rw [word16, natOfBytes_bytesOfNat n.toNat_lt]
    exact UInt16.ofNat_toNat
  have hread := (reads_bytes (length_word16 n)).bind_pure fun bs => (natOfBytes bs).toUInt16
  rw [hnat] at hread
  exact hread

/-- A number of 32 bits is read back from its four bytes. -/
theorem reads_u32 (n : UInt32) : Reads u32 (word32 n) n := by
  have hnat : (natOfBytes (word32 n)).toUInt32 = n := by
    rw [word32, natOfBytes_bytesOfNat n.toNat_lt]
    exact UInt32.ofNat_toNat
  have hread := (reads_bytes (length_word32 n)).bind_pure fun bs => (natOfBytes bs).toUInt32
  rw [hnat] at hread
  exact hread

/-- A number of 64 bits is read back from its eight bytes. -/
theorem reads_u64 (n : UInt64) : Reads u64 (word64 n) n := by
  have hnat : (natOfBytes (word64 n)).toUInt64 = n := by
    rw [word64, natOfBytes_bytesOfNat n.toNat_lt]
    exact UInt64.ofNat_toNat
  have hread := (reads_bytes (length_word64 n)).bind_pure fun bs => (natOfBytes bs).toUInt64
  rw [hnat] at hread
  exact hread

/-- A signed number of 8 bits is read back from its byte. -/
theorem reads_i8 (n : Int8) : Reads i8 [n.toUInt8] n :=
  fun _ _ => rfl

/-- A signed number of 16 bits is read back from its two bytes. -/
theorem reads_i16 (n : Int16) : Reads i16 (word16 n.toUInt16) n :=
  (reads_u16 n.toUInt16).bind_pure fun w => w.toInt16

/-- A signed number of 32 bits is read back from its four bytes. -/
theorem reads_i32 (n : Int32) : Reads i32 (word32 n.toUInt32) n :=
  (reads_u32 n.toUInt32).bind_pure fun w => w.toInt32

/-- A signed number of 64 bits is read back from its eight bytes. -/
theorem reads_i64 (n : Int64) : Reads i64 (word64 n.toUInt64) n :=
  (reads_u64 n.toUInt64).bind_pure fun w => w.toInt64

/-- Items that stand one after the other are read one after the other. -/
theorem reads_manyFrom {item : Reader α} {chunks : List Bytes} {items done : List α}
    (h : List.Forall₂ (Reads item) chunks items) :
    Reads (manyFrom item done items.length) chunks.flatten (done.reverse ++ items) := by
  induction h generalizing done with
  | nil =>
    rw [List.append_nil]
    exact reads_pure done.reverse
  | @cons bs a chunks items hfirst _ ih =>
    have hrest := @ih (a :: done)
    rw [List.reverse_cons, List.append_assoc] at hrest
    exact hfirst.bind hrest

/-- Items are read back from the chunks that each of them is read from. -/
theorem reads_many {item : Reader α} {chunks : List Bytes} {items : List α}
    (h : List.Forall₂ (Reads item) chunks items) :
    Reads (many items.length item) chunks.flatten items :=
  reads_manyFrom h

/-- Items behind their count are read back. -/
theorem reads_counted {item : Reader α} {chunks : List Bytes} {items : List α}
    (h : List.Forall₂ (Reads item) chunks items) (hn : items.length ≤ 65535) :
    Reads (counted item) (count16 items.length ++ chunks.flatten) items := by
  have hnat : items.length.toUInt16.toNat = items.length := Nat.mod_eq_of_lt (by omega)
  refine (reads_u16 items.length.toUInt16).bind ?_
  rw [hnat]
  exact reads_many h

/-- What is required and there is read from nothing. -/
theorem reads_require {a : α} {answer : Except Malformation α} (h : answer = .ok a) :
    Reads (require answer) [] a := by
  rw [h]
  exact reads_pure a

/-- An index at which a value stands is read as the value. -/
theorem reads_indexed {look : UInt16 → Except Malformation α} {i : UInt16} {a : α}
    (h : look i = .ok a) : Reads (indexed look) (word16 i) a :=
  (reads_u16 i).bind_nil (reads_require h)

/-- The index of something that may be absent is read back. -/
theorem reads_indexed? {look : UInt16 → Except Malformation α} {i : UInt16} {a : Option α}
    (hnone : a = none → i = 0) (hsome : ∀ x, a = some x → i ≠ 0 ∧ look i = .ok x) :
    Reads (indexed? look) (word16 i) a := by
  intro rest position
  rw [indexed?, run_bind, reads_u16 i rest position]
  cases a with
  | none =>
    rw [hnone rfl]
    rfl
  | some x =>
    obtain ⟨hne, hlook⟩ := hsome x rfl
    change (if i = 0 then pure none else some <$> require (look i) : Reader (Option α)) _ = _
    rw [if_neg hne, hlook]
    rfl

/-- A reader on an input of its own answers what it reads at the front. -/
theorem on_eq_ok_of_reads {r : Reader α} {bs : Bytes} {a : α} (h : Reads r bs a) :
    r.on bs = .ok a := by
  have hread := h [] 0
  rw [List.append_nil] at hread
  rw [on]
  change (·.1) <$> r ⟨bs, 0⟩ = _
  rw [hread]
  rfl

end Unscramble.Binary
