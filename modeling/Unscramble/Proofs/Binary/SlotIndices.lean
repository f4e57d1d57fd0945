import Mathlib.Logic.Relation
import Unscramble.Binary.ClassFile
import Unscramble.Proofs.Binary.PoolFormat

/-! # Slot indices

A pool is read entry by entry, and the 16-bit index of the next slot goes up by the slots of each
entry. In front of an entry its index is compared with the count of slots, but a 64-bit number takes
one more slot than was asked for. Only at the very limit of the count does this matter: behind a
64-bit number at the index 65534 the addition overflows.

Main definitions: `Advances`, `ComesTo`, `Enters`, `WideAtLimit`, `BoundsIndices`. Main statements:
`ends_readFrom`, `read_eq_overflow_iff`, `boundsIndices_read`, `overflows_crowded`. -/

namespace Unscramble.Binary

/-- An entry takes at most two slots. -/
theorem Entry.slots_le (e : Entry) : e.slots ≤ 2 := by
  unfold Entry.slots
  split <;> decide

namespace Pool

open Reader

/-! ### Reading entry by entry -/

/-- Where the reading of a pool stands. -/
structure Progress where
  /-- The index of the next slot. -/
  index : UInt16
  /-- The slots so far. -/
  pool : Pool
  /-- The input that is left. -/
  cursor : Cursor

/-- One entry is read, and the index behind it does not overflow. -/
inductive Advances (count : UInt16) : Progress → Progress → Prop
  /-- The entry is put behind the slots so far. -/
  | entry {s : Progress} {slot : PoolSlot} {rest : Cursor} {next : UInt16}
      (within : s.index < count) (reads : readSlot s.index s.cursor = .ok (slot, rest))
      (fits : indexBehind? s.index slot.entry = some next) :
      Advances count s ⟨next, s.pool.append slot, rest⟩

/-- Where the reading of an input comes to, entry by entry. -/
def ComesTo (input : Cursor) (s : Progress) : Prop :=
  ∃ count rest, u16 input = .ok (count, rest) ∧
    Relation.ReflTransGen (Advances count) ⟨1, empty, rest⟩ s

/-- An entry is read on the way, at the index that the reading has come to. -/
def Enters (input : Cursor) (s : Progress) (slot : PoolSlot) : Prop :=
  ∃ count rest behind, u16 input = .ok (count, rest) ∧
    Relation.ReflTransGen (Advances count) ⟨1, empty, rest⟩ s ∧ s.index < count ∧
    readSlot s.index s.cursor = .ok (slot, behind)

variable {count : UInt16} {s s' : Progress}

/-- An entry takes the index up. -/
theorem Advances.index_lt (h : Advances count s s') : s.index < s'.index := by
  cases h with
  | entry _ _ fits => exact lt_of_indexBehind? fits

/-- An entry does not end the reading. -/
theorem readFrom_of_advances (h : Advances count s s') :
    readFrom count s.index s.pool s.cursor = readFrom count s'.index s'.pool s'.cursor := by
  cases h with
  | entry within reads fits =>
    rw [readFrom_of_lt within, run_bind, reads]
    dsimp only [Except.bind]
    rw [fits]

/-- Reading goes on from wherever it comes to. -/
theorem readFrom_of_comes (h : Relation.ReflTransGen (Advances count) s s') :
    readFrom count s.index s.pool s.cursor = readFrom count s'.index s'.pool s'.cursor := by
  induction h with
  | refl => rfl
  | tail _ step ih => rw [ih, readFrom_of_advances step]

/-- An entry ends the reading if the index behind it overflows. -/
theorem readFrom_of_overflow {slot : PoolSlot} {rest : Cursor} (within : s.index < count)
    (reads : readSlot s.index s.cursor = .ok (slot, rest))
    (exceeds : indexBehind? s.index slot.entry = none) :
    readFrom count s.index s.pool s.cursor = .error .overflow := by
  rw [readFrom_of_lt within, run_bind, reads]
  dsimp only [Except.bind]
  rw [exceeds]
  rfl

/-- How the reading of slots ends. -/
inductive Ends (count : UInt16) (s : Progress) : Except Malformation (Pool × Cursor) → Prop
  /-- The count is reached. -/
  | full {s' : Progress} (comes : Relation.ReflTransGen (Advances count) s s')
      (reached : count ≤ s'.index) : Ends count s (.ok (s'.pool, s'.cursor))
  /-- The index behind an entry overflows. -/
  | overflow {s' : Progress} {slot : PoolSlot} {rest : Cursor}
      (comes : Relation.ReflTransGen (Advances count) s s') (within : s'.index < count)
      (reads : readSlot s'.index s'.cursor = .ok (slot, rest))
      (exceeds : indexBehind? s'.index slot.entry = none) : Ends count s (.error .overflow)
  /-- No entry can be read. -/
  | stuck {s' : Progress} {cause : Malformation}
      (comes : Relation.ReflTransGen (Advances count) s s')
      (fails : readSlot s'.index s'.cursor = .error cause) : Ends count s (.error cause)

/-- An entry in front leaves the end as it is. -/
theorem Ends.of_advances {answer : Except Malformation (Pool × Cursor)} (h : Advances count s s')
    (ends : Ends count s' answer) : Ends count s answer := by
  cases ends with
  | full comes reached => exact .full (comes.head h) reached
  | overflow comes within reads exceeds => exact .overflow (comes.head h) within reads exceeds
  | stuck comes fails => exact .stuck (comes.head h) fails

/-- The reading of slots ends in one of these ways. -/
theorem ends_readFrom (count : UInt16) (s : Progress) :
    Ends count s (readFrom count s.index s.pool s.cursor) := by
  -- the induction is on how far the count is, which each entry brings closer
  induction hleft : count.toNat - s.index.toNat using Nat.strong_induction_on generalizing s with
  | _ left ih =>
    by_cases within : s.index < count
    · cases hread : readSlot s.index s.cursor with
      | error cause =>
        rw [readFrom_of_lt within, run_bind, hread]
        exact .stuck .refl hread
      | ok p =>
        cases hnext : indexBehind? s.index p.1.entry with
        | none =>
          rw [readFrom_of_overflow within hread hnext]
          exact .overflow .refl within hread hnext
        | some next =>
          have step : Advances count s ⟨next, s.pool.append p.1, p.2⟩ := .entry within hread hnext
          have hrises := UInt16.lt_iff_toNat_lt.1 step.index_lt
          have hwithin := UInt16.lt_iff_toNat_lt.1 within
          rw [readFrom_of_advances step]
          exact .of_advances step (ih _ (by omega) _ rfl)
    · have reached := UInt16.not_lt.1 within
      rw [readFrom_of_le reached]
      exact .full .refl reached

/-! ### What makes the reading of an entry fail -/

/-- A reader fails for no other causes. -/
def FailsOnly {α : Type} (causes : Malformation → Prop) (r : Reader α) : Prop :=
  ∀ c cause, r c = .error cause → causes cause

section

variable {α β : Type} {causes : Malformation → Prop}

/-- An answer without reading does not fail. -/
theorem failsOnly_pure (a : α) : FailsOnly causes (pure a : Reader α) := by
  intro c cause h
  cases h

/-- A reader after another one fails for the causes of both. -/
theorem FailsOnly.bind {r : Reader α} {f : α → Reader β} (hr : FailsOnly causes r)
    (hf : ∀ a, FailsOnly causes (f a)) : FailsOnly causes (r >>= f) := by
  intro c cause h
  rw [run_bind] at h
  cases hfirst : r c with
  | error e =>
    rw [hfirst] at h
    obtain rfl := Except.error.inj h
    exact hr c _ hfirst
  | ok p =>
    rw [hfirst] at h
    exact hf p.1 p.2 cause h

variable (htruncated : causes .truncated)
include htruncated

/-- Bytes are missing where a reader of bytes fails. -/
theorem failsOnly_bytes (n : Nat) : FailsOnly causes (Reader.bytes n) := by
  intro c cause h
  rw [Reader.bytes] at h
  dsimp only at h
  split at h
  · cases h
  · obtain rfl := Except.error.inj h
    exact htruncated

/-- A byte is missing where a reader of one fails. -/
theorem failsOnly_u8 : FailsOnly causes u8 := by
  intro c cause h
  rw [u8] at h
  split at h
  · obtain rfl := Except.error.inj h
    exact htruncated
  · cases h

/-- Bytes are missing where a reader of a short number fails. -/
theorem failsOnly_u16 : FailsOnly causes u16 :=
  (failsOnly_bytes htruncated 2).bind fun _ => failsOnly_pure _

/-- Bytes are missing where a reader of a number fails. -/
theorem failsOnly_u32 : FailsOnly causes u32 :=
  (failsOnly_bytes htruncated 4).bind fun _ => failsOnly_pure _

/-- Bytes are missing where a reader of a long number fails. -/
theorem failsOnly_u64 : FailsOnly causes u64 :=
  (failsOnly_bytes htruncated 8).bind fun _ => failsOnly_pure _

/-- Bytes are missing or are no text where a reader of a text fails. -/
theorem failsOnly_readText : FailsOnly causes readText :=
  (failsOnly_u16 htruncated).bind fun n =>
    (failsOnly_bytes htruncated n.toNat).bind fun _ => failsOnly_pure _

end

/-- Why an entry cannot be read. -/
def EntryFault (index : UInt16) (cause : Malformation) : Prop :=
  cause = .truncated ∨ ∃ tag, cause = .badTag tag index

/-- An entry cannot be read if the input ends or its tag is unknown. -/
theorem failsOnly_readSlot (index : UInt16) : FailsOnly (EntryFault index) (readSlot index) := by
  have htruncated : EntryFault index .truncated := .inl rfl
  have hu8 := failsOnly_u8 htruncated
  have hu16 := failsOnly_u16 htruncated
  have hu32 := failsOnly_u32 htruncated
  have hu64 := failsOnly_u64 htruncated
  have hi32 : FailsOnly (EntryFault index) i32 := hu32.bind fun _ => failsOnly_pure _
  have hi64 : FailsOnly (EntryFault index) i64 := hu64.bind fun _ => failsOnly_pure _
  refine hu8.bind fun tag => ?_
  split
  · exact failsOnly_readText htruncated
  · refine FailsOnly.bind ?_ fun _ => failsOnly_pure _
    unfold readEntry
    split
    case h_17 =>
      intro c cause h
      obtain rfl := Except.error.inj h
      exact .inr ⟨tag, rfl⟩
    -- behind a known tag there are one or two words
    all_goals
      simp only [FailsOnly.bind, failsOnly_pure, hu8, hu16, hu32, hu64, hi32, hi64, implies_true]

/-! ### Where the index overflows -/

/-- The index of the next slot is the number of slots so far. -/
theorem index_eq_size_of_comes (h : Relation.ReflTransGen (Advances count) s s')
    (hs : s.index.toNat = s.pool.size) : s'.index.toNat = s'.pool.size := by
  induction h with
  | refl => exact hs
  | tail _ step ih =>
    cases step with
    | entry _ _ fits => rw [size_append, indexBehind?_eq_some_iff.1 fits, ih]

/-- A 64-bit number stands at the last index but one. -/
def WideAtLimit (input : Cursor) : Prop :=
  ∃ s slot, Enters input s slot ∧ s.index = 65534 ∧ slot.entry.isWide = true

variable {input : Cursor}

/-- At every step the index is the number of slots so far. -/
theorem ComesTo.index_eq_size (h : ComesTo input s) : s.index.toNat = s.pool.size := by
  obtain ⟨count, rest, -, comes⟩ := h
  exact index_eq_size_of_comes comes rfl

/-- An entry that is read takes the index past 16 bits if it is a 64-bit number at the limit. -/
theorem Enters.exceeds_iff {slot : PoolSlot} (h : Enters input s slot) :
    65535 < s.index.toNat + slot.entry.slots ↔ s.index = 65534 ∧ slot.entry.isWide = true := by
  obtain ⟨count, -, -, -, -, within, -⟩ := h
  -- the index in front of the entry is less than a count of 16 bits
  have hlt := count.toNat_lt
  have hwithin := UInt16.lt_iff_toNat_lt.1 within
  constructor
  · intro hexceeds
    have hslots := slot.entry.slots_le
    refine ⟨UInt16.toNat_inj.1 (show s.index.toNat = 65534 by omega), ?_⟩
    by_contra hnarrow
    rw [Entry.slots, if_neg hnarrow] at hexceeds
    omega
  · rintro ⟨hindex, hwide⟩
    rw [hindex, Entry.slots, if_pos hwide]
    decide

/-- Reading a pool starts at the index 1, behind its count. -/
theorem read_of_u16 {rest : Cursor} (h : u16 input = .ok (count, rest)) :
    read input = readFrom count 1 empty rest := by
  rw [read, run_bind, h]
  rfl

/-- **Reading overflows its index exactly at a 64-bit number at the limit.** -/
theorem read_eq_overflow_iff : read input = .error .overflow ↔ WideAtLimit input := by
  constructor
  · intro h
    cases hcount : u16 input with
    | error cause =>
      -- without a count there is another fault
      have honly : FailsOnly (· = .truncated) u16 := failsOnly_u16 rfl
      have hcause : cause = .truncated := honly _ _ hcount
      rw [read, run_bind, hcount, hcause] at h
      cases h
    | ok p =>
      obtain ⟨count, rest⟩ := p
      have hends : Ends count ⟨1, empty, rest⟩ (readFrom count 1 empty rest) := ends_readFrom _ _
      rw [← read_of_u16 hcount, h] at hends
      cases hends with
      | @overflow s slot behind comes within reads exceeds =>
        have henters : Enters input s slot :=
          ⟨count, rest, behind, hcount, comes, within, reads⟩
        exact ⟨s, slot, henters, henters.exceeds_iff.1 (indexBehind?_eq_none_iff.1 exceeds)⟩
      | stuck _ fails =>
        rcases failsOnly_readSlot _ _ _ fails with hcause | ⟨tag, hcause⟩
        · cases hcause
        · cases hcause
  · rintro ⟨s, slot, henters, hlimit⟩
    have hexceeds := indexBehind?_eq_none_iff.2 (henters.exceeds_iff.2 hlimit)
    obtain ⟨count, rest, behind, hcount, comes, within, reads⟩ := henters
    rw [read_of_u16 hcount]
    exact (readFrom_of_comes comes).trans (readFrom_of_overflow within reads hexceeds)

/-- What reading answers is a place that it comes to. -/
theorem exists_comesTo_of_read {p : Pool} {rest : Cursor} (h : read input = .ok (p, rest)) :
    ∃ s, ComesTo input s ∧ s.pool = p := by
  obtain ⟨count, c, hcount, h⟩ := bind_eq_ok_iff.1 h
  have hends : Ends count ⟨1, empty, c⟩ (readFrom count 1 empty c) := ends_readFrom _ _
  rw [h] at hends
  cases hends with
  | full comes reached => exact ⟨_, ⟨count, c, hcount, comes⟩, rfl⟩

/-- The number of slots that is written is the number of slots if it has 16 bits. -/
theorem natOfBytes_take_bytes {p : Pool} (h : p.size ≤ 65535) :
    natOfBytes (p.bytes.take 2) = p.size := by
  have hnat : p.size.toUInt16.toNat = p.size := Nat.mod_eq_of_lt (by omega)
  have hfront : p.bytes.take 2 = count16 p.size := by
    rw [Pool.bytes, List.take_append_of_le_length (length_count16 _).ge,
      List.take_of_length_le (length_count16 _).le]
  rw [hfront, count16, word16, natOfBytes_bytesOfNat (p.size.toUInt16.toNat_lt), hnat]

/-! ### A pool at the limit -/

/-- Entries that fit are read one after the other. -/
theorem comes_of_entries {entries : List PoolSlot} (h : ∀ slot ∈ entries, Sound slot)
    {index next : UInt16} (hnext : next.toNat = index.toNat + (entries.flatMap slotsOf).length)
    (hcount : next ≤ count) (p : Pool) (rest : Bytes) (position : Nat) :
    Relation.ReflTransGen (Advances count)
      ⟨index, p, ⟨entries.flatMap slotBytes ++ rest, position⟩⟩
      ⟨next, entries.foldl append p, ⟨rest, position + (entries.flatMap slotBytes).length⟩⟩ := by
  -- On the entries, for every index and pool: an entry is one step, and takes as many slots as it
  -- adds to the index.
  induction entries generalizing index p position with
  | nil =>
    have hsame : next = index := UInt16.toNat_inj.1 hnext
    subst hsame
    exact .refl
  | cons slot entries ih =>
    have hslots := length_slotsOf slot
    have hpos := slot.entry.slots_pos
    have hlimit := UInt16.le_iff_toNat_le.1 hcount
    have hlt := count.toNat_lt
    rw [List.flatMap_cons, List.length_append, hslots] at hnext
    obtain ⟨behind, hbehind⟩ : ∃ behind, indexBehind? index slot.entry = some behind := by
      rw [← Option.ne_none_iff_exists', ne_eq, indexBehind?_eq_none_iff]
      omega
    have hsum := indexBehind?_eq_some_iff.1 hbehind
    have hread := reads_readSlot (h slot List.mem_cons_self) index
      (entries.flatMap slotBytes ++ rest) position
    rw [← List.append_assoc] at hread
    have hwithin : index < count := UInt16.lt_iff_toNat_lt.2 (by omega)
    have step : Advances count
        ⟨index, p, ⟨(slot :: entries).flatMap slotBytes ++ rest, position⟩⟩ _ :=
      .entry hwithin hread hbehind
    refine .head step ?_
    have hleft : next.toNat = behind.toNat + (entries.flatMap slotsOf).length := by omega
    have hrest := ih (fun s hs => h s (List.mem_cons_of_mem _ hs)) hleft (p.append slot)
      (position + (slotBytes slot).length)
    rw [List.flatMap_cons, List.length_append, ← Nat.add_assoc]
    exact hrest

/-- Whatever entries take the indices up to 65533, a 64-bit number behind them is one at the limit.
-/
theorem wideAtLimit_of_entries {entries : List PoolSlot} (h : ∀ slot ∈ entries, Sound slot)
    (hlength : (entries.flatMap slotsOf).length = 65533) {slot : PoolSlot} (hslot : Sound slot)
    (hwide : slot.entry.isWide = true) (rest : Bytes) (position : Nat) :
    WideAtLimit ⟨count16 65535 ++ (entries.flatMap slotBytes ++ (slotBytes slot ++ rest)),
      position⟩ := by
  have hnext : (65534 : UInt16).toNat = (1 : UInt16).toNat + (entries.flatMap slotsOf).length := by
    rw [hlength]
    rfl
  have hcount : (65534 : UInt16) ≤ 65535 := by decide
  have comes := comes_of_entries h hnext hcount empty (slotBytes slot ++ rest)
    (position + (word16 65535).length)
  have hwithin : (65534 : UInt16) < 65535 := by decide
  exact ⟨_, slot, ⟨_, _, _, reads_u16 65535 _ position, comes, hwithin,
    reads_readSlot hslot 65534 rest _⟩, rfl, hwide⟩

/-- A pool of 65533 classes and a 64-bit number, with the greatest count. -/
def crowded : Bytes :=
  count16 65535 ++ ((List.replicate 65533 ⟨.ofClass 0, none⟩).flatMap slotBytes ++
    slotBytes ⟨.long 0, none⟩)

/-- Its number stands at the limit. -/
theorem wideAtLimit_crowded (position : Nat) : WideAtLimit ⟨crowded, position⟩ := by
  rw [crowded, ← List.append_nil (slotBytes ⟨.long 0, none⟩)]
  refine wideAtLimit_of_entries ?_ ?_ (sound_of_isWritable rfl) rfl [] position
  · intro slot hslot
    rw [List.eq_of_mem_replicate hslot]
    exact sound_of_isWritable rfl
  · have hslots : (slotsOf ⟨.ofClass 0, none⟩).length = 1 := rfl
    rw [List.length_flatMap, List.map_replicate, hslots, List.sum_replicate_nat, Nat.mul_one]

end Pool

namespace ClassFile

/-- If its pool cannot be read, a class file cannot be read, for the same cause. -/
theorem decode_of_read_eq_error {bs : Bytes} {cause : Malformation}
    (h : Pool.read ⟨bs, 8⟩ = .error cause) (minor major : UInt16) :
    decode (word32 magic ++ word16 minor ++ word16 major ++ bs) = .error (.inClass "?" cause) := by
  have hheader : readHeader.run ⟨word32 magic ++ word16 minor ++ word16 major ++ bs, 0⟩ =
      .error cause := by
    show readHeader _ = _
    rw [readHeader, List.append_assoc, List.append_assoc, run_bind, reads_u32 magic _ 0]
    show (Reader.u16 >>= _) _ = _
    rw [run_bind, reads_u16 minor _ _]
    show (Reader.u16 >>= _) _ = _
    rw [run_bind, reads_u16 major _ _]
    show (Pool.read >>= _) ⟨bs, 8⟩ = _
    rw [run_bind, h]
    rfl
  rw [decode, hheader]

end ClassFile

/-! ### How far the indices go -/

namespace Pool

/-- How far the indices go when an input is read as a pool. -/
structure BoundsIndices (input : Cursor) : Prop where
  /-- At every step the index is the number of slots so far. -/
  steps : ∀ {s : Progress}, ComesTo input s → s.index.toNat = s.pool.size
  /-- An entry that is read leaves the index within 16 bits, whichever it is, unless a 64-bit number
  stands at the limit. -/
  fits : (∀ s slot, Enters input s slot → s.index.toNat + slot.entry.slots ≤ 65535) ↔
    ¬WideAtLimit input
  /-- The index overflows at such a number, and nowhere else. -/
  overflows : read input = .error .overflow ↔ WideAtLimit input
  /-- The number of slots of a pool that is answered has 16 bits and is the one that is written, and
  no number stood at the limit. -/
  answers : ∀ {p : Pool} {rest : Cursor}, read input = .ok (p, rest) →
    ¬WideAtLimit input ∧ p.size ≤ 65535 ∧ natOfBytes (p.bytes.take 2) = p.size

/-- So far the indices go for every input. -/
theorem boundsIndices_read (input : Cursor) : BoundsIndices input := by
  refine ⟨fun h => h.index_eq_size, ?_, read_eq_overflow_iff, ?_⟩
  · constructor
    · rintro hfits ⟨s, slot, henters, hlimit⟩
      exact absurd (henters.exceeds_iff.2 hlimit) (Nat.not_lt.2 (hfits s slot henters))
    · intro hlimit s slot henters
      by_contra hexceeds
      exact hlimit ⟨s, slot, henters, henters.exceeds_iff.1 (Nat.not_le.1 hexceeds)⟩
  · intro p rest h
    obtain ⟨s, comes, rfl⟩ := exists_comesTo_of_read h
    have hlt := s.index.toNat_lt
    have hsize : s.pool.size ≤ 65535 := by
      rw [← comes.index_eq_size]
      omega
    refine ⟨fun hwide => ?_, hsize, natOfBytes_take_bytes hsize⟩
    rw [read_eq_overflow_iff.2 hwide] at h
    cases h

/-- The number at the limit is read at the index 65534, two more are 65536, and the program stops at
the overflow. An addition that is not checked would come to the index 0. -/
theorem overflows_crowded :
    (∃ s slot, Enters ⟨crowded, 8⟩ s slot ∧ s.index.toNat + slot.entry.slots = 65536 ∧
      s.index + 1 + 1 = 0) ∧
      ClassFile.decode (word32 ClassFile.magic ++ word16 0 ++ word16 52 ++ crowded) =
        .error .overflow := by
  have hwide := wideAtLimit_crowded 8
  refine ⟨?_, ClassFile.decode_of_read_eq_error (read_eq_overflow_iff.2 hwide) 0 52⟩
  obtain ⟨s, slot, henters, hindex, hslot⟩ := hwide
  refine ⟨s, slot, henters, ?_, ?_⟩
  · rw [hindex, Entry.slots, if_pos hslot]
    rfl
  · rw [hindex]
    rfl

end Pool

end Unscramble.Binary
