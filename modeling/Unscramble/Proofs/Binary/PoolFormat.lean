import Unscramble.Binary.PoolFormat
import Unscramble.Proofs.Binary.Pool
import Unscramble.Proofs.Binary.Reading

/-! # Pools are read back

The bytes of a valid pool are read as a pool with the same slots, and every pool that is read is
valid.

Main statements: `Pool.reads_read`, `Pool.valid_of_read`. -/

namespace Unscramble.Binary.Pool

open Reader

/-! ### Entries -/

/-- A text is read back from its bytes. -/
theorem reads_readText {text : String} {verbatim : Option Bytes}
    (h : Sound ⟨.utf8 text, verbatim⟩) :
    Reads readText (count16 (verbatim.getD (ModifiedUtf8.encode text)).length ++
      verbatim.getD (ModifiedUtf8.encode text)) ⟨.utf8 text, verbatim⟩ := by
  -- Whatever the bytes are, they spell the text, and whether they stay is settled by comparing.
  have hread : ∀ bs : Bytes, bs.length ≤ 65535 → Reads readText (count16 bs.length ++ bs)
      ⟨.utf8 (ModifiedUtf8.decode bs),
        if ModifiedUtf8.encode (ModifiedUtf8.decode bs) = bs then none else some bs⟩ := by
    intro bs hbs
    have hnat : bs.length.toUInt16.toNat = bs.length := Nat.mod_eq_of_lt (by omega)
    refine (reads_u16 bs.length.toUInt16).bind ?_
    rw [hnat]
    exact (reads_bytes rfl).bind_pure fun bs => _
  cases verbatim with
  | none =>
    have hplain := hread _ (h.plain text rfl rfl)
    rw [ModifiedUtf8.decode_encode, if_pos rfl] at hplain
    exact hplain
  | some bs =>
    obtain ⟨t, ht, hdecode, hne, hlength⟩ := h.verbatim bs rfl
    cases ht
    have hbytes := hread bs hlength
    rw [hdecode, if_neg hne] at hbytes
    exact hbytes

/-- A word behind its tag. -/
theorem reads_tagged {r : Reader Entry} {make : UInt16 → Entry} (hr : r = do return make (← u16))
    (w : UInt16) : Reads r (word16 w) (make w) := by
  rw [hr]
  exact (reads_u16 w).bind_pure make

/-- Two words behind their tag. -/
theorem reads_taggedPair {r : Reader Entry} {make : UInt16 → UInt16 → Entry}
    (hr : r = do return make (← u16) (← u16)) (v w : UInt16) :
    Reads r (word16 v ++ word16 w) (make v w) := by
  rw [hr]
  exact (reads_u16 v).bind ((reads_u16 w).bind_pure (make v))

/-- The bytes of a slot are read as the slot. -/
theorem reads_readSlot {slot : PoolSlot} (h : Sound slot) (index : UInt16) :
    Reads (readSlot index) (slotBytes slot) slot := by
  obtain ⟨e, verbatim⟩ := slot
  have hverbatim : (∀ t, e ≠ .utf8 t) → verbatim = none := by
    intro hne
    cases verbatim with
    | none => rfl
    | some bs =>
      obtain ⟨t, ht, -⟩ := h.verbatim bs rfl
      exact absurd ht (hne t)
  -- An entry other than a text is what stands behind its tag.
  have hentry : ∀ {tag : UInt8} {bs : Bytes}, tag ≠ 1 → (∀ t, e ≠ .utf8 t) →
      Reads (readEntry tag index) bs e → Reads (readSlot index) (tag :: bs) ⟨e, verbatim⟩ := by
    intro tag bs htag hne hread
    rw [hverbatim hne]
    refine (reads_u8 tag).bind ?_
    rw [if_neg htag]
    exact hread.bind_pure fun e => _
  cases e with
  | unusable => exact absurd rfl h.usable
  | utf8 text =>
    refine (reads_u8 1).bind ?_
    rw [if_pos rfl]
    exact reads_readText h
  | int v => exact hentry (by decide) (by simp) ((reads_i32 v).bind_pure Entry.int)
  | float v => exact hentry (by decide) (by simp) ((reads_u32 v).bind_pure Entry.float)
  | long v => exact hentry (by decide) (by simp) ((reads_i64 v).bind_pure Entry.long)
  | double v => exact hentry (by decide) (by simp) ((reads_u64 v).bind_pure Entry.double)
  | ofClass n => exact hentry (by decide) (by simp) (reads_tagged rfl n)
  | string t => exact hentry (by decide) (by simp) (reads_tagged rfl t)
  | member kind o nt =>
    cases kind with
    | field => exact hentry (by decide) (by simp) (reads_taggedPair rfl o nt)
    | method => exact hentry (by decide) (by simp) (reads_taggedPair rfl o nt)
    | interfaceMethod => exact hentry (by decide) (by simp) (reads_taggedPair rfl o nt)
  | nameAndType n d => exact hentry (by decide) (by simp) (reads_taggedPair rfl n d)
  | methodHandle kind r =>
    refine hentry (by decide) (by simp) ?_
    exact (reads_u8 kind).bind ((reads_u16 r).bind_pure (Entry.methodHandle kind))
  | methodType d => exact hentry (by decide) (by simp) (reads_tagged rfl d)
  | dynamic b nt => exact hentry (by decide) (by simp) (reads_taggedPair rfl b nt)
  | invokeDynamic b nt => exact hentry (by decide) (by simp) (reads_taggedPair rfl b nt)
  | ofModule n => exact hentry (by decide) (by simp) (reads_tagged rfl n)
  | ofPackage n => exact hentry (by decide) (by simp) (reads_tagged rfl n)

/-! ### Whole pools -/

section

variable {count index next : UInt16} {p : Pool}

/-- A slot is read in front of the count, and then the slots behind it, if its index does not
overflow. -/
theorem readFrom_of_lt (h : index < count) : Pool.readFrom count index p =
    readSlot index >>= fun slot => match indexBehind? index slot.entry with
      | none => fail .overflow
      | some next => Pool.readFrom count next (p.append slot) := by
  rw [Pool.readFrom, dif_pos h]
  refine congrArg _ (funext fun slot => ?_)
  split
  · next hnone => rw [hnone]
  · next next hsome => rw [hsome]

/-- Nothing is read at the count. -/
theorem readFrom_of_le (h : count ≤ index) : Pool.readFrom count index p = pure p := by
  rw [Pool.readFrom, dif_neg (UInt16.not_lt.2 h)]

/-- The addition overflows if the sum has more than 16 bits. -/
theorem indexBehind?_eq_none_iff {e : Entry} :
    indexBehind? index e = none ↔ 65535 < index.toNat + e.slots := by
  constructor
  · intro hnone
    by_contra hfits
    have hlt : index.toNat + e.slots < 2 ^ 16 := by omega
    have hsome : indexBehind? index e = some (UInt16.ofNat (index.toNat + e.slots)) :=
      indexBehind?_eq_some_iff.2 (UInt16.toNat_ofNat_of_lt' hlt)
    rw [hnone] at hsome
    cases hsome
  · intro hexceeds
    cases hnext : indexBehind? index e with
    | none => rfl
    | some next =>
      have hsum := indexBehind?_eq_some_iff.1 hnext
      have hlt := next.toNat_lt
      omega

/-- The index behind an entry is higher. -/
theorem lt_of_indexBehind? {e : Entry} (h : indexBehind? index e = some next) : index < next := by
  have hsum := indexBehind?_eq_some_iff.1 h
  have hpos := e.slots_pos
  exact UInt16.lt_iff_toNat_lt.2 (by omega)

/-- The bytes of entries one after the other are read as slots behind those that are there. -/
theorem reads_readFrom {entries : List PoolSlot} (h : ∀ slot ∈ entries, Sound slot)
    (hcount : index.toNat + (entries.flatMap slotsOf).length = count.toNat) (p : Pool) :
    Reads (Pool.readFrom count index p) (entries.flatMap slotBytes) (entries.foldl append p) := by
  -- On the entries, for every index: the index behind an entry exists, since it is at most the
  -- count.
  induction entries generalizing index p with
  | nil =>
    rw [readFrom_of_le (UInt16.le_iff_toNat_le.2 (le_of_eq hcount.symm))]
    exact reads_pure p
  | cons slot entries ih =>
    have hslots := length_slotsOf slot
    have hpos := slot.entry.slots_pos
    have hlimit := count.toNat_lt
    rw [List.flatMap_cons, List.length_append] at hcount
    have hlt : index < count := UInt16.lt_iff_toNat_lt.2 (by omega)
    obtain ⟨next, hnext⟩ : ∃ next, indexBehind? index slot.entry = some next := by
      rw [← Option.ne_none_iff_exists', ne_eq, indexBehind?_eq_none_iff]
      omega
    have hsum := indexBehind?_eq_some_iff.1 hnext
    rw [readFrom_of_lt hlt, List.flatMap_cons]
    refine (reads_readSlot (h slot List.mem_cons_self) index).bind ?_
    rw [hnext]
    exact ih (fun s hs => h s (List.mem_cons_of_mem _ hs)) (by omega) (p.append slot)

end

/-- Entries that are added come behind those that there are. -/
theorem toList_slots_foldl_append (entries : List PoolSlot) (p : Pool) :
    (entries.foldl append p).slots.toList = p.slots.toList ++ entries.flatMap slotsOf := by
  induction entries generalizing p with
  | nil => simp
  | cons slot entries ih =>
    rw [List.foldl_cons, ih, toList_slots_append, List.flatMap_cons, List.append_assoc]

/-- The bytes of all slots are those of the entries. -/
theorem flatMap_slotBytes_slotsOf (entries : List PoolSlot) :
    (entries.flatMap slotsOf).flatMap slotBytes = entries.flatMap slotBytes := by
  rw [List.flatMap_assoc]
  congr 1
  funext slot
  rw [slotsOf]
  split <;> simp [slotBytes]

/-- The bytes of a valid pool are read as a pool with the same slots. -/
theorem reads_read {p : Pool} (h : p.Valid) : ∃ q, q.slots = p.slots ∧ Reads read p.bytes q := by
  obtain ⟨entries, hslots, hsound⟩ := h.holds
  have hsize : p.size = 1 + (entries.flatMap slotsOf).length := by
    rw [Pool.size, ← Array.length_toList, hslots, List.length_cons, Nat.add_comm]
  have hnat : p.size.toUInt16.toNat = p.size := by
    have hle := h.size
    exact Nat.mod_eq_of_lt (by omega)
  refine ⟨entries.foldl append empty, ?_, ?_⟩
  · apply Array.toList_inj.1
    rw [toList_slots_foldl_append, hslots]
    rfl
  · have hbytes : p.bytes = count16 p.size ++ entries.flatMap slotBytes := by
      rw [bytes, hslots, List.flatMap_cons, flatMap_slotBytes_slotsOf]
      rfl
    rw [hbytes]
    refine (reads_u16 p.size.toUInt16).bind (reads_readFrom hsound ?_ empty)
    rw [hnat, hsize]
    rfl

/-- Entries of one slot take one slot each. -/
theorem flatMap_slotsOf {entries : List Entry} (h : ∀ e ∈ entries, e.isWide = false) :
    (entries.map fun e => (⟨e, none⟩ : PoolSlot)).flatMap slotsOf =
      entries.map fun e => ⟨e, none⟩ := by
  induction entries with
  | nil => rfl
  | cons e entries ih =>
    have he := h e List.mem_cons_self
    rw [List.map_cons, List.flatMap_cons, ih fun e he => h e (List.mem_cons_of_mem _ he), slotsOf,
      if_neg (by simp [he])]
    rfl

/-- Whether an entry is read back as it is: it can be used, and it is no text that is too long. -/
def isWritable : Entry → Bool
  | .unusable => false
  | .utf8 text => (ModifiedUtf8.encode text).length ≤ 65535
  | _ => true

/-- An entry that may be written is sound. -/
theorem sound_of_isWritable {e : Entry} (h : isWritable e = true) : Sound ⟨e, none⟩ := by
  cases e with
  | unusable => cases h
  | utf8 text =>
    refine ⟨by simp, ?_, by simp⟩
    intro t ht _
    cases ht
    exact of_decide_eq_true h
  | _ => exact sound_of_not_utf8 (by simp) (by simp)

/-- The pool of given entries is read back as it is. -/
theorem reads_read_ofEntries {entries : List Entry} (hsound : ∀ e ∈ entries, isWritable e = true)
    (hnarrow : ∀ e ∈ entries, e.isWide = false) (hsize : entries.length < 65535) :
    Reads read (ofEntries entries).bytes (ofEntries entries) := by
  have hfold : ofEntries entries = (entries.map fun e => ⟨e, none⟩).foldl append empty := by
    rw [ofEntries, List.foldl_map]
  have hbytes : (ofEntries entries).bytes = count16 (entries.length + 1) ++
      (entries.map fun e => (⟨e, none⟩ : PoolSlot)).flatMap slotBytes := by
    rw [bytes, size_ofEntries hnarrow, hfold, toList_slots_foldl_append, flatMap_slotsOf hnarrow]
    rfl
  have hcount : (entries.length + 1).toUInt16.toNat = entries.length + 1 :=
    Nat.mod_eq_of_lt (by omega)
  rw [hbytes]
  rw [hfold]
  refine (reads_u16 (entries.length + 1).toUInt16).bind (reads_readFrom ?_ ?_ empty)
  · intro slot hslot
    obtain ⟨e, he, rfl⟩ := List.mem_map.1 hslot
    exact sound_of_isWritable (hsound e he)
  · rw [hcount, flatMap_slotsOf hnarrow, List.length_map, Nat.add_comm]
    rfl

/-! ### Pools that are read -/

/-- The bytes that are taken are as many as asked for. -/
theorem length_of_bytes {n : Nat} {bs : Bytes} {c c' : Cursor}
    (h : Reader.bytes n c = .ok (bs, c')) : bs.length = n := by
  rw [Reader.bytes] at h
  dsimp only at h
  split at h
  · next hlength =>
    cases h
    exact hlength
  · cases h

/-- A text that is read can be read back. -/
theorem sound_of_readText {c c' : Cursor} {slot : PoolSlot} (h : readText c = .ok (slot, c')) :
    Sound slot := by
  obtain ⟨n, c₁, -, h⟩ := bind_eq_ok_iff.1 h
  obtain ⟨bs, c₂, hbs, h⟩ := bind_eq_ok_iff.1 h
  have hlength : bs.length ≤ 65535 := by
    have hn := n.toNat_lt
    rw [length_of_bytes hbs]
    omega
  cases h
  refine ⟨by simp, ?_, ?_⟩
  · intro text htext hverbatim
    cases htext
    -- A text without the bytes it was read with is one that encoding spells the same way.
    have hsame : ModifiedUtf8.encode (ModifiedUtf8.decode bs) = bs := by
      by_contra hne
      rw [if_neg hne] at hverbatim
      cases hverbatim
    rw [hsame]
    exact hlength
  · intro bs' hverbatim
    refine ⟨_, rfl, ?_⟩
    dsimp only at hverbatim
    split at hverbatim
    · cases hverbatim
    · next hne =>
      cases hverbatim
      exact ⟨rfl, hne, hlength⟩

/-- An entry that is read behind a tag is usable and no text. -/
theorem usable_of_readEntry {tag : UInt8} {index : UInt16} {c c' : Cursor} {e : Entry}
    (h : readEntry tag index c = .ok (e, c')) : e ≠ .unusable ∧ ∀ t, e ≠ .utf8 t := by
  -- Every tag has a constructor of its own, behind the words that are read first.
  unfold readEntry at h
  split at h
  all_goals
    first
    | obtain ⟨v, c₁, -, h⟩ := bind_eq_ok_iff.1 h
      first
      | cases h
        simp
      | obtain ⟨w, c₂, -, h⟩ := bind_eq_ok_iff.1 h
        cases h
        simp
    | cases h

/-- What is read can be read back. -/
theorem sound_of_readSlot {index : UInt16} {c c' : Cursor} {slot : PoolSlot}
    (h : readSlot index c = .ok (slot, c')) : Sound slot := by
  obtain ⟨tag, c₁, -, h⟩ := bind_eq_ok_iff.1 h
  split at h
  · exact sound_of_readText h
  · obtain ⟨e, c₂, he, h⟩ := bind_eq_ok_iff.1 h
    obtain ⟨husable, htext⟩ := usable_of_readEntry he
    cases h
    exact sound_of_not_utf8 husable htext

/-- Reading more slots keeps a pool valid. -/
theorem valid_of_readFrom {count index : UInt16} {p p' : Pool} {c c' : Cursor}
    (h : Pool.readFrom count index p c = .ok (p', c')) (hp : p.Valid)
    (hsize : p.size = index.toNat) : p'.Valid := by
  -- On how far the count is: the index is the number of slots so far.
  induction hleft : count.toNat - index.toNat using Nat.strong_induction_on
    generalizing index p c with
  | _ left ih =>
    by_cases hlt : index < count
    · rw [readFrom_of_lt hlt] at h
      obtain ⟨slot, c₁, hslot, h⟩ := bind_eq_ok_iff.1 h
      cases hnext : indexBehind? index slot.entry with
      | none =>
        rw [hnext] at h
        cases h
      | some next =>
        rw [hnext] at h
        have hsum := indexBehind?_eq_some_iff.1 hnext
        have hbound := next.toNat_lt
        have hpos := slot.entry.slots_pos
        have hlt := UInt16.lt_iff_toNat_lt.1 hlt
        refine ih (count.toNat - next.toNat) (by omega) h ?_ ?_ rfl
        · exact hp.append (sound_of_readSlot hslot) (by omega)
        · rw [size_append, hsize, hsum]
    · rw [readFrom_of_le (UInt16.not_lt.1 hlt)] at h
      cases h
      exact hp

/-- Every pool that is read is valid. -/
theorem valid_of_read {c c' : Cursor} {p : Pool} (h : read c = .ok (p, c')) : p.Valid := by
  obtain ⟨n, c₁, -, h⟩ := bind_eq_ok_iff.1 h
  exact valid_of_readFrom h valid_empty rfl

end Unscramble.Binary.Pool
