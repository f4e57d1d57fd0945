import Unscramble.Proofs.Binary.CodeArray

/-! # The pool of a file survives

The bytes that a pool is read from are the bytes of its slots, also those of texts that do not encode
to the bytes they were read from. A class that is written adds to the pool it was read with, so its
file has the entries of the old file first, byte for byte, and new ones behind them. An index that
stands in a part which is carried along names the same entry in the file that is written, whatever has
become of the class in between.

Main definition: `ClassFile.HasPool`. Main statements: `Pool.takes_read`,
`ClassFile.grows_classBytes`, `ClassFile.below_of_encode`, `ClassFile.entries_of_encode`. -/

namespace Unscramble.Binary

open Reader

namespace Pool

/-! ### The bytes of entries -/

/-- A text is read from the bytes of its slot, whatever they decode to. -/
theorem takes_readText : Takes readText fun slot bs => byte 1 ++ bs = slotBytes slot := by
  refine takes_u16.bind fun n => ?_
  refine (takes_bytes n.toNat).bind_pure ?_
  rintro text bs ⟨rfl, hlength⟩ front rfl
  have hcount : count16 bs.length = word16 n := by
    rw [hlength, count16]
    exact congrArg word16 UInt16.ofNat_toNat
  -- a text that encodes to the bytes that were read has no bytes of its own
  by_cases hplain : ModifiedUtf8.encode (ModifiedUtf8.decode bs) = bs
  · rw [if_pos hplain]
    show _ = byte 1 ++ count16 (ModifiedUtf8.encode (ModifiedUtf8.decode bs)).length ++
      ModifiedUtf8.encode (ModifiedUtf8.decode bs)
    rw [hplain, hcount, List.append_assoc]
  · rw [if_neg hplain]
    show _ = byte 1 ++ count16 bs.length ++ bs
    rw [hcount, List.append_assoc]

/-- An entry with one word is read from this word. -/
theorem takes_tagged {r : Reader Entry} {make : UInt16 → Entry} {tag : UInt8}
    (hr : r = do return make (← u16))
    (hbytes : ∀ w, slotBytes ⟨make w, none⟩ = tagged tag w) :
    Takes r fun e bs => byte tag ++ bs = slotBytes ⟨e, none⟩ := by
  rw [hr]
  refine takes_u16.bind_pure ?_
  rintro w bs rfl
  exact (hbytes w).symm

/-- An entry with two words is read from these words. -/
theorem takes_taggedPair {r : Reader Entry} {make : UInt16 → UInt16 → Entry} {tag : UInt8}
    (hr : r = do return make (← u16) (← u16))
    (hbytes : ∀ v w, slotBytes ⟨make v w, none⟩ = taggedPair tag v w) :
    Takes r fun e bs => byte tag ++ bs = slotBytes ⟨e, none⟩ := by
  rw [hr]
  refine takes_u16.bind fun v => takes_u16.bind_pure ?_
  rintro w bs rfl front rfl
  rw [hbytes v w, taggedPair, List.append_assoc]

/-- An entry is read from the bytes of its slot. -/
theorem takes_readEntry (tag : UInt8) (index : UInt16) :
    Takes (readEntry tag index) fun e bs => byte tag ++ bs = slotBytes ⟨e, none⟩ := by
  unfold readEntry
  -- one case for each tag, and one for all others, which are refused
  split
  · exact takes_i32.bind_pure fun v bs hbs => hbs ▸ rfl
  · exact takes_u32.bind_pure fun v bs hbs => hbs ▸ rfl
  · exact takes_i64.bind_pure fun v bs hbs => hbs ▸ rfl
  · exact takes_u64.bind_pure fun v bs hbs => hbs ▸ rfl
  · exact takes_tagged rfl fun w => rfl
  · exact takes_tagged rfl fun w => rfl
  · exact takes_taggedPair rfl fun v w => rfl
  · exact takes_taggedPair rfl fun v w => rfl
  · exact takes_taggedPair rfl fun v w => rfl
  · exact takes_taggedPair rfl fun v w => rfl
  · refine takes_u8.bind fun kind => takes_u16.bind_pure ?_
    rintro w bs rfl front rfl
    rfl
  · exact takes_tagged rfl fun w => rfl
  · exact takes_taggedPair rfl fun v w => rfl
  · exact takes_taggedPair rfl fun v w => rfl
  · exact takes_tagged rfl fun w => rfl
  · exact takes_tagged rfl fun w => rfl
  · exact takes_fail

/-- A slot is read from its bytes. -/
theorem takes_readSlot (index : UInt16) :
    Takes (readSlot index) fun slot bs => bs = slotBytes slot := by
  refine takes_u8.bind fun tag => Takes.ite (fun htag => ?_) fun _ => ?_
  · subst htag
    refine takes_readText.mono ?_
    rintro slot bs hbs front rfl
    exact hbs
  · refine (takes_readEntry tag index).bind_pure ?_
    rintro e bs hbs front rfl
    exact hbs

/-! ### The bytes of pools -/

/-- The slots that are read behind those of a pool, and the bytes that they are read from. -/
theorem takes_readFrom (count index : UInt16) (p : Pool) :
    Takes (Pool.readFrom count index p) fun q bs => ∃ slots : List PoolSlot,
      q.slots.toList = p.slots.toList ++ slots ∧ bs = slots.flatMap slotBytes := by
  -- the induction is on the number of slots to come, of which a wide entry takes two
  induction hleft : count.toNat - index.toNat using Nat.strong_induction_on
    generalizing index p with
  | _ left ih =>
    by_cases hlt : index < count
    · rw [readFrom_of_lt hlt]
      refine (takes_readSlot index).bind fun slot => ?_
      split
      · exact takes_fail
      next next hnext =>
      have hrises := UInt16.lt_iff_toNat_lt.1 (lt_of_indexBehind? hnext)
      have hlt := UInt16.lt_iff_toNat_lt.1 hlt
      refine (ih _ ?_ next (p.append slot) rfl).mono ?_
      · omega
      · rintro q bs ⟨slots, hslots, rfl⟩ front rfl
        refine ⟨slotsOf slot ++ slots, ?_, ?_⟩
        · rw [hslots, toList_slots_append, List.append_assoc]
        · rw [List.flatMap_append, ← List.flatMap_singleton slotBytes slot,
            ← flatMap_slotBytes_slotsOf [slot], List.flatMap_singleton]
    · rw [readFrom_of_le (UInt16.not_lt.1 hlt)]
      exact takes_pure ⟨[], by simp, rfl⟩

/-- A pool is read from a count and the bytes of its slots. -/
theorem takes_read : Takes Pool.read fun p bs =>
    ∃ count, bs = word16 count ++ p.slots.toList.flatMap slotBytes := by
  refine takes_u16.bind fun count => (takes_readFrom count 1 empty).mono ?_
  rintro p bs ⟨slots, hslots, rfl⟩ front rfl
  refine ⟨count, ?_⟩
  rw [hslots]
  rfl

end Pool

namespace ClassFile

/-! ### Indices that stay valid -/

section Grows

variable {base : Pool}

/-- Writing a field lets the pool grow. -/
theorem grows_fieldBytes (f : Field) : Grows base (fieldBytes f) := by
  rw [fieldBytes_eq]
  refine (Pool.yields_utf8 f.name).grows.bind fun i => ?_
  refine (Pool.yields_utf8 f.descriptor).grows.bind fun j => ?_
  refine (writesParts_valuePart f.value).grows.bind fun value => ?_
  refine (writesParts_annotationParts f.annotations).grows.bind fun annotations => ?_
  exact (yields_carriedParts f.attributes).grows.bind_pure _

/-- Writing a method lets the pool grow. -/
theorem grows_methodBytes (m : Method) : Grows base (methodBytes m) := by
  rw [methodBytes_eq]
  refine (Pool.yields_utf8 m.name).grows.bind fun i => ?_
  refine (Pool.yields_utf8 m.descriptor).grows.bind fun j => ?_
  refine Grows.bind ?_ fun code => ?_
  · cases m.body with
    | none => exact grows_pure []
    | some b => exact grows_part (grows_bodyBytes m.text b) "Code"
  refine (writesParts_listPart "Exceptions" fun e _ =>
    (Pool.yields_ofClass e).grows.map word16).grows.bind fun exceptions => ?_
  refine (writesParts_annotationParts m.annotations).grows.bind fun annotations => ?_
  exact (yields_carriedParts m.attributes).grows.bind_pure _

/-- Writing a class only adds to the pool. -/
theorem grows_classBytes (c : Class) : Grows base (classBytes c) := by
  refine (Pool.yields_ofClass c.name).grows.bind fun i => ?_
  refine (yields_indexOrZero Pool.yields_ofClass c.superclass).grows.bind fun superclass => ?_
  refine (grows_countedBytes fun name _ => (Pool.yields_ofClass name).grows.map word16).bind
    fun interfaces => ?_
  refine (grows_countedBytes fun f _ => grows_fieldBytes f).bind fun fields => ?_
  refine (grows_countedBytes fun m _ => grows_methodBytes m).bind fun methods => ?_
  exact (grows_classParts c).bind_pure _

end Grows

/-- What a reader answers that reads back what was written. -/
theorem eq_of_reads {α : Type} {r : Reader α} {front rest : Bytes} {a a' : α} {n : Nat}
    {c : Cursor} (h : Reads r front a) (hrun : r ⟨front ++ rest, n⟩ = .ok (a', c)) :
    a' = a ∧ c = ⟨rest, n + front.length⟩ := by
  rw [h rest n] at hrun
  cases hrun
  exact ⟨rfl, rfl⟩

/-- The pool of a class that is read is the one that stands in its file. -/
theorem pool_of_decode {minor major : UInt16} {front rest : Bytes} {q : Pool} {c : Class}
    (hread : Reads Pool.read front q)
    (h : decode (word32 magic ++ word16 minor ++ word16 major ++ front ++ rest) = .ok c) :
    c.pool = some q := by
  -- A run of the reader, taken apart; up to the pool every step has read what stands in front.
  obtain ⟨header, c₁, c₂, hheader, hrest⟩ := decode_eq_ok_iff.1 h
  obtain ⟨superclass, c₃, -, hrest⟩ := bind_eq_ok_iff.1 hrest
  obtain ⟨interfaces, c₄, -, hrest⟩ := bind_eq_ok_iff.1 hrest
  obtain ⟨fields, c₅, -, hrest⟩ := bind_eq_ok_iff.1 hrest
  obtain ⟨methods, c₆, -, hrest⟩ := bind_eq_ok_iff.1 hrest
  obtain ⟨parts, c₇, -, hrest⟩ := bind_eq_ok_iff.1 hrest
  rw [(members_of_foldlM_addClassPart (require_eq_ok_iff.1 hrest).1).1]
  simp only [List.append_assoc] at hheader
  obtain ⟨word, c₃, hword, hheader⟩ := bind_eq_ok_iff.1 hheader
  obtain ⟨rfl, rfl⟩ := eq_of_reads (reads_u32 magic) hword
  split at hheader
  · cases hheader
  · obtain ⟨minor', c₄, hminor, hheader⟩ := bind_eq_ok_iff.1 hheader
    obtain ⟨rfl, rfl⟩ := eq_of_reads (reads_u16 minor) hminor
    obtain ⟨major', c₅, hmajor, hheader⟩ := bind_eq_ok_iff.1 hheader
    obtain ⟨rfl, rfl⟩ := eq_of_reads (reads_u16 major) hmajor
    obtain ⟨pool, c₆, hpool, hheader⟩ := bind_eq_ok_iff.1 hheader
    obtain ⟨rfl, rfl⟩ := eq_of_reads hread hpool
    obtain ⟨access, c₇, -, hheader⟩ := bind_eq_ok_iff.1 hheader
    obtain ⟨name, c₈, -, hheader⟩ := bind_eq_ok_iff.1 hheader
    cases hheader
    rfl

/-- The file of a class has a pool that begins with the pool of the class. -/
theorem below_of_encode {c c' : Class} {bs : Bytes} (hvalid : (c.pool.getD .empty).Valid)
    (hbs : encode c = .ok bs) (hread : decode bs = .ok c') :
    ∃ q, c'.pool = some q ∧ (c.pool.getD .empty).Below q := by
  obtain ⟨body, pool, hrun, rfl⟩ := encode_eq_ok_iff.1 hbs
  obtain ⟨hvalid, hbelow, -⟩ := grows_classBytes c _ _ _ hvalid (Pool.Below.refl _) hrun
  obtain ⟨q, hslots, hpool⟩ := Pool.reads_read hvalid
  refine ⟨q, pool_of_decode hpool hread, ?_⟩
  rw [Pool.Below, hslots]
  exact hbelow

/-! ### The pools of class files -/

/-- A class file in which the pool is read from certain bytes behind the count of its slots. -/
def HasPool (file entries : Bytes) (p : Pool) : Prop :=
  ∃ minor major count rest,
    file = word32 magic ++ word16 minor ++ word16 major ++ (word16 count ++ entries) ++ rest ∧
    Pool.read ⟨word16 count ++ entries ++ rest, 8⟩ = .ok (p, ⟨rest, 10 + entries.length⟩)

/-- The header of a class file. -/
theorem hasPool_of_readHeader {file : Bytes} {h : Header} {c : Cursor}
    (hheader : readHeader ⟨file, 0⟩ = .ok (h, c)) :
    HasPool file (h.pool.slots.toList.flatMap Pool.slotBytes) h.pool ∧ h.pool.Valid := by
  obtain ⟨word, c₁, hword, hheader⟩ := bind_eq_ok_iff.1 hheader
  split at hheader
  · cases hheader
  next hmagic =>
  obtain rfl : word = magic := by simpa using hmagic
  obtain ⟨minor, c₂, hminor, hheader⟩ := bind_eq_ok_iff.1 hheader
  obtain ⟨major, c₃, hmajor, hheader⟩ := bind_eq_ok_iff.1 hheader
  obtain ⟨pool, c₄, hpool, hheader⟩ := bind_eq_ok_iff.1 hheader
  obtain ⟨access, c₅, -, hheader⟩ := bind_eq_ok_iff.1 hheader
  obtain ⟨name, c₆, -, hheader⟩ := bind_eq_ok_iff.1 hheader
  cases hheader
  obtain ⟨_, htook₁, rfl⟩ := takes_u32 _ _ _ hword
  obtain ⟨_, htook₂, rfl⟩ := takes_u16 _ _ _ hminor
  obtain ⟨_, htook₃, rfl⟩ := takes_u16 _ _ _ hmajor
  obtain ⟨_, htook₄, count, rfl⟩ := Pool.takes_read _ _ _ hpool
  -- the cursor behind the versions and the one behind the pool
  have hfront := (htook₁.append htook₂).append htook₃
  have hrest₃ : c₃ = ⟨word16 count ++ pool.slots.toList.flatMap Pool.slotBytes ++ c₄.rest, 8⟩ := by
    cases c₃
    congr 1
    · exact htook₄.1
    · exact hfront.2
  have hrest₄ : c₄ = ⟨c₄.rest, 10 + (pool.slots.toList.flatMap Pool.slotBytes).length⟩ := by
    have hposition : c₄.position = 8 + (2 + (pool.slots.toList.flatMap Pool.slotBytes).length) := by
      rw [htook₄.2, hrest₃, List.length_append, length_word16]
    cases c₄
    congr 1
    exact hposition.trans (by omega)
  refine ⟨⟨minor, major, count, c₄.rest, ?_, ?_⟩, Pool.valid_of_read hpool⟩
  · rw [List.append_assoc _ _ c₄.rest, ← htook₄.1]
    exact hfront.1
  · rw [← hrest₃, ← hrest₄]
    exact hpool

/-- A class that is decoded has the pool of its file. -/
theorem hasPool_of_decode {file : Bytes} {c : Class} (h : decode file = .ok c) :
    ∃ p, c.pool = some p ∧ p.Valid ∧ HasPool file (p.slots.toList.flatMap Pool.slotBytes) p := by
  obtain ⟨header, c₁, c₂, hheader, hrest⟩ := decode_eq_ok_iff.1 h
  obtain ⟨superclass, c₃, -, hrest⟩ := bind_eq_ok_iff.1 hrest
  obtain ⟨interfaces, c₄, -, hrest⟩ := bind_eq_ok_iff.1 hrest
  obtain ⟨fields, c₅, -, hrest⟩ := bind_eq_ok_iff.1 hrest
  obtain ⟨methods, c₆, -, hrest⟩ := bind_eq_ok_iff.1 hrest
  obtain ⟨parts, c₇, -, hrest⟩ := bind_eq_ok_iff.1 hrest
  obtain ⟨hpool, hvalid⟩ := hasPool_of_readHeader hheader
  exact ⟨header.pool, (members_of_foldlM_addClassPart (require_eq_ok_iff.1 hrest).1).1, hvalid,
    hpool⟩

/-- A class that is decoded and encoded again, whatever has become of it but for its pool, has a
file whose pool begins with the entries of the old file, byte for byte, and goes on with new ones;
and an index that names an entry of the old file names this entry in the new one. -/
theorem entries_of_encode {b b' : Bytes} {c c' : Class} (hdecode : decode b = .ok c)
    (hkept : c'.pool = c.pool) (hencode : encode c' = .ok b') :
    ∃ p q entries more, c.pool = some p ∧ HasPool b entries p ∧
      HasPool b' (entries ++ more.flatMap Pool.slotBytes) q ∧
      q.slots.toList = p.slots.toList ++ more ∧
      ∀ i e, p.entryAt i = .ok e → q.entryAt i = .ok e := by
  obtain ⟨p, hp, hvalid, hold⟩ := hasPool_of_decode hdecode
  obtain ⟨body, pool, hrun, rfl⟩ := encode_eq_ok_iff.1 hencode
  rw [hkept, hp] at hrun
  -- writing starts from the pool that was read, so its slots stay in front
  obtain ⟨hvalid', ⟨more, hmore⟩, -⟩ := grows_classBytes c' _ _ _ hvalid (Pool.Below.refl p) hrun
  obtain ⟨q, hslots, hread⟩ := Pool.reads_read hvalid'
  have hq : q.slots.toList = p.slots.toList ++ more := by rw [hslots, hmore]
  have hbytes : pool.bytes = word16 pool.size.toUInt16 ++
      (p.slots.toList.flatMap Pool.slotBytes ++ more.flatMap Pool.slotBytes) := by
    rw [Pool.bytes, ← hmore, List.flatMap_append]
    rfl
  refine ⟨p, q, _, more, hp, hold, ⟨_, _, _, body, by rw [hbytes], ?_⟩, hq, ?_⟩
  · have hread := hread body 8
    rw [hbytes, List.length_append, length_word16] at hread
    rw [hread]
    congr 3
    omega
  · intro i e he
    have hbelow : p.Below q := ⟨more, hq.symm⟩
    exact hbelow.entryAt he

/-! ### A class with a text in bytes of its own -/

/-- An entry that a pool lacks joins it at its end. -/
theorem intern_of_forall_ne {slots : List PoolSlot} {e : Entry}
    (hnew : ∀ slot ∈ slots, slot.entry ≠ e)
    (hsize : (slots.foldl Pool.append .empty).size + e.slots ≤ 65535) :
    Pool.intern e (slots.foldl Pool.append .empty) =
      (.ok (slots.foldl Pool.append .empty).size.toUInt16,
        (slots ++ [(⟨e, none⟩ : PoolSlot)]).foldl Pool.append .empty) := by
  -- the index names entries that were appended, and nothing else
  have hindex : ∀ p : Pool, (slots.foldl Pool.append p).index[e]? = p.index[e]? := by
    clear hsize
    intro p
    induction slots generalizing p with
    | nil => rfl
    | cons slot slots ih =>
      obtain ⟨hfirst, hnew⟩ := List.forall_mem_cons.1 hnew
      have hinsert : (p.append slot).index =
          p.index.insertIfNew slot.entry p.size.toUInt16 := rfl
      rw [List.foldl_cons, ih hnew, hinsert, Std.HashMap.getElem?_insertIfNew,
        if_neg (by simp [hfirst])]
  have hnone : (slots.foldl Pool.append .empty).index[e]? = none := by
    rw [hindex]
    simp [Pool.empty]
  rw [Pool.intern, hnone]
  dsimp only
  rw [if_neg (Nat.not_lt.2 hsize), List.foldl_append]
  rfl

/-- The name of a class, the class, and a text that stands in a longer form when it is encoded. -/
def lossySlots : List PoolSlot :=
  [⟨.utf8 "A", none⟩, ⟨.ofClass 1, none⟩, ⟨.utf8 "\x00", some [0]⟩]

/-- The pool of these entries. -/
def lossyPool : Pool :=
  lossySlots.foldl Pool.append .empty

/-- A class file with this pool. -/
def lossyFile : Bytes :=
  word32 magic ++ word16 0 ++ word16 52 ++ lossyPool.bytes ++
    (word16 33 ++ word16 2 ++ [0, 0, 0, 0, 0, 0, 0, 0, 0, 0])

/-- The class that is read. -/
def lossy : Class :=
  { name := "A", superclass := none, access := ⟨33⟩
    minorVersion := 0, majorVersion := 52, pool := some lossyPool }

/-- The pool is read back, with the text that loses something. -/
theorem reads_lossyPool : Reads Pool.read lossyPool.bytes lossyPool := by
  have hsound : ∀ slot ∈ lossySlots, Pool.Sound slot := by
    refine List.forall_mem_cons.2 ⟨Pool.sound_of_isWritable (by decide), List.forall_mem_cons.2
      ⟨Pool.sound_of_isWritable rfl, List.forall_mem_singleton.2 ⟨by simp, ?_, ?_⟩⟩⟩
    · intro text _ hnone
      cases hnone
    · intro bs hbs
      cases hbs
      exact ⟨_, rfl, by cbv, by decide, by decide⟩
  exact (reads_u16 4).bind (Pool.reads_readFrom hsound rfl .empty)

/-- The class file is one of a class with that pool. -/
theorem decode_lossyFile : decode lossyFile = .ok lossy := by
  have hrest : ∀ n, ∃ cursor, readRest ⟨0, 52, lossyPool, ⟨33⟩, "A"⟩
      ⟨[0, 0, 0, 0, 0, 0, 0, 0, 0, 0], n⟩ = .ok (lossy, cursor) := fun _ => ⟨_, rfl⟩
  have hname : lossyPool.classAt 2 = .ok "A" := rfl
  have hheader := reads_readHeader reads_lossyPool hname 0 52 33
    [0, 0, 0, 0, 0, 0, 0, 0, 0, 0] 0
  rw [List.append_assoc] at hheader
  obtain ⟨cursor, hcursor⟩ := hrest _
  exact decode_eq_ok_iff.2 ⟨_, _, _, hheader, hcursor⟩

/-- The class under another name, which its pool lacks. -/
def lossyRenamed : Class :=
  { lossy with name := "B" }

/-- The renamed class is encoded. -/
theorem encode_lossyRenamed : ∃ b', encode lossyRenamed = .ok b' := by
  have htext : Pool.utf8 "B" lossyPool =
      (.ok 4, (lossySlots ++ [(⟨.utf8 "B", none⟩ : PoolSlot)]).foldl Pool.append .empty) := by
    rw [Pool.utf8, if_neg (by decide)]
    exact intern_of_forall_ne (by decide) (by decide)
  have hclass : Pool.ofClass "B" lossyPool = (.ok 5, (lossySlots ++ [(⟨.utf8 "B", none⟩ : PoolSlot)]
      ++ [(⟨.ofClass 4, none⟩ : PoolSlot)]).foldl Pool.append .empty) :=
    poolBind_of_eq_ok htext (intern_of_forall_ne (by decide) (by decide))
  exact ⟨_, encode_eq_ok_iff.2 ⟨_, _, poolBind_of_eq_ok hclass rfl, rfl⟩⟩

/-- The entries of the pool stay, and new ones come behind them. -/
theorem entries_of_encode_lossy :
    decode lossyFile = .ok lossy ∧ lossyRenamed.pool = lossy.pool ∧
      ∃ b', encode lossyRenamed = .ok b' ∧
        ∃ p q entries more, lossy.pool = some p ∧ HasPool lossyFile entries p ∧
          HasPool b' (entries ++ more.flatMap Pool.slotBytes) q ∧
          q.slots.toList = p.slots.toList ++ more ∧
          ∀ i e, p.entryAt i = .ok e → q.entryAt i = .ok e := by
  obtain ⟨b', hencode⟩ := encode_lossyRenamed
  have hkept : lossyRenamed.pool = lossy.pool := rfl
  exact ⟨decode_lossyFile, hkept, b', hencode, entries_of_encode decode_lossyFile hkept hencode⟩

end ClassFile

end Unscramble.Binary
