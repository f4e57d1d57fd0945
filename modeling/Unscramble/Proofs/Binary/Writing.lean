import Unscramble.Binary.Body
import Unscramble.Proofs.Binary.Pool
import Unscramble.Proofs.Binary.Reading

/-! # Writing what is read back

What is written refers to a pool that may still grow, and a part tells its length in 32 bits. So
what is written is read back with every greater pool, if it is short enough.

Main definitions: `Short`, `Writes`, `Carries`. Main statements: `Writes.counted`,
`yields_part`, `yields_carriedParts`, `reads_partTable`. -/

namespace Unscramble.Binary

open Reader

/-! ### Lengths -/

/-- The length of some bytes fits into 32 bits. -/
def Short (bs : Bytes) : Prop :=
  bs.length < 4294967296

instance : DecidablePred Short := fun bs =>
  inferInstanceAs (Decidable (bs.length < 4294967296))

/-- The front of few bytes is short. -/
theorem Short.left {bs bs' : Bytes} (h : Short (bs ++ bs')) : Short bs := by
  rw [Short, List.length_append] at h
  exact Nat.lt_of_le_of_lt (Nat.le_add_right _ _) h

/-- The back of few bytes is short. -/
theorem Short.right {bs bs' : Bytes} (h : Short (bs ++ bs')) : Short bs' := by
  rw [Short, List.length_append] at h
  exact Nat.lt_of_le_of_lt (Nat.le_add_left _ _) h

/-- Each chunk of few bytes is short. -/
theorem Short.of_mem_flatten {chunks : List Bytes} (h : Short chunks.flatten) {chunk : Bytes}
    (hchunk : chunk ∈ chunks) : Short chunk :=
  Nat.lt_of_le_of_lt (List.sublist_flatten_of_mem hchunk).length_le h

/-- A length that fits into 32 bits is read back. -/
theorem toNat_toUInt32_length {bs : Bytes} (h : Short bs) :
    bs.length.toUInt32.toNat = bs.length :=
  Nat.mod_eq_of_lt h

/-! ### Written values -/

/-- What a computation writes above a given pool is read back as a value that satisfies a condition.
-/
def Writes {α : Type} (base : Pool) (m : PoolM Bytes) (read : Pool → Reader α)
    (good : α → Prop) : Prop :=
  Yields base m fun bs q => Short bs → ∃ a, good a ∧ Reads (read q) bs a

section Writes

variable {α β : Type} {base : Pool}

/-- What is written may be said with less. -/
theorem Writes.mono {m : PoolM Bytes} {read : Pool → Reader α} {good good' : α → Prop}
    (h : Writes base m read good) (himp : ∀ a, good a → good' a) : Writes base m read good' := by
  refine Yields.mono h ?_
  intro bs q hread hshort
  obtain ⟨a, ha, hreads⟩ := hread hshort
  exact ⟨a, himp a ha, hreads⟩

/-- Items that are written are read back if each of them is. -/
theorem forall₂_reads {items : List α} {chunks : List Bytes} {read : Reader β}
    {good : α → β → Prop}
    (h : List.Forall₂ (fun a bs => Short bs → ∃ b, good a b ∧ Reads read bs b) items chunks)
    (hshort : ∀ bs ∈ chunks, Short bs) :
    ∃ values, List.Forall₂ good items values ∧ List.Forall₂ (Reads read) chunks values := by
  induction h with
  | nil => exact ⟨[], .nil, .nil⟩
  | @cons a bs items chunks hfirst _ ih =>
    obtain ⟨b, hgood, hread⟩ := hfirst (hshort bs (by simp))
    obtain ⟨values, hall, hreads⟩ := ih fun c hc => hshort c (by simp [hc])
    exact ⟨b :: values, .cons hgood hall, .cons hread hreads⟩

/-- Items behind their count stand one after the other. -/
theorem yields_countedBytes {items : List α} {encode : α → PoolM Bytes}
    {each : α → Bytes → Pool → Prop} (h : ∀ a ∈ items, Yields base (encode a) (each a)) :
    Yields base (countedBytes items encode) fun bs q => ∃ chunks,
      bs = count16 items.length ++ chunks.flatten ∧
        List.Forall₂ (fun a bs => each a bs q) items chunks :=
  (yields_mapM h).bind_pure fun chunks _ hchunks => ⟨chunks, rfl, hchunks⟩

/-- Items behind their count are read back if each of them is. -/
theorem Writes.counted {items : List α} {encode : α → PoolM Bytes} {read : Pool → Reader β}
    {good : α → β → Prop} (h : ∀ a ∈ items, Writes base (encode a) read (good a))
    (hn : items.length ≤ 65535) :
    Writes base (countedBytes items encode) (fun q => counted (read q))
      (List.Forall₂ good items) := by
  refine (yields_countedBytes h).mono ?_
  rintro bs q ⟨chunks, rfl, hchunks⟩ hshort
  obtain ⟨values, hgood, hreads⟩ :=
    forall₂_reads hchunks fun c hc => hshort.right.of_mem_flatten hc
  have hlength := hgood.length_eq
  refine ⟨values, hgood, ?_⟩
  rw [hlength]
  exact reads_counted hreads (by omega)

/-- An index that is written is read as what stands there. -/
theorem writes_index {add : PoolM UInt16} {look : Pool → UInt16 → Except Malformation α} {a : α}
    (h : Yields base add fun i q => i ≠ 0 ∧ look q i = .ok a) :
    Writes base (word16 <$> add) (fun q => indexed (look q)) (· = a) := by
  refine h.map ?_
  intro i q hi _
  exact ⟨a, rfl, reads_indexed hi.2⟩

/-- The index of something that may be absent. -/
theorem yields_indexOrZero {add : α → PoolM UInt16}
    {look : Pool → UInt16 → Except Malformation α}
    (h : ∀ a, Yields base (add a) fun i q => i ≠ 0 ∧ look q i = .ok a) (o : Option α) :
    Yields base (indexOrZero add o) fun i q => Reads (indexed? (look q)) (word16 i) o := by
  cases o with
  | none =>
    refine yields_pure ?_
    intro q
    exact reads_indexed? (fun _ => rfl) (by simp)
  | some a =>
    refine (h a).mono ?_
    intro i q hi
    refine reads_indexed? (by simp) ?_
    intro x hx
    cases hx
    exact hi

/-- What is settled yields its answer. -/
theorem yields_settled {answer : Except Malformation α} :
    Yields base (settled answer) fun a _ => answer = .ok a := by
  cases answer with
  | error e => exact yields_throw
  | ok a => exact yields_pure fun q => rfl

end Writes

/-! ### Parts -/

variable {base : Pool}

/-- Reads one part. -/
def attributeReader (pool : Pool) : Reader Attribute := do
  let name ← indexed pool.utf8At
  return ⟨name, ← bytes (← u32).toNat⟩

/-- Some bytes are those of a part. -/
def Carries (q : Pool) (chunk : Bytes) (a : Attribute) : Prop :=
  ∃ i, q.utf8At i = .ok a.name ∧ chunk = word16 i ++ count32 a.data.length ++ a.data

/-- A part that is not too long is read back. -/
theorem Carries.reads {q : Pool} {chunk : Bytes} {a : Attribute} (h : Carries q chunk a)
    (hshort : Short chunk) : Reads (attributeReader q) chunk a := by
  obtain ⟨i, hname, rfl⟩ := h
  have hlength := toNat_toUInt32_length hshort.right
  rw [List.append_assoc]
  refine (reads_indexed hname).bind ((reads_u32 a.data.length.toUInt32).bind ?_)
  rw [hlength]
  exact (reads_bytes rfl).bind_pure fun data => _

/-- A table of parts is read back. -/
theorem reads_partTable {q : Pool} {chunks : List Bytes} {parts : List Attribute}
    (h : List.Forall₂ (Carries q) chunks parts) (hn : parts.length ≤ 65535)
    (hshort : Short (partTable chunks)) :
    Reads (readAttributes q) (partTable chunks) parts := by
  have heach : List.Forall₂
      (fun a bs => Short bs → ∃ b, a = b ∧ Reads (attributeReader q) bs b) parts chunks := by
    refine h.flip.imp ?_
    intro a bs hcarries hbs
    exact ⟨a, rfl, Carries.reads hcarries hbs⟩
  obtain ⟨values, hvalues, hreads⟩ := forall₂_reads heach fun c hc => hshort.right.of_mem_flatten hc
  rw [List.forall₂_eq_eq_eq] at hvalues
  rw [partTable, h.length_eq]
  rw [← hvalues] at hreads
  exact reads_counted hreads hn

/-- The contents of a part that is written are those that were made for it. -/
theorem yields_part {contents : PoolM Bytes} {post : Bytes → Pool → Prop}
    (h : Yields base contents post) (name : String) :
    Yields base (part name contents) fun chunks q =>
      ∃ data, post data q ∧ List.Forall₂ (Carries q) chunks [⟨name, data⟩] := by
  refine h.bind fun data => (Pool.yields_utf8 name).bind_pure ?_
  intro i q hi hdata
  exact ⟨data, hdata, .cons ⟨i, hi.2, rfl⟩ .nil⟩

/-- The parts that are carried along are written as they are. -/
theorem yields_carriedParts (attributes : List Attribute) :
    Yields base (carriedParts attributes) fun chunks q =>
      List.Forall₂ (Carries q) chunks attributes := by
  have heach : ∀ a ∈ attributes, Yields base (part a.name (pure a.data)) fun chunks q =>
      List.Forall₂ (Carries q) chunks [a] := by
    intro a _
    have hdata : Yields base (pure a.data) fun data _ => data = a.data := yields_pure fun q => rfl
    refine (yields_part hdata a.name).mono ?_
    rintro chunks q ⟨data, rfl, hchunks⟩
    exact hchunks
  refine (yields_mapM heach).bind_pure ?_
  intro lists q hlists
  induction hlists with
  | nil => exact .nil
  | cons hfirst _ ih => exact List.rel_append hfirst (ih (fun a ha => heach a (by simp [ha])))

end Unscramble.Binary
