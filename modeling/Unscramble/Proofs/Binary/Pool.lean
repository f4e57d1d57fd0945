import Unscramble.Binary.Pool
import Unscramble.Proofs.Binary.ModifiedUtf8

/-! # Growing pools

A pool only grows, so what an index answers it answers for ever. What is added to a valid pool
stands at the index that is returned, and the pool stays valid.

Main definitions: `Pool.Below`, `Pool.Valid`, `Yields`. Main statements: `Pool.Below.constantAt`,
`Pool.yields_intern`, `Pool.yields_constant`. -/

namespace Unscramble.Binary

/-- A computation that may fail answers if all its steps do. -/
theorem exceptBind_eq_ok_iff {ε α β : Type} {x : Except ε α} {f : α → Except ε β} {b : β} :
    (x >>= f) = .ok b ↔ ∃ a, x = .ok a ∧ f a = .ok b := by
  cases x with
  | error e =>
    constructor
    · intro h
      cases h
    · rintro ⟨a, h, -⟩
      cases h
  | ok a =>
    constructor
    · intro h
      exact ⟨a, rfl, h⟩
    · rintro ⟨a', h, hf⟩
      cases h
      exact hf

/-- The same computation on each item of a list answers if all answer. -/
theorem mapM_eq_ok_iff {ε α β : Type} {f : α → Except ε β} {items : List α} {answers : List β} :
    items.mapM f = .ok answers ↔ List.Forall₂ (fun a b => f a = .ok b) items answers := by
  induction items generalizing answers with
  | nil =>
    rw [List.mapM_nil, List.forall₂_nil_left_iff]
    constructor
    · intro h
      cases h
      rfl
    · rintro rfl
      rfl
  | cons a items ih =>
    rw [List.mapM_cons, exceptBind_eq_ok_iff, List.forall₂_cons_left_iff]
    constructor
    · rintro ⟨b, hb, h⟩
      obtain ⟨rest, hrest, h⟩ := exceptBind_eq_ok_iff.1 h
      cases h
      exact ⟨b, rest, hb, ih.1 hrest, rfl⟩
    · rintro ⟨b, rest, hb, hrest, rfl⟩
      exact ⟨b, hb, exceptBind_eq_ok_iff.2 ⟨rest, ih.2 hrest, rfl⟩⟩

namespace Pool

variable {p q : Pool} {i : UInt16}

/-! ### What stands at an index -/

/-- An entry stands at an index if a slot with it is there and it can be used. -/
theorem entryAt_eq_ok_iff {e : Entry} :
    p.entryAt i = .ok e ↔ e ≠ .unusable ∧ ∃ bs, p.slots[i.toNat]? = some ⟨e, bs⟩ := by
  rw [entryAt]
  split
  · next h =>
    simp [h]
  · next bs h =>
    constructor
    · intro hfalse
      cases hfalse
    · rintro ⟨hne, bs', hget⟩
      rw [h] at hget
      cases hget
      exact absurd rfl hne
  · next slot hne h =>
    constructor
    · intro heq
      cases heq
      refine ⟨?_, slot.verbatim, h⟩
      intro hunusable
      exact hne slot.verbatim (by rw [← hunusable])
    · rintro ⟨-, bs, hget⟩
      rw [h] at hget
      cases hget
      rfl

/-- A text stands at an index if an entry with it does. -/
theorem utf8At_eq_ok_iff {text : String} :
    p.utf8At i = .ok text ↔ p.entryAt i = .ok (.utf8 text) := by
  rw [utf8At, exceptBind_eq_ok_iff]
  constructor
  · rintro ⟨e, he, h⟩
    cases e with
    | utf8 t => cases h; exact he
    | _ => cases h
  · intro h
    exact ⟨_, h, rfl⟩

/-- A class stands at an index if an entry for it does, and its name where that points. -/
theorem classAt_eq_ok_iff {name : String} :
    p.classAt i = .ok name ↔ ∃ n, p.entryAt i = .ok (.ofClass n) ∧ p.utf8At n = .ok name := by
  rw [classAt, exceptBind_eq_ok_iff]
  constructor
  · rintro ⟨e, he, h⟩
    cases e with
    | ofClass n => exact ⟨n, he, h⟩
    | _ => cases h
  · rintro ⟨n, he, h⟩
    exact ⟨_, he, h⟩

/-- A name with a descriptor stands at an index if an entry for both does, and each where that
points. -/
theorem nameAndTypeAt_eq_ok_iff {name descriptor : String} :
    p.nameAndTypeAt i = .ok (name, descriptor) ↔ ∃ n d, p.entryAt i = .ok (.nameAndType n d) ∧
      p.utf8At n = .ok name ∧ p.utf8At d = .ok descriptor := by
  rw [nameAndTypeAt, exceptBind_eq_ok_iff]
  constructor
  · rintro ⟨e, he, h⟩
    cases e with
    | nameAndType n d =>
      obtain ⟨a, ha, h⟩ := exceptBind_eq_ok_iff.1 h
      obtain ⟨c, hc, h⟩ := exceptBind_eq_ok_iff.1 h
      cases h
      exact ⟨n, d, he, ha, hc⟩
    | _ => cases h
  · rintro ⟨n, d, he, hn, hd⟩
    refine ⟨_, he, ?_⟩
    exact exceptBind_eq_ok_iff.2 ⟨name, hn, exceptBind_eq_ok_iff.2 ⟨descriptor, hd, rfl⟩⟩

/-- A member stands at an index if an entry of its kind does, and its owner, name and descriptor
where that points. -/
theorem memberAt_eq_ok_iff {m : Member} {kind : MemberKind} :
    p.memberAt i = .ok (m, kind) ↔ ∃ o nt, p.entryAt i = .ok (.member kind o nt) ∧
      p.classAt o = .ok m.owner ∧ p.nameAndTypeAt nt = .ok (m.name, m.descriptor) := by
  rw [memberAt, exceptBind_eq_ok_iff]
  constructor
  · rintro ⟨e, he, h⟩
    cases e with
    | member k o nt =>
      obtain ⟨⟨a, d⟩, ha, h⟩ := exceptBind_eq_ok_iff.1 h
      obtain ⟨c, hc, h⟩ := exceptBind_eq_ok_iff.1 h
      cases h
      exact ⟨o, nt, he, hc, ha⟩
    | _ => cases h
  · rintro ⟨o, nt, he, ho, hnt⟩
    refine ⟨_, he, ?_⟩
    exact exceptBind_eq_ok_iff.2 ⟨_, hnt, exceptBind_eq_ok_iff.2 ⟨_, ho, rfl⟩⟩

/-- A dynamic call stands at an index if an entry for it does, and its name and descriptor where
that points. -/
theorem dynamicAt_eq_ok_iff {call : DynamicCall} :
    p.dynamicAt i = .ok call ↔ ∃ nt, p.entryAt i = .ok (.invokeDynamic call.bootstrap nt) ∧
      p.nameAndTypeAt nt = .ok (call.name, call.descriptor) := by
  rw [dynamicAt, exceptBind_eq_ok_iff]
  constructor
  · rintro ⟨e, he, h⟩
    cases e with
    | invokeDynamic b nt =>
      obtain ⟨⟨a, d⟩, ha, h⟩ := exceptBind_eq_ok_iff.1 h
      cases h
      exact ⟨nt, he, ha⟩
    | _ => cases h
  · rintro ⟨nt, he, hnt⟩
    refine ⟨_, he, ?_⟩
    exact exceptBind_eq_ok_iff.2 ⟨_, hnt, rfl⟩

/-! ### Pools that grow -/

/-- A pool has all slots of another one. -/
def Below (p q : Pool) : Prop :=
  p.slots.toList <+: q.slots.toList

/-- A pool is below itself. -/
theorem Below.refl (p : Pool) : p.Below p :=
  List.prefix_refl _

/-- A pool below one that is below another one is below that one. -/
theorem Below.trans {r : Pool} (h : p.Below q) (h' : q.Below r) : p.Below r :=
  List.IsPrefix.trans h h'

/-- Entries of a pool stand in every greater pool. -/
theorem Below.entryAt (h : p.Below q) {e : Entry} (he : p.entryAt i = .ok e) :
    q.entryAt i = .ok e := by
  rw [entryAt_eq_ok_iff] at he ⊢
  obtain ⟨hne, bs, hget⟩ := he
  refine ⟨hne, bs, ?_⟩
  obtain ⟨more, hmore⟩ := h
  rw [← Array.getElem?_toList] at hget ⊢
  rw [← hmore, List.getElem?_append_left (List.getElem?_eq_some_iff.1 hget).1]
  exact hget

/-- Texts of a pool stand in every greater pool. -/
theorem Below.utf8At (h : p.Below q) {text : String} (ht : p.utf8At i = .ok text) :
    q.utf8At i = .ok text := by
  rw [utf8At_eq_ok_iff] at ht ⊢
  exact h.entryAt ht

/-- Classes of a pool stand in every greater pool. -/
theorem Below.classAt (h : p.Below q) {name : String} (hn : p.classAt i = .ok name) :
    q.classAt i = .ok name := by
  rw [classAt_eq_ok_iff] at hn ⊢
  obtain ⟨n, he, ht⟩ := hn
  exact ⟨n, h.entryAt he, h.utf8At ht⟩

/-- Names with their descriptors stand in every greater pool. -/
theorem Below.nameAndTypeAt (h : p.Below q) {pair : String × String}
    (hp : p.nameAndTypeAt i = .ok pair) : q.nameAndTypeAt i = .ok pair := by
  rw [nameAndTypeAt_eq_ok_iff] at hp ⊢
  obtain ⟨n, d, he, hn, hd⟩ := hp
  exact ⟨n, d, h.entryAt he, h.utf8At hn, h.utf8At hd⟩

/-- Members of a pool stand in every greater pool. -/
theorem Below.memberAt (h : p.Below q) {m : Member × MemberKind} (hm : p.memberAt i = .ok m) :
    q.memberAt i = .ok m := by
  rw [memberAt_eq_ok_iff] at hm ⊢
  obtain ⟨o, nt, he, ho, hnt⟩ := hm
  exact ⟨o, nt, h.entryAt he, h.classAt ho, h.nameAndTypeAt hnt⟩

/-- Dynamic calls of a pool stand in every greater pool. -/
theorem Below.dynamicAt (h : p.Below q) {call : DynamicCall} (hc : p.dynamicAt i = .ok call) :
    q.dynamicAt i = .ok call := by
  rw [dynamicAt_eq_ok_iff] at hc ⊢
  obtain ⟨nt, he, hnt⟩ := hc
  exact ⟨nt, h.entryAt he, h.nameAndTypeAt hnt⟩

/-- What an index answers as a constant, it answers in a greater pool. -/
theorem Below.constantAt (h : p.Below q) {c : Constant} (hc : p.constantAt i = .ok c) :
    q.constantAt i = .ok c := by
  rw [Pool.constantAt, exceptBind_eq_ok_iff] at hc ⊢
  obtain ⟨e, he, hc⟩ := hc
  refine ⟨e, h.entryAt he, ?_⟩
  -- An entry that refers to others is answered as before, since these are.
  cases e with
  | int v => exact hc
  | float v => exact hc
  | long v => exact hc
  | double v => exact hc
  | string t =>
    obtain ⟨s, hs, hc⟩ := exceptBind_eq_ok_iff.1 hc
    exact exceptBind_eq_ok_iff.2 ⟨s, h.utf8At hs, hc⟩
  | ofClass n =>
    obtain ⟨s, hs, hc⟩ := exceptBind_eq_ok_iff.1 hc
    exact exceptBind_eq_ok_iff.2 ⟨s, h.utf8At hs, hc⟩
  | methodType d =>
    obtain ⟨s, hs, hc⟩ := exceptBind_eq_ok_iff.1 hc
    exact exceptBind_eq_ok_iff.2 ⟨s, h.utf8At hs, hc⟩
  | methodHandle kind r =>
    obtain ⟨m, hm, hc⟩ := exceptBind_eq_ok_iff.1 hc
    exact exceptBind_eq_ok_iff.2 ⟨m, h.memberAt hm, hc⟩
  | dynamic b nt =>
    obtain ⟨m, hm, hc⟩ := exceptBind_eq_ok_iff.1 hc
    exact exceptBind_eq_ok_iff.2 ⟨m, h.nameAndTypeAt hm, hc⟩
  | _ => cases hc

/-! ### Valid pools -/

/-- A slot that is read back from its bytes: only a text has bytes of its own, and then they are not
those that the text encodes to; and the bytes of a text are not too many. -/
structure Sound (slot : PoolSlot) : Prop where
  /-- The slot can be used. -/
  usable : slot.entry ≠ .unusable
  /-- A text that encodes to the bytes it was read from. -/
  plain : ∀ text, slot.entry = .utf8 text → slot.verbatim = none →
    (ModifiedUtf8.encode text).length ≤ 65535
  /-- A text that encodes to other bytes. -/
  verbatim : ∀ bs, slot.verbatim = some bs → ∃ text, slot.entry = .utf8 text ∧
    ModifiedUtf8.decode bs = text ∧ ModifiedUtf8.encode text ≠ bs ∧ bs.length ≤ 65535

/-- The slots that an entry takes. -/
def slotsOf (slot : PoolSlot) : List PoolSlot :=
  if slot.entry.isWide then [slot, ⟨.unusable, none⟩] else [slot]

/-- An entry takes as many slots as it is wide. -/
theorem length_slotsOf (slot : PoolSlot) : (slotsOf slot).length = slot.entry.slots := by
  rw [slotsOf, Entry.slots]
  split <;> rfl

/-- The entries of a pool, one after the other behind slot 0. -/
structure Holds (p : Pool) (entries : List PoolSlot) : Prop where
  /-- They take all slots. -/
  slots : p.slots.toList = ⟨.unusable, none⟩ :: entries.flatMap slotsOf
  /-- They are read back from their bytes. -/
  sound : ∀ slot ∈ entries, Sound slot

/-- A pool as reading and adding leave it. -/
structure Valid (p : Pool) : Prop where
  /-- The slots hold entries. -/
  holds : ∃ entries, p.Holds entries
  /-- Every slot has a 16-bit index. -/
  size : p.size ≤ 65535
  /-- An entry stands where the index says. -/
  index : ∀ e i, p.index[e]? = some i → i ≠ 0 ∧ p.entryAt i = .ok e

/-- A valid pool has the slot that is never used. -/
theorem Valid.size_pos (h : p.Valid) : 0 < p.size := by
  obtain ⟨entries, hslots, -⟩ := h.holds
  rw [Pool.size, ← Array.length_toList, hslots]
  exact Nat.succ_pos _

/-- The empty pool is valid. -/
theorem valid_empty : empty.Valid := by
  refine ⟨⟨[], rfl, by simp⟩, by decide, ?_⟩
  intro e i h
  simp [empty] at h

/-- An entry is added behind the slots that there are. -/
theorem toList_slots_append (p : Pool) (slot : PoolSlot) :
    (p.append slot).slots.toList = p.slots.toList ++ slotsOf slot := by
  rw [append, slotsOf]
  dsimp only
  split <;> simp

/-- A pool is below what adding an entry makes of it. -/
theorem below_append (p : Pool) (slot : PoolSlot) : p.Below (p.append slot) := by
  rw [Below, toList_slots_append]
  exact List.prefix_append _ _

/-- A pool grows by the slots of what is added. -/
theorem size_append (p : Pool) (slot : PoolSlot) :
    (p.append slot).size = p.size + slot.entry.slots := by
  rw [size, ← Array.length_toList, toList_slots_append, List.length_append, length_slotsOf]
  rfl

/-- What is appended stands behind the old slots. -/
theorem entryAt_append {slot : PoolSlot} (husable : slot.entry ≠ .unusable)
    (hsize : p.size < 65536) : (p.append slot).entryAt p.size.toUInt16 = .ok slot.entry := by
  have hnat : p.size.toUInt16.toNat = p.size := Nat.mod_eq_of_lt hsize
  rw [entryAt_eq_ok_iff]
  refine ⟨husable, slot.verbatim, ?_⟩
  rw [hnat, ← Array.getElem?_toList, toList_slots_append,
    List.getElem?_append_right (by rw [Array.length_toList]; rfl), Array.length_toList]
  change (slotsOf slot)[p.slots.size - p.slots.size]? = _
  rw [Nat.sub_self, slotsOf]
  split <;> rfl

/-- Appending what can be read back keeps a pool valid. -/
theorem Valid.append (h : p.Valid) {slot : PoolSlot} (hslot : Sound slot)
    (hsize : p.size + slot.entry.slots ≤ 65535) : (p.append slot).Valid := by
  obtain ⟨entries, hslots, hsound⟩ := h.holds
  have hpos := h.size_pos
  have hlt : p.size < 65536 := by omega
  refine ⟨⟨entries ++ [slot], ?_, ?_⟩, by rw [size_append]; exact hsize, ?_⟩
  · rw [toList_slots_append, hslots]
    simp
  · intro s hs
    rcases List.mem_append.1 hs with hs | hs
    · exact hsound s hs
    · rw [List.mem_singleton.1 hs]
      exact hslot
  -- The index names the new entry unless an equal one stands before it.
  · intro e i hi
    have hindex : (p.append slot).index = p.index.insertIfNew slot.entry p.size.toUInt16 := rfl
    rw [hindex, Std.HashMap.getElem?_insertIfNew] at hi
    split at hi
    · next hnew =>
      cases hi
      have heq : slot.entry = e := by simpa using hnew.1
      refine ⟨?_, ?_⟩
      -- An index of zero would need a pool of 65536 entries.
      · intro hzero
        have hnat := congrArg UInt16.toNat hzero
        change p.size % 65536 = 0 at hnat
        omega
      · rw [← heq]
        exact entryAt_append hslot.usable hlt
    · obtain ⟨hne, hentry⟩ := h.index e i hi
      exact ⟨hne, (below_append p slot).entryAt hentry⟩

end Pool

/-! ### Adding to pools -/

/-- A computation that adds to a pool above a given one keeps it valid and lets it grow; and its
answer satisfies a condition in every greater pool. -/
def Yields {α : Type} (base : Pool) (m : PoolM α) (post : α → Pool → Prop) : Prop :=
  ∀ p a p', p.Valid → base.Below p → m p = (.ok a, p') →
    p'.Valid ∧ p.Below p' ∧ ∀ q, p'.Below q → post a q

section Yields

variable {α β : Type} {base : Pool} {m : PoolM α} {post post' : α → Pool → Prop}

/-- What is yielded may be said with less. -/
theorem Yields.mono (h : Yields base m post) (himp : ∀ a q, post a q → post' a q) :
    Yields base m post' := by
  intro p a p' hp hbase hm
  obtain ⟨hvalid, hbelow, hpost⟩ := h p a p' hp hbase hm
  exact ⟨hvalid, hbelow, fun q hq => himp a q (hpost q hq)⟩

/-- An answer without a computation yields what holds of it in every pool. -/
theorem yields_pure {a : α} (h : ∀ q, post a q) : Yields base (pure a : PoolM α) post := by
  intro p a' p' hp _ hm
  cases hm
  exact ⟨hp, Pool.Below.refl p, fun q _ => h q⟩

/-- What fails yields anything. -/
theorem yields_throw {cause : Malformation} : Yields base (throw cause : PoolM α) post := by
  intro p a p' _ _ hm
  cases hm

/-- The steps of a computation that adds to a pool. -/
theorem poolBind_eq_ok {f : α → PoolM β} {p p'' : Pool} {b : β}
    (h : (m >>= f) p = (.ok b, p'')) : ∃ a p', m p = (.ok a, p') ∧ f a p' = (.ok b, p'') := by
  rcases hm : m p with ⟨answer, p'⟩
  change ExceptT.bindCont f (m p).1 (m p).2 = _ at h
  rw [hm] at h
  cases answer with
  | error e => cases h
  | ok a => exact ⟨a, p', rfl, h⟩

/-- Steps that answer are run one after the other. -/
theorem poolBind_of_eq_ok {f : α → PoolM β} {p p' p'' : Pool} {a : α} {b : β}
    (h : m p = (.ok a, p')) (h' : f a p' = (.ok b, p'')) : (m >>= f) p = (.ok b, p'') := by
  change ExceptT.bindCont f (m p).1 (m p).2 = _
  rw [h]
  exact h'

/-- What a step answers may be used by the next one. -/
theorem Yields.bind {f : α → PoolM β} {post₂ : β → Pool → Prop} (hm : Yields base m post)
    (hf : ∀ a, Yields base (f a) fun b q => post a q → post₂ b q) : Yields base (m >>= f) post₂ := by
  intro p b p'' hp hbase h
  obtain ⟨a, p', ha, hb⟩ := poolBind_eq_ok h
  obtain ⟨hvalid, hbelow, hpost⟩ := hm p a p' hp hbase ha
  obtain ⟨hvalid', hbelow', hpost'⟩ := hf a p' b p'' hvalid (hbase.trans hbelow) hb
  exact ⟨hvalid', hbelow.trans hbelow', fun q hq => hpost' q hq (hpost q (hbelow'.trans hq))⟩

/-- A step whose answer is returned at once. -/
theorem Yields.bind_pure {f : α → β} {post₂ : β → Pool → Prop} (hm : Yields base m post)
    (hf : ∀ a q, post a q → post₂ (f a) q) : Yields base (do return f (← m)) post₂ :=
  hm.bind fun a => yields_pure (hf a)

/-- An answer may be changed if the condition holds of what it becomes. -/
theorem Yields.map {f : α → β} {post₂ : β → Pool → Prop} (hm : Yields base m post)
    (hf : ∀ a q, post a q → post₂ (f a) q) : Yields base (f <$> m) post₂ := by
  rw [← bind_pure_comp]
  exact hm.bind fun a => yields_pure (hf a)

/-- The same computation on each item of a list. -/
theorem yields_mapM {items : List α} {f : α → PoolM β} {each : α → β → Pool → Prop}
    (h : ∀ a ∈ items, Yields base (f a) (each a)) :
    Yields base (items.mapM f) fun bs q => List.Forall₂ (fun a b => each a b q) items bs := by
  induction items with
  | nil =>
    rw [List.mapM_nil]
    exact yields_pure fun q => .nil
  | cons a items ih =>
    rw [List.mapM_cons]
    refine (h a (by simp)).bind fun b => ?_
    refine (ih fun c hc => h c (by simp [hc])).bind fun bs => ?_
    exact yields_pure fun q hbs hb => .cons hb hbs

end Yields

namespace Pool

variable {base : Pool}

/-- An entry that is added stands at the index that is returned. -/
theorem yields_intern {e : Entry} (he : Sound ⟨e, none⟩) :
    Yields base (intern e) fun i q => i ≠ 0 ∧ q.entryAt i = .ok e := by
  intro p i p' hp _ h
  -- Either an equal entry is there already, or the new one is appended at the end.
  rw [intern] at h
  split at h
  · next hj =>
    cases h
    obtain ⟨hne, hentry⟩ := hp.index e i hj
    exact ⟨hp, Below.refl p, fun q hq => ⟨hne, hq.entryAt hentry⟩⟩
  · dsimp only at h
    split at h
    · cases h
    · next hsize =>
      cases h
      have hpos := hp.size_pos
      have hslots : 0 < e.slots := by
        rw [Entry.slots]
        split <;> decide
      have hlt : p.size < 65536 := by omega
      refine ⟨hp.append he (Nat.not_lt.1 hsize), below_append p _, ?_⟩
      intro q hq
      refine ⟨?_, hq.entryAt (entryAt_append he.usable hlt)⟩
      intro hzero
      have hnat := congrArg UInt16.toNat hzero
      change p.size % 65536 = 0 at hnat
      omega

/-- An entry other than a text can be read back. -/
theorem sound_of_not_utf8 {e : Entry} (husable : e ≠ .unusable) (htext : ∀ t, e ≠ .utf8 t) :
    Sound ⟨e, none⟩ :=
  ⟨husable, fun t ht => absurd ht (htext t), by simp⟩

/-- A text is added or found, at an index where it stands. -/
theorem yields_utf8 (text : String) :
    Yields base (utf8 text) fun i q => i ≠ 0 ∧ q.utf8At i = .ok text := by
  by_cases hlength : 65535 < (ModifiedUtf8.encode text).length
  · rw [utf8, if_pos hlength]
    exact yields_throw
  · have hsound : Sound ⟨.utf8 text, none⟩ := by
      refine ⟨by simp, ?_, by simp⟩
      intro t ht _
      cases ht
      exact Nat.not_lt.1 hlength
    rw [utf8, if_neg hlength]
    refine (yields_intern hsound).mono ?_
    intro i q hi
    rw [utf8At_eq_ok_iff]
    exact hi

/-- A class is added or found, at an index where it stands. -/
theorem yields_ofClass (name : String) :
    Yields base (ofClass name) fun i q => i ≠ 0 ∧ q.classAt i = .ok name := by
  refine (yields_utf8 name).bind fun n => ?_
  refine (yields_intern (sound_of_not_utf8 (by simp) (by simp))).mono ?_
  intro i q hi hn
  rw [classAt_eq_ok_iff]
  exact ⟨hi.1, n, hi.2, hn.2⟩

/-- A name with a descriptor is added or found, at an index where they stand. -/
theorem yields_nameAndType (name descriptor : String) :
    Yields base (nameAndType name descriptor) fun i q =>
      i ≠ 0 ∧ q.nameAndTypeAt i = .ok (name, descriptor) := by
  refine (yields_utf8 name).bind fun n => (yields_utf8 descriptor).bind fun d => ?_
  refine (yields_intern (sound_of_not_utf8 (by simp) (by simp))).mono ?_
  intro i q hi hd hn
  rw [nameAndTypeAt_eq_ok_iff]
  exact ⟨hi.1, n, d, hi.2, hn.2, hd.2⟩

/-- A member is added or found, at an index where it stands. -/
theorem yields_member (m : Member) (kind : MemberKind) :
    Yields base (member m kind) fun i q => i ≠ 0 ∧ q.memberAt i = .ok (m, kind) := by
  refine (yields_ofClass m.owner).bind fun o => ?_
  refine (yields_nameAndType m.name m.descriptor).bind fun nt => ?_
  refine (yields_intern (sound_of_not_utf8 (by simp) (by simp))).mono ?_
  intro i q hi hnt ho
  rw [memberAt_eq_ok_iff]
  exact ⟨hi.1, o, nt, hi.2, ho.2, hnt.2⟩

/-- A dynamic call is added or found, at an index where it stands. -/
theorem yields_invokeDynamic (call : DynamicCall) :
    Yields base (invokeDynamic call) fun i q => i ≠ 0 ∧ q.dynamicAt i = .ok call := by
  refine (yields_nameAndType call.name call.descriptor).bind fun nt => ?_
  refine (yields_intern (sound_of_not_utf8 (by simp) (by simp))).mono ?_
  intro i q hi hnt
  rw [dynamicAt_eq_ok_iff]
  exact ⟨hi.1, nt, hi.2, hnt.2⟩

/-- A handle of a field does not lead through an interface. -/
def FitsHandle : Constant → Prop
  | .methodHandle kind _ viaInterface => 1 ≤ kind → kind ≤ 4 → viaInterface = false
  | _ => True

instance : DecidablePred FitsHandle := fun c =>
  match c with
  | .methodHandle kind _ viaInterface =>
    inferInstanceAs (Decidable (1 ≤ kind → kind ≤ 4 → viaInterface = false))
  | .int _ | .float _ | .long _ | .double _ | .string _ | .ofClass _ | .methodType _
  | .dynamic _ _ _ => .isTrue trivial

/-- The kind of a reference tells whether a handle leads through an interface. -/
theorem handleKind_eq_interfaceMethod {kind : UInt8} {m : Member} {viaInterface : Bool}
    (h : FitsHandle (.methodHandle kind m viaInterface)) :
    (handleKind kind viaInterface == .interfaceMethod) = viaInterface := by
  rw [handleKind]
  split
  · next hkind =>
    have hbounds : 1 ≤ kind ∧ kind ≤ 4 := by simpa using hkind
    rw [h hbounds.1 hbounds.2]
    rfl
  · cases viaInterface <;> rfl

/-- A constant that is added stands at the index that is returned. -/
theorem yields_constant {c : Constant} (hc : FitsHandle c) :
    Yields base (constant c) fun i q => i ≠ 0 ∧ q.constantAt i = .ok c := by
  -- Numbers are entries of their own; the other constants first need the entries they refer to.
  cases c with
  | int v =>
    refine (yields_intern (sound_of_not_utf8 (by simp) (by simp))).mono ?_
    intro i q hi
    exact ⟨hi.1, exceptBind_eq_ok_iff.2 ⟨_, hi.2, rfl⟩⟩
  | float v =>
    refine (yields_intern (sound_of_not_utf8 (by simp) (by simp))).mono ?_
    intro i q hi
    exact ⟨hi.1, exceptBind_eq_ok_iff.2 ⟨_, hi.2, rfl⟩⟩
  | long v =>
    refine (yields_intern (sound_of_not_utf8 (by simp) (by simp))).mono ?_
    intro i q hi
    exact ⟨hi.1, exceptBind_eq_ok_iff.2 ⟨_, hi.2, rfl⟩⟩
  | double v =>
    refine (yields_intern (sound_of_not_utf8 (by simp) (by simp))).mono ?_
    intro i q hi
    exact ⟨hi.1, exceptBind_eq_ok_iff.2 ⟨_, hi.2, rfl⟩⟩
  | string s =>
    refine (yields_utf8 s).bind fun t => ?_
    refine (yields_intern (sound_of_not_utf8 (by simp) (by simp))).mono ?_
    intro i q hi ht
    exact ⟨hi.1, exceptBind_eq_ok_iff.2 ⟨_, hi.2, exceptBind_eq_ok_iff.2 ⟨s, ht.2, rfl⟩⟩⟩
  | ofClass name =>
    refine (yields_ofClass name).mono ?_
    intro i q hi
    obtain ⟨n, hentry, hname⟩ := classAt_eq_ok_iff.1 hi.2
    exact ⟨hi.1, exceptBind_eq_ok_iff.2 ⟨_, hentry, exceptBind_eq_ok_iff.2 ⟨name, hname, rfl⟩⟩⟩
  | methodType d =>
    refine (yields_utf8 d).bind fun t => ?_
    refine (yields_intern (sound_of_not_utf8 (by simp) (by simp))).mono ?_
    intro i q hi ht
    exact ⟨hi.1, exceptBind_eq_ok_iff.2 ⟨_, hi.2, exceptBind_eq_ok_iff.2 ⟨d, ht.2, rfl⟩⟩⟩
  | methodHandle kind m viaInterface =>
    refine (yields_member m (handleKind kind viaInterface)).bind fun r => ?_
    refine (yields_intern (sound_of_not_utf8 (by simp) (by simp))).mono ?_
    intro i q hi hr
    refine ⟨hi.1, exceptBind_eq_ok_iff.2 ⟨_, hi.2, exceptBind_eq_ok_iff.2 ⟨_, hr.2, ?_⟩⟩⟩
    change Except.ok (Constant.methodHandle kind m _) = _
    rw [handleKind_eq_interfaceMethod hc]
  | dynamic bootstrap name d =>
    refine (yields_nameAndType name d).bind fun nt => ?_
    refine (yields_intern (sound_of_not_utf8 (by simp) (by simp))).mono ?_
    intro i q hi hnt
    exact ⟨hi.1, exceptBind_eq_ok_iff.2 ⟨_, hi.2, exceptBind_eq_ok_iff.2 ⟨_, hnt.2, rfl⟩⟩⟩

/-! ### Pools of given entries -/

/-- The pool to which entries were added one after the other. -/
def ofEntries (entries : List Entry) : Pool :=
  entries.foldl (fun p e => p.append ⟨e, none⟩) empty

/-- The pool of some entries and one more is that of the former with the latter added. -/
theorem ofEntries_concat (entries : List Entry) (e : Entry) :
    ofEntries (entries ++ [e]) = (ofEntries entries).append ⟨e, none⟩ := by
  rw [ofEntries, List.foldl_append]
  rfl

/-- The pool of narrow entries has one slot for each and the one that is never used. -/
theorem size_ofEntries {entries : List Entry} (h : ∀ e ∈ entries, e.isWide = false) :
    (ofEntries entries).size = entries.length + 1 := by
  induction entries using List.reverseRecOn with
  | nil => rfl
  | append_singleton entries e ih =>
    have hslots : e.slots = 1 := by
      rw [Entry.slots, h e (by simp)]
      rfl
    rw [ofEntries_concat, size_append, ih fun e he => h e (by simp [he]), hslots, List.length_append,
      List.length_singleton]

/-- The index of a pool names the first place of each entry. -/
theorem index_ofEntries {entries : List Entry} (h : ∀ e ∈ entries, e.isWide = false) (e : Entry) :
    (ofEntries entries).index[e]? =
      if e ∈ entries then some (entries.idxOf e + 1).toUInt16 else none := by
  -- From the end: the last entry is named only if no equal one stands before it.
  induction entries using List.reverseRecOn generalizing e with
  | nil => simp [ofEntries, empty]
  | append_singleton entries e' ih =>
    have hnarrow : ∀ e ∈ entries, e.isWide = false := fun e he => h e (by simp [he])
    have hindex : (ofEntries (entries ++ [e'])).index =
        (ofEntries entries).index.insertIfNew e' (ofEntries entries).size.toUInt16 := by
      rw [ofEntries_concat]
      rfl
    have hmem : e' ∈ (ofEntries entries).index ↔ e' ∈ entries := by
      rw [Std.HashMap.mem_iff_isSome_getElem?, ih hnarrow]
      split <;> simp_all
    rw [hindex, Std.HashMap.getElem?_insertIfNew, ih hnarrow, size_ofEntries hnarrow]
    by_cases he : e ∈ entries
    · have hnew : ¬((e' == e) = true ∧ e' ∉ (ofEntries entries).index) := by
        rintro ⟨heq, hnot⟩
        rw [hmem, beq_iff_eq.1 heq] at hnot
        exact hnot he
      rw [if_neg hnew, if_pos he, if_pos (by simp [he]), List.idxOf_append_of_mem he]
    · by_cases heq : e' = e
      · subst heq
        rw [if_pos ⟨beq_self_eq_true _, fun hin => he (hmem.1 hin)⟩, if_pos (by simp), List.idxOf_append_of_notMem he]
        simp
      · have hne : ¬e = e' := fun h => heq h.symm
        rw [if_neg (by simp [heq]), if_neg he, if_neg (by simp [he, hne])]

/-- Adding an entry that takes one slot to a pool that is made of such entries. -/
theorem intern_ofEntries {entries : List Entry} {e : Entry}
    (h : ∀ e ∈ entries, e.isWide = false) (he : e.isWide = false)
    (hsize : entries.length < 65534) :
    intern e (ofEntries entries) = (.ok (entries.idxOf e + 1).toUInt16,
      ofEntries (if e ∈ entries then entries else entries ++ [e])) := by
  have hslots : e.slots = 1 := by
    rw [Entry.slots, he]
    rfl
  rw [intern, index_ofEntries h e]
  by_cases hmem : e ∈ entries
  · rw [if_pos hmem, if_pos hmem]
  · rw [if_neg hmem, if_neg hmem, List.idxOf_eq_length hmem, ofEntries_concat]
    dsimp only
    rw [size_ofEntries h, hslots, if_neg (by omega)]

/-- An entry that stands in a pool is not added again. -/
theorem intern_ofEntries_of_mem {entries : List Entry} {e : Entry}
    (h : ∀ e ∈ entries, e.isWide = false) (hsize : entries.length < 65534) (he : e ∈ entries) :
    intern e (ofEntries entries) = (.ok (entries.idxOf e + 1).toUInt16, ofEntries entries) := by
  rw [intern_ofEntries h (h e he) hsize, if_pos he]

/-- A text that stands in a pool is not added again. -/
theorem utf8_ofEntries_of_mem {entries : List Entry} {text : String}
    (h : ∀ e ∈ entries, e.isWide = false) (hsize : entries.length < 65534)
    (htext : (ModifiedUtf8.encode text).length ≤ 65535) (hmem : .utf8 text ∈ entries) :
    utf8 text (ofEntries entries) =
      (.ok (entries.idxOf (.utf8 text) + 1).toUInt16, ofEntries entries) := by
  rw [utf8, if_neg (Nat.not_lt.2 htext)]
  exact intern_ofEntries_of_mem h hsize hmem

/-- An entry joins a pool as the next one of a list. -/
theorem intern_next {all : List Entry} {e : Entry} (n : Nat)
    (h : (∀ e ∈ all, e.isWide = false) ∧ n < 65534 ∧ all[n]? = some e ∧ e ∉ all.take n) :
    intern e (ofEntries (all.take n)) =
      (.ok (n + 1).toUInt16, ofEntries (all.take (n + 1))) := by
  obtain ⟨hnarrow, hsize, hget, hnew⟩ := h
  have hlength : (all.take n).length = n :=
    List.length_take_of_le (Nat.le_of_lt (List.getElem?_eq_some_iff.1 hget).1)
  have hfront : ∀ e ∈ all.take n, e.isWide = false :=
    fun e he => hnarrow e (List.mem_of_mem_take he)
  rw [intern_ofEntries hfront (hnarrow e (List.mem_of_getElem? hget)) (by omega), if_neg hnew,
    List.idxOf_eq_length hnew, hlength, List.take_add_one, hget]
  rfl

/-- A text joins a pool as the next entry of a list. -/
theorem utf8_next {all : List Entry} {text : String} (n : Nat)
    (htext : (ModifiedUtf8.encode text).length ≤ 65535)
    (h : (∀ e ∈ all, e.isWide = false) ∧ n < 65534 ∧ all[n]? = some (.utf8 text) ∧
      .utf8 text ∉ all.take n) :
    utf8 text (ofEntries (all.take n)) =
      (.ok (n + 1).toUInt16, ofEntries (all.take (n + 1))) := by
  rw [utf8, if_neg (Nat.not_lt.2 htext)]
  exact intern_next n h

end Pool

end Unscramble.Binary
