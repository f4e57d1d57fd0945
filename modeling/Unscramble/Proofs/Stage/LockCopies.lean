import Unscramble.Proofs.Stage.Locks

/-! # Synchronized blocks settle

Each pass moves the end of a range over one release of its lock, so a range ends where it should after
as many passes as there are releases right behind it. The loads of locks that were just stored are all
replaced in the first pass, and neither change makes room for the other one.

Main definitions: `Copies`, `CopiesLock`. Main statements: `copies_duplicateLock`,
`replaceLoads_again`, `endsAfter_monitor`. -/

namespace Unscramble

open Pattern

namespace Idiom

/-! ### Locks that are loaded back -/

/-- A place with one word. -/
theorem holds_one {l : Listing} {h : Handle} {name : String} {op : Opcode}
    {known : Opcode.ofMnemonic? name = some op} :
    (Pattern.Place.mk (.one name op known) []).holds l h = true ↔ (l.get h).opcode? = some op := by
  rw [Pattern.Place.holds, Option.any_eq_true]
  simp [Pattern.Place.accepts, Atom.accepts]

/-- The word for a store of a reference. -/
def refStorePlace : Pattern.Place where
  first := .one "ASTORE" .astore (Opcode.ofMnemonic?_eq_some (by decide +kernel))

/-- The word for a load of a reference. -/
def refLoadPlace : Pattern.Place where
  first := .one "ALOAD" .aload (Opcode.ofMnemonic?_eq_some (by decide +kernel))

/-- The word for the taking of a lock. -/
def enterPlace : Pattern.Place where
  first := .one "MONITORENTER" .monitorenter (Opcode.ofMnemonic?_eq_some (by decide +kernel))

/-- The words of the pattern for locks are those of its three places. -/
theorem isSpelled_loadBeforeEnter :
    isSpelled (Place.expression [refStorePlace, refLoadPlace, enterPlace]).lexemes
      "ASTORE ALOAD MONITORENTER".toList = true :=
  isSpelled_ofList (by decide +kernel)

/-- The runs of the pattern for locks are the stretches of real instructions at its three places. -/
theorem runs_loadBeforeEnter (l : Listing) : loadBeforeEnter.runs l =
    ((Place.expression [refStorePlace, refLoadPlace, enterPlace]).spans Atom.accepts
      l.opcodes.toArray).map (stretch l.reals) :=
  runs_ofText (spells_of_isSpelled isSpelled_loadBeforeEnter) (by decide +kernel)

/-- The loads of locks that were just stored are all triples of a store, a load and the taking of a
lock. -/
theorem mem_runs_loadBeforeEnter_iff {l : Listing} {run : List Handle} :
    run ∈ loadBeforeEnter.runs l ↔ ∃ store load enter, run = [store, load, enter] ∧
      [store, load, enter] <:+: l.reals ∧ (l.get store).opcode? = some .astore ∧
      (l.get load).opcode? = some .aload ∧ (l.get enter).opcode? = some .monitorenter := by
  have hruns := @mem_runs_triple_iff "ASTORE ALOAD MONITORENTER" refStorePlace refLoadPlace
    enterPlace l run isSpelled_loadBeforeEnter (by decide +kernel) (by
      rintro ⟨b⟩
      revert b
      decide +kernel)
  simp only [refStorePlace, refLoadPlace, enterPlace, holds_one] at hruns
  exact hruns

/-- The runs share no instruction. -/
theorem disjoint_loadBeforeEnter {l : Listing} (wf : l.WellFormed) :
    (loadBeforeEnter.runs l).Pairwise List.Disjoint :=
  (loadBeforeEnter.runs_apart l).2.2 wf.nodup

section

variable {l : Listing} {store load enter : Handle}

/-- A copy is put in front of the store, and the load is taken out. -/
theorem handles_duplicateLock (wf : l.WellFormed) (h : [store, load, enter] <:+: l.reals) :
    ∃ front mid back, l.handles = front ++ store :: (mid ++ load :: back) ∧
      mid.filter l.isReal = [] ∧ (∃ rest, back.filter l.isReal = enter :: rest) ∧
      (duplicateLock l [store, load, enter]).handles =
        front ++ l.capacity :: store :: (mid ++ back) := by
  obtain ⟨before, rest, hreals⟩ := h
  have hreals : l.handles.filter l.isReal = before ++ store :: load :: enter :: rest := by
    rw [← Listing.reals, ← hreals]
    -- The listing is split at its real instructions: what stands between the store and the load is
    -- not real.
    simp
  obtain ⟨first, second, hs, -, hsecond⟩ := List.filter_eq_append_iff.1 hreals
  obtain ⟨labels, third, rfl, -, -, hthird⟩ := List.filter_eq_cons_iff.1 hsecond
  obtain ⟨mid, back, rfl, hmid, -, hback⟩ := List.filter_eq_cons_iff.1 hthird
  have hs : l.handles = (first ++ labels) ++ store :: (mid ++ load :: back) := by
    rw [hs, List.append_assoc]
  have hnodup := wf.nodup
  rw [hs] at hnodup
  refine ⟨first ++ labels, mid, back, hs, List.filter_eq_nil_iff.2 hmid, ⟨rest, hback⟩, ?_⟩
  -- The copy is put in before the store, which has one place; then the load is the first one to be
  -- found.
  obtain ⟨front', back', hs', hnew, -, hback'⟩ :=
    (l.create (.plain .dup)).2.handles_insertBefore store (l.create (.plain .dup)).1
  have hs' : l.handles = front' ++ back' := hs'
  have hstore : store ∉ first ++ labels := (not_mem_of_nodup_middle hnodup).1
  have hm : store ∈ l.handles := by
    rw [hs]
    simp
  have hback' : back' = store :: (mid ++ load :: back) :=
    (hback' hm).trans (Listing.onward_of_split (l := l) hs hstore)
  have hfront' : front' = first ++ labels :=
    List.append_cancel_right (hs'.symm.trans (hs.trans (congrArg _ hback'.symm)))
  have hload : load ∉ first ++ labels ++ l.capacity :: store :: mid := by
    have hload := hnodup
    rw [← List.cons_append, ← List.append_assoc] at hload
    have hload := (not_mem_of_nodup_middle hload).1
    have hne : load ≠ l.capacity :=
      (wf.lt_capacity load (by rw [hs]; simp)).ne
    simp only [List.mem_append, List.mem_cons, not_or] at hload ⊢
    exact ⟨hload.1, hne, hload.2⟩
  have hremove : (duplicateLock l [store, load, enter]).handles =
      (front' ++ (l.create (.plain .dup)).1 :: back').erase load := by
    rw [← hnew]
    exact Array.toList_erase ..
  have hassoc : first ++ labels ++ l.capacity :: store :: (mid ++ load :: back) =
      (first ++ labels ++ l.capacity :: store :: mid) ++ load :: back := by
    simp
  have hnewHandle : (l.create (.plain .dup)).1 = l.capacity := rfl
  rw [hremove, hfront', hback', hnewHandle, hassoc, List.erase_append_right _ hload,
    List.erase_cons_head]
  simp

end

/-- Copies of locks are put in, and loads of locks are taken out. -/
structure Copies (l l' : Listing) : Prop where
  /-- Handles are linked once. -/
  wf : l'.WellFormed
  /-- Nodes stay. -/
  capacity : l.capacity ≤ l'.capacity
  /-- Instructions stay. -/
  get : ∀ h < l.capacity, l'.get h = l.get h
  /-- Labels stay linked. -/
  labels : ∀ h ∈ l.labels, h ∈ l'.labels
  /-- As many releases follow a label. -/
  releases : ∀ h ∈ l.labels, releases l' (l'.follow h) = releases l (l.follow h)
  /-- A label opens behind the taking of a lock if it did. -/
  opens : ∀ h ∈ l.labels, ((l'.prevReal? h).any fun a => (l'.get a).hasOpcode .monitorenter) =
    (l.prevReal? h).any fun a => (l.get a).hasOpcode .monitorenter
  /-- No other load of a lock comes to stand behind its store. -/
  runs : ∀ run ∈ loadBeforeEnter.runs l', run ∈ loadBeforeEnter.runs l

/-- A listing copies itself. -/
theorem Copies.refl {l : Listing} (wf : l.WellFormed) : Copies l l :=
  ⟨wf, Nat.le_refl _, fun _ _ => rfl, fun _ h => h, fun _ _ => rfl, fun _ _ => rfl, fun _ h => h⟩

/-- A copy of a copy is a copy. -/
theorem Copies.trans {l l' l'' : Listing} (c : Copies l l') (c' : Copies l' l'') : Copies l l'' where
  wf := c'.wf
  capacity := c.capacity.trans c'.capacity
  get h hlt := (c'.get h (hlt.trans_le c.capacity)).trans (c.get h hlt)
  labels h hm := c'.labels h (c.labels h hm)
  releases h hm := (c'.releases h (c.labels h hm)).trans (c.releases h hm)
  opens h hm := (c'.opens h (c.labels h hm)).trans (c.opens h hm)
  runs run hrun := c.runs run (c'.runs run hrun)

/-- A stretch of a list that shares nothing with the middle of the list stands in front of it or
behind it. -/
theorem isInfix_of_disjoint {α : Type} {xs front mid back : List α} (hmid : mid ≠ [])
    (h : xs <:+: front ++ (mid ++ back)) (hdisjoint : List.Disjoint xs mid) :
    xs <:+: front ∨ xs <:+: back := by
  induction front with
  | nil =>
    refine .inr ?_
    rw [List.nil_append] at h
    clear hmid
    induction mid with
    | nil => exact h
    | cons m mid ih =>
      rw [List.disjoint_cons_right] at hdisjoint
      rcases List.infix_cons_iff.1 h with hprefix | h
      · cases xs with
        | nil => exact List.nil_infix
        | cons x xs =>
          rw [(List.cons_prefix_cons.1 hprefix).1] at hdisjoint
          exact absurd List.mem_cons_self hdisjoint.1
      · exact ih hdisjoint.2 h
  | cons a front ih =>
    rcases List.infix_cons_iff.1 h with hprefix | h
    · -- a stretch from the first entry on ends before the middle
      obtain ⟨m, mid, rfl⟩ := List.exists_cons_of_ne_nil hmid
      refine .inl (List.IsPrefix.isInfix ?_)
      rcases List.prefix_or_prefix_of_prefix hprefix
        (List.prefix_append (a :: front) (m :: mid ++ back)) with hshort | ⟨ys, rfl⟩
      · exact hshort
      · cases ys with
        | nil => simp
        | cons y ys =>
          have heq : y = m := by
            have := List.prefix_append_right_inj (a :: front) |>.1 hprefix
            exact (List.cons_prefix_cons.1 this).1
          rw [heq] at hdisjoint
          exact absurd List.mem_cons_self (hdisjoint (by simp))
    · exact (ih h).imp_left fun h => h.trans (List.suffix_cons a front).isInfix

/-- In front of a store a copy of what is stored is put in, and the load behind the store is taken
out. The lock is taken behind the load. -/
structure CopiesLock (l l' : Listing) (front mid back : List Handle) (store load enter : Handle)
    (rest : List Handle) : Prop where
  /-- Handles are linked once. -/
  wf : l.WellFormed
  /-- They still are. -/
  wf' : l'.WellFormed
  /-- Where the store and the load stand. -/
  handles : l.handles = front ++ store :: (mid ++ load :: back)
  /-- Where the copy stands. -/
  handles' : l'.handles = front ++ l.capacity :: store :: (mid ++ back)
  /-- No real instruction stands between the store and the load. -/
  between : mid.filter l.isReal = []
  /-- The next one behind the load takes the lock. -/
  behind : back.filter l.isReal = enter :: rest
  /-- Instructions stay. -/
  get : ∀ h < l.capacity, l'.get h = l.get h
  /-- The new one is a copy. -/
  copy : (l'.get l.capacity).opcode? = some .dup
  /-- The value that is copied is stored. -/
  stores : (l.get store).opcode? = some .astore
  /-- It is loaded back. -/
  loads : (l.get load).opcode? = some .aload
  /-- It is the lock. -/
  enters : (l.get enter).opcode? = some .monitorenter

section

variable {l : Listing} {h : Handle} {op op' : Opcode}

/-- What has an opcode is no label. -/
theorem isLabel_of_opcode? (hop : (l.get h).opcode? = some op) : (l.get h).isLabel = false := by
  cases hget : l.get h with
  | label =>
    rw [hget] at hop
    cases hop
  | _ => rfl

/-- What has an opcode is real. -/
theorem isReal_of_opcode? (hop : (l.get h).opcode? = some op) : l.isReal h = true :=
  Option.isSome_of_eq_some hop

/-- What has one opcode has no other one. -/
theorem hasOpcode_of_opcode? (hop : (l.get h).opcode? = some op) (hne : op ≠ op') :
    (l.get h).hasOpcode op' = false := by
  rw [Instruction.hasOpcode, hop]
  simpa using hne

end

namespace CopiesLock

variable {l l' : Listing} {front mid back rest : List Handle} {store load enter a : Handle}

/-- All parts of the listing are linked. -/
theorem linked (c : CopiesLock l l' front mid back store load enter rest) :
    (∀ h ∈ front, h ∈ l.handles) ∧ (∀ h ∈ mid, h ∈ l.handles) ∧ (∀ h ∈ back, h ∈ l.handles) ∧
      ∀ h ∈ [store, load, enter], h ∈ l.handles := by
  have henter : enter ∈ back := List.mem_of_mem_filter (c.behind ▸ List.mem_cons_self)
  rw [c.handles]
  refine ⟨fun h hh => by simp [hh], fun h hh => by simp [hh], fun h hh => by simp [hh], ?_⟩
  simp [henter]

/-- The instructions of the listing are the same. -/
theorem get_linked (c : CopiesLock l l' front mid back store load enter rest) (ha : a ∈ l.handles) :
    l'.get a = l.get a :=
  c.get a (c.wf.lt_capacity a ha)

/-- The copied value is still stored, and the lock is still taken. -/
theorem opcodes (c : CopiesLock l l' front mid back store load enter rest) :
    (l'.get store).opcode? = some .astore ∧ (l'.get enter).opcode? = some .monitorenter := by
  obtain ⟨-, -, -, hlinked⟩ := c.linked
  rw [c.get_linked (hlinked store (by simp)), c.get_linked (hlinked enter (by simp))]
  exact ⟨c.stores, c.enters⟩

/-- The real instructions of a part of the sequence stay. -/
theorem filter_eq (c : CopiesLock l l' front mid back store load enter rest) {hs : List Handle}
    (hm : ∀ h ∈ hs, h ∈ l.handles) : hs.filter l'.isReal = hs.filter l.isReal := by
  refine List.filter_congr fun h hh => ?_
  unfold Listing.isReal
  rw [c.get_linked (hm h hh)]

/-- Whether the last of some instructions takes a lock stays. -/
theorem last_eq (c : CopiesLock l l' front mid back store load enter rest) {hs : List Handle}
    (hm : ∀ h ∈ hs, h ∈ l.handles) :
    (hs.getLast?.any fun a => (l'.get a).hasOpcode .monitorenter) =
      hs.getLast?.any fun a => (l.get a).hasOpcode .monitorenter := by
  cases hend : hs.getLast? with
  | none => rfl
  | some b => rw [Option.any_some, Option.any_some, c.get_linked (hm b (List.mem_of_getLast? hend))]

/-- The real instructions before and after. -/
theorem reals_eq (c : CopiesLock l l' front mid back store load enter rest) :
    l.reals = front.filter l.isReal ++ ([store, load, enter] ++ rest) ∧
      l'.reals = front.filter l.isReal ++ ([l.capacity, store, enter] ++ rest) := by
  obtain ⟨hfront, hmid, hback, -⟩ := c.linked
  have hbetween : mid.filter l'.isReal = [] := (c.filter_eq hmid).trans c.between
  constructor
  · rw [Listing.reals, c.handles, List.filter_append,
      List.filter_cons_of_pos (isReal_of_opcode? c.stores), List.filter_append, c.between,
      List.nil_append, List.filter_cons_of_pos (isReal_of_opcode? c.loads), c.behind]
    rfl
  · rw [Listing.reals, c.handles', List.filter_append,
      List.filter_cons_of_pos (isReal_of_opcode? c.copy),
      List.filter_cons_of_pos (isReal_of_opcode? c.opcodes.1), List.filter_append, hbetween,
      List.nil_append, c.filter_eq hfront, c.filter_eq hback, c.behind]
    rfl

/-- As many releases follow a label, and it opens behind the taking of a lock if it did. -/
abbrev SameAt (l l' : Listing) (a : Handle) : Prop :=
  releases l' (l'.follow a) = releases l (l.follow a) ∧
    ((l'.prevReal? a).any fun b => (l'.get b).hasOpcode .monitorenter) =
      (l.prevReal? a).any fun b => (l.get b).hasOpcode .monitorenter

/-- In front of the store what follows goes on with a copy. -/
theorem same_front (c : CopiesLock l l' front mid back store load enter rest) (ha : a ∈ front) :
    SameAt l l' a := by
  obtain ⟨hfront, -⟩ := c.linked
  obtain ⟨first, second, hs⟩ := List.append_of_mem ha
  have hsplit : l.handles = first ++ a :: (second ++ store :: (mid ++ load :: back)) := by
    rw [c.handles, hs]
    simp
  have hsplit' : l'.handles = first ++ a :: (second ++ l.capacity :: store :: (mid ++ back)) := by
    rw [c.handles', hs]
    simp
  have hfirst : ∀ h ∈ first, h ∈ l.handles := fun h hh => hfront h (by simp [hs, hh])
  have hsecond : ∀ h ∈ second, h ∈ l.handles := fun h hh => hfront h (by simp [hs, hh])
  obtain ⟨hfollow, hprev⟩ := Listing.follow_of_split c.wf hsplit
  obtain ⟨hfollow', hprev'⟩ := Listing.follow_of_split c.wf' hsplit'
  constructor
  · rw [hfollow, hfollow', List.filter_append, List.filter_append, c.filter_eq hsecond,
      List.filter_cons_of_pos (isReal_of_opcode? c.stores),
      List.filter_cons_of_pos (isReal_of_opcode? c.copy)]
    exact releases_append (fun b hb => c.get_linked (hsecond b (List.mem_of_mem_filter hb)))
      ⟨hasOpcode_of_opcode? c.stores (by decide), hasOpcode_of_opcode? c.stores (by decide)⟩
      ⟨hasOpcode_of_opcode? c.copy (by decide), hasOpcode_of_opcode? c.copy (by decide)⟩
  · rw [hprev, hprev', c.filter_eq hfirst]
    exact c.last_eq fun b hb => hfirst b (List.mem_of_mem_filter hb)

/-- Between the store and the load nothing is released either way. -/
theorem same_mid (c : CopiesLock l l' front mid back store load enter rest) (ha : a ∈ mid) :
    SameAt l l' a := by
  obtain ⟨-, hmid, hback, hlinked⟩ := c.linked
  obtain ⟨first, second, hs⟩ := List.append_of_mem ha
  have hsplit : l.handles = (front ++ store :: first) ++ a :: (second ++ load :: back) := by
    rw [c.handles, hs]
    simp
  have hsplit' : l'.handles = (front ++ l.capacity :: store :: first) ++ a :: (second ++ back) := by
    rw [c.handles', hs]
    simp
  have hnone : ∀ hs : List Handle, hs.Sublist mid →
      hs.filter l.isReal = [] ∧ hs.filter l'.isReal = [] := by
    intro hs hsub
    have hempty := List.sublist_nil.1 (c.between ▸ hsub.filter l.isReal)
    exact ⟨hempty, (c.filter_eq fun h hh => hmid h (hsub.subset hh)).trans hempty⟩
  obtain ⟨hfirst, hfirst'⟩ := hnone first (hs ▸ List.sublist_append_left _ _)
  obtain ⟨hsecond, hsecond'⟩ := hnone second
    (hs ▸ (List.sublist_cons_self _ _).trans (List.sublist_append_right _ _))
  obtain ⟨hfollow, hprev⟩ := Listing.follow_of_split c.wf hsplit
  obtain ⟨hfollow', hprev'⟩ := Listing.follow_of_split c.wf' hsplit'
  -- What follows is the load and the enter or only the enter; what precedes is the store, with the
  -- copy in front of it.
  constructor
  · rw [hfollow, hfollow', List.filter_append, List.filter_append, hsecond, hsecond',
      List.filter_cons_of_pos (isReal_of_opcode? c.loads), c.filter_eq hback, c.behind,
      List.nil_append, List.nil_append,
      releases_of_first (hasOpcode_of_opcode? c.opcodes.2 (by decide)),
      releases_of_second (hasOpcode_of_opcode? c.enters (by decide))]
  · rw [hprev, hprev', List.filter_append, List.filter_append,
      List.filter_cons_of_pos (isReal_of_opcode? c.stores),
      List.filter_cons_of_pos (isReal_of_opcode? c.copy),
      List.filter_cons_of_pos (isReal_of_opcode? c.opcodes.1), hfirst, hfirst']
    simp [c.get_linked (hlinked store (by simp))]

/-- Behind the load neither the load nor the store takes a lock. -/
theorem same_back (c : CopiesLock l l' front mid back store load enter rest) (ha : a ∈ back) :
    SameAt l l' a := by
  obtain ⟨hfront, hmid, hback, -⟩ := c.linked
  obtain ⟨first, second, hs⟩ := List.append_of_mem ha
  have hsplit : l.handles = (front ++ store :: (mid ++ load :: first)) ++ a :: second := by
    rw [c.handles, hs]
    simp
  have hsplit' : l'.handles = (front ++ l.capacity :: store :: (mid ++ first)) ++ a :: second := by
    rw [c.handles', hs]
    simp
  have hfirst : ∀ h ∈ first, h ∈ l.handles := fun h hh => hback h (by simp [hs, hh])
  have hsecond : ∀ h ∈ second, h ∈ l.handles := fun h hh => hback h (by simp [hs, hh])
  obtain ⟨hfollow, hprev⟩ := Listing.follow_of_split c.wf hsplit
  obtain ⟨hfollow', hprev'⟩ := Listing.follow_of_split c.wf' hsplit'
  constructor
  · rw [hfollow, hfollow', c.filter_eq hsecond]
    exact releases_congr fun b hb => c.get_linked (hsecond b (List.mem_of_mem_filter hb))
  · rw [hprev, hprev', List.filter_append, List.filter_append,
      List.filter_cons_of_pos (isReal_of_opcode? c.stores),
      List.filter_cons_of_pos (isReal_of_opcode? c.copy),
      List.filter_cons_of_pos (isReal_of_opcode? c.opcodes.1), List.filter_append,
      List.filter_append, c.between, c.filter_eq hmid, c.between,
      List.filter_cons_of_pos (isReal_of_opcode? c.loads), c.filter_eq hfirst]
    -- If nothing real is behind the load yet, the last instruction is the load or the store, and
    -- neither takes a lock.
    have hlast := c.last_eq fun b hb => hfirst b (List.mem_of_mem_filter (p := l.isReal) hb)
    cases hreal : first.filter l.isReal with
    | nil =>
      have hload := hasOpcode_of_opcode? c.loads (by decide : Opcode.aload ≠ .monitorenter)
      have hstore := hasOpcode_of_opcode? c.opcodes.1 (by decide : Opcode.astore ≠ .monitorenter)
      simp [hload, hstore]
    | cons b bs =>
      rw [hreal] at hlast
      simpa [List.getLast?_append, List.getLast?_cons] using hlast

/-- The same instruction follows each label. -/
theorem same_label (c : CopiesLock l l' front mid back store load enter rest) (ha : a ∈ l.labels) :
    SameAt l l' a := by
  obtain ⟨hm, hlabel⟩ := Listing.mem_labels_iff.1 ha
  have hne : ∀ {h : Handle} {op : Opcode}, (l.get h).opcode? = some op → a ≠ h := by
    rintro h op hop rfl
    rw [isLabel_of_opcode? hop] at hlabel
    cases hlabel
  have hwhere : a ∈ front ∨ a ∈ mid ∨ a ∈ back := by
    rw [c.handles] at hm
    simpa [hne c.stores, hne c.loads] using hm
  rcases hwhere with hin | hin | hin
  · exact c.same_front hin
  · exact c.same_mid hin
  · exact c.same_back hin

/-- The load is gone. -/
theorem load_gone (c : CopiesLock l l' front mid back store load enter rest) :
    load ∉ l'.handles := by
  have hnodup := c.wf.nodup
  have hne := (c.wf.lt_capacity load (c.linked.2.2.2 load (by simp))).ne
  rw [c.handles] at hnodup
  rw [c.handles']
  simp only [List.nodup_append, List.nodup_cons, List.mem_append, List.mem_cons] at hnodup ⊢
  grind

/-- A stretch of real instructions that does not meet the place where the copy is made stays. -/
theorem isInfix_iff (c : CopiesLock l l' front mid back store load enter rest) {xs : List Handle}
    (hold : List.Disjoint xs [store, load, enter]) (hnew : List.Disjoint xs [l.capacity, store, enter]) :
    xs <:+: l'.reals ↔ xs <:+: l.reals := by
  have hparts : ∀ {three : List Handle}, xs <:+: front.filter l.isReal ∨ xs <:+: rest →
      xs <:+: front.filter l.isReal ++ (three ++ rest) := by
    intro three hin
    rcases hin with hin | hin
    · exact hin.trans (List.prefix_append _ _).isInfix
    · exact hin.trans ((List.suffix_append _ _).isInfix.trans (List.suffix_append _ _).isInfix)
  obtain ⟨hreals, hreals'⟩ := c.reals_eq
  rw [hreals, hreals']
  constructor
  · exact fun hin => hparts (isInfix_of_disjoint (List.cons_ne_nil _ _) hin hnew)
  · exact fun hin => hparts (isInfix_of_disjoint (List.cons_ne_nil _ _) hin hold)

/-- A load that stands behind its store afterwards does not meet the place. -/
theorem disjoint_of_mem_runs (c : CopiesLock l l' front mid back store load enter rest)
    {run : List Handle} (hrun : run ∈ loadBeforeEnter.runs l') :
    List.Disjoint run [l.capacity, store, enter] ∧ load ∉ run := by
  obtain ⟨x, y, z, rfl, hin, hx, hy, hz⟩ := mem_runs_loadBeforeEnter_iff.1 hrun
  obtain ⟨hstore, henter⟩ := c.opcodes
  have hnodup := c.wf'.nodup_reals
  have hpair : [store, enter] <:+: l'.reals := by
    rw [c.reals_eq.2]
    exact ⟨front.filter l.isReal ++ [l.capacity], rest, by simp⟩
  have hfirst : [x, y] <:+: l'.reals := (List.prefix_append [x, y] [z]).isInfix.trans hin
  have hsecond : [y, z] <:+: l'.reals := (List.suffix_cons x [y, z]).isInfix.trans hin
  have hne : ∀ {a b : Handle} {op op' : Opcode}, (l'.get a).opcode? = some op →
      (l'.get b).opcode? = some op' → op ≠ op' → a ≠ b := by
    rintro a b op op' ha hb hop rfl
    exact hop (Option.some.inj (ha.symm.trans hb))
  -- What follows the store takes the lock, so it is no load; and the other way round.
  have hxstore : x ≠ store := by
    rintro rfl
    exact hne hy henter (by decide) (eq_of_pair_isInfix hnodup hfirst hpair)
  have hzenter : z ≠ enter := by
    rintro rfl
    have hback := eq_of_pair_isInfix (List.nodup_reverse.2 hnodup)
      (List.reverse_infix.2 hsecond) (List.reverse_infix.2 hpair)
    exact hne hy hstore (by decide) hback
  refine ⟨?_, fun hload => c.load_gone (List.mem_of_mem_filter (hin.subset hload))⟩
  simp only [List.disjoint_cons_left, List.mem_cons, List.not_mem_nil, or_false, not_or]
  exact ⟨⟨hne hx c.copy (by decide), hxstore, hne hx henter (by decide)⟩,
    ⟨hne hy c.copy (by decide), hne hy hstore (by decide), hne hy henter (by decide)⟩,
    ⟨hne hz c.copy (by decide), hne hz hstore (by decide), hzenter⟩, List.disjoint_nil_left _⟩

/-- Loads that stand behind their stores and do not meet the place are the same ones. -/
theorem mem_runs_iff (c : CopiesLock l l' front mid back store load enter rest) {run : List Handle}
    (hlinked : ∀ h ∈ run, h ∈ l.handles) (hold : List.Disjoint run [store, load, enter])
    (hnew : List.Disjoint run [l.capacity, store, enter]) :
    run ∈ loadBeforeEnter.runs l' ↔ run ∈ loadBeforeEnter.runs l := by
  rw [mem_runs_loadBeforeEnter_iff, mem_runs_loadBeforeEnter_iff]
  refine exists_congr fun x => exists_congr fun y => exists_congr fun z =>
    and_congr_right fun hrun => ?_
  subst hrun
  rw [c.isInfix_iff hold hnew, c.get_linked (hlinked x (by simp)), c.get_linked (hlinked y (by simp)),
    c.get_linked (hlinked z (by simp))]

end CopiesLock

section

variable {l : Listing} {store load enter : Handle}

/-- A load of a lock that was just stored is replaced by a copy. -/
theorem copiesLock_duplicateLock (wf : l.WellFormed)
    (hrun : [store, load, enter] ∈ loadBeforeEnter.runs l) : ∃ front mid back rest,
      CopiesLock l (duplicateLock l [store, load, enter]) front mid back store load enter rest := by
  obtain ⟨_, _, _, heq, hstands, hstore, hload, henter⟩ := mem_runs_loadBeforeEnter_iff.1 hrun
  cases heq
  obtain ⟨front, mid, back, hs, hmid, ⟨rest, hback⟩, hs'⟩ := handles_duplicateLock wf hstands
  have htargets : (Instruction.plain .dup : Instruction Label).targets = [] := rfl
  have einsert := Listing.edits_insert wf store htargets
  have hm : load ∈ l.handles := List.mem_of_mem_filter (hstands.subset (by simp))
  have edits := einsert.trans (Listing.edits_remove einsert.wf
    (by rw [einsert.isLabel load (wf.lt_capacity load hm), isLabel_of_opcode? hload]))
  exact ⟨front, mid, back, rest, wf, edits.wf, hs, hs', hmid, hback,
    fun h hlt => (Flow.keeps_create l (.plain .dup)).same h hlt,
    congrArg _ (Flow.get_create l (.plain .dup)), hstore, hload, henter⟩

/-- One copy is put in and one load is taken out. The other loads that stand behind their stores
stay, and there are no new ones. -/
theorem copies_duplicateLock (wf : l.WellFormed)
    (hrun : [store, load, enter] ∈ loadBeforeEnter.runs l) :
    Copies l (duplicateLock l [store, load, enter]) ∧
      [store, load, enter] ∉ loadBeforeEnter.runs (duplicateLock l [store, load, enter]) ∧
      ∀ run ∈ loadBeforeEnter.runs l, List.Disjoint run [store, load, enter] →
        run ∈ loadBeforeEnter.runs (duplicateLock l [store, load, enter]) := by
  obtain ⟨front, mid, back, rest, c⟩ := copiesLock_duplicateLock wf hrun
  have hlabels : ∀ h ∈ l.labels, h ∈ (duplicateLock l [store, load, enter]).labels := by
    intro h hh
    obtain ⟨hm, hlabel⟩ := Listing.mem_labels_iff.1 hh
    have hne : h ≠ load := by
      rintro rfl
      rw [isLabel_of_opcode? c.loads] at hlabel
      cases hlabel
    refine Listing.mem_labels_iff.2 ⟨?_, by rw [c.get_linked hm, hlabel]⟩
    rw [c.handles] at hm
    rw [c.handles']
    simp only [List.mem_append, List.mem_cons] at hm ⊢
    grind
  have hnodes : l.capacity ≤ (duplicateLock l [store, load, enter]).capacity :=
    (Flow.keeps_create l (.plain .dup)).capacity
  refine ⟨⟨c.wf', hnodes, c.get, hlabels, fun h hh => (c.same_label hh).1,
    fun h hh => (c.same_label hh).2, fun run hnew => ?_⟩, fun hnew => ?_, fun run hold hapart => ?_⟩
  -- A run that is new would have come together around the copy or the load, but neither starts an
  -- enter.
  · obtain ⟨hdisjoint, hload⟩ := c.disjoint_of_mem_runs hnew
    have hapart : List.Disjoint run [store, load, enter] := by
      intro h hh hin
      simp only [List.mem_cons, List.not_mem_nil, or_false] at hin
      rcases hin with rfl | rfl | rfl
      · exact hdisjoint hh (by simp)
      · exact hload hh
      · exact hdisjoint hh (by simp)
    refine (c.mem_runs_iff (fun h hh => ?_) hapart hdisjoint).1 hnew
    have hm : h ∈ (duplicateLock l [store, load, enter]).handles := (Pattern.mem_run hnew hh).1
    have hne : h ≠ l.capacity := fun heq => hdisjoint hh (by simp [heq])
    rw [c.handles'] at hm
    rw [c.handles]
    simp only [List.mem_append, List.mem_cons] at hm ⊢
    grind
  · exact (c.disjoint_of_mem_runs hnew).2 (by simp)
  -- A run that shares no instruction with this one is not touched.
  · have hlinked : ∀ h ∈ run, h ∈ l.handles := fun h hh => (Pattern.mem_run hold hh).1
    refine (c.mem_runs_iff hlinked hapart fun h hh hin => ?_).2 hold
    simp only [List.mem_cons, List.not_mem_nil, or_false] at hin
    rcases hin with rfl | rfl | rfl
    · exact absurd (wf.lt_capacity _ (hlinked _ hh)) (Nat.lt_irrefl _)
    · exact hapart hh (by simp)
    · exact hapart hh (by simp)

end

/-- Copies one after the other: all loads of locks that are replaced are gone. -/
theorem copies_foldl {l : Listing} (wf : l.WellFormed) {runs : List (List Handle)}
    (hruns : ∀ run ∈ runs, run ∈ loadBeforeEnter.runs l) (apart : runs.Pairwise List.Disjoint) :
    Copies l (runs.foldl duplicateLock l) ∧
      ∀ run ∈ runs, run ∉ loadBeforeEnter.runs (runs.foldl duplicateLock l) := by
  induction runs generalizing l with
  | nil => exact ⟨.refl wf, fun run hrun => absurd hrun List.not_mem_nil⟩
  | cons run runs ih =>
    obtain ⟨hrun, hrest⟩ := List.forall_mem_cons.1 hruns
    obtain ⟨hfirst, hlater⟩ := List.pairwise_cons.1 apart
    obtain ⟨store, load, enter, rfl, -⟩ := mem_runs_loadBeforeEnter_iff.1 hrun
    obtain ⟨copies, hgone, hstay⟩ := copies_duplicateLock wf hrun
    obtain ⟨copies', hgone'⟩ := ih copies.wf
      (fun run' hrun' => hstay run' (hrest run' hrun') (hfirst run' hrun').symm) hlater
    refine ⟨copies.trans copies', fun run' hrun' => ?_⟩
    rcases List.mem_cons.1 hrun' with rfl | hrun'
    · exact fun h => hgone (copies'.runs _ h)
    · exact hgone' run' hrun'

/-- Replacing the loads of locks is copying. -/
theorem copies_replaceLoads {b : Body} (wf : b.listing.WellFormed) :
    Copies b.listing (replaceLoads loadBeforeEnter b).2.listing ∧
      ∀ run ∈ loadBeforeEnter.runs b.listing, loadsBack b.listing run = true →
        run ∉ loadBeforeEnter.runs (replaceLoads loadBeforeEnter b).2.listing := by
  have hruns : ∀ run ∈ (loadBeforeEnter.runs b.listing).filter (loadsBack b.listing),
      run ∈ loadBeforeEnter.runs b.listing := fun run hrun => List.mem_of_mem_filter hrun
  obtain ⟨copies, hgone⟩ := copies_foldl wf hruns ((disjoint_loadBeforeEnter wf).filter _)
  exact ⟨copies, fun run hrun hback => hgone run (List.mem_filter.2 ⟨hrun, hback⟩)⟩

/-- No load of a lock is replaced if those that stand behind their stores load something else. -/
theorem replaceLoads_eq_zero {b : Body} (h : ∀ run ∈ loadBeforeEnter.runs b.listing,
    loadsBack b.listing run = false) : (replaceLoads loadBeforeEnter b).1 = 0 :=
  List.length_eq_zero_iff.2 (List.filter_eq_nil_iff.2 fun run hrun => ne_true_of_eq_false (h run hrun))

/-- The same instructions load the same lock back. -/
theorem loadsBack_congr {l l' : Listing} {store load enter : Handle}
    (h : ∀ a ∈ [store, load, enter], l'.get a = l.get a) :
    loadsBack l' [store, load, enter] = loadsBack l [store, load, enter] := by
  rw [loadsBack, loadsBack, h store (by simp), h load (by simp)]

/-- All loads of locks are replaced at once. -/
theorem replaceLoads_again {b : Body} (wf : b.listing.WellFormed) :
    (replaceLoads loadBeforeEnter (replaceLoads loadBeforeEnter b).2).1 = 0 := by
  obtain ⟨copies, hgone⟩ := copies_replaceLoads wf
  refine replaceLoads_eq_zero fun run hrun => Bool.eq_false_iff.2 fun hback => ?_
  have hold := copies.runs run hrun
  refine hgone run hold ?_ hrun
  obtain ⟨store, load, enter, rfl, hstands, -⟩ := mem_runs_loadBeforeEnter_iff.1 hold
  rwa [loadsBack_congr fun a ha =>
    copies.get a (wf.lt_capacity a (List.mem_of_mem_filter (hstands.subset ha)))] at hback

/-- Labels that are put in do not make a load of a lock come to stand behind its store. -/
theorem Marks.replaceLoads_eq_zero {b b' : Body} (marks : Marks b.listing b'.listing)
    (wf : b.listing.WellFormed) (h : (replaceLoads loadBeforeEnter b).1 = 0) :
    (replaceLoads loadBeforeEnter b').1 = 0 := by
  have hnone := List.filter_eq_nil_iff.1 (List.length_eq_zero_iff.1 h)
  refine Idiom.replaceLoads_eq_zero fun run hrun => ?_
  obtain ⟨store, load, enter, rfl, hstands, hstore, hload, henter⟩ :=
    mem_runs_loadBeforeEnter_iff.1 hrun
  rw [marks.reals] at hstands
  have hget : ∀ a ∈ [store, load, enter], b'.listing.get a = b.listing.get a := fun a ha =>
    marks.get a (wf.lt_capacity a (List.mem_of_mem_filter (hstands.subset ha)))
  rw [hget store (by simp)] at hstore
  rw [hget load (by simp)] at hload
  rw [hget enter (by simp)] at henter
  rw [loadsBack_congr hget]
  exact Bool.eq_false_iff.2
    (hnone _ (mem_runs_loadBeforeEnter_iff.2 ⟨store, load, enter, rfl, hstands, hstore, hload, henter⟩))

/-- Replacing loads leaves the ranges. -/
theorem guards_replaceLoads (load : Pattern) (b : Body) : (replaceLoads load b).2.guards = b.guards :=
  rfl

/-- Neither do copies of locks matter for the releases that a range fails to cover. -/
theorem Copies.unreleased_eq {l l' : Listing} (c : Copies l l') {g : Guard Label}
    (hstart : g.start ∈ l.labels) (hstop : g.stop ∈ l.labels) :
    unreleased l' g = unreleased l g := by
  rw [unreleased, unreleased, opensLocked, opensLocked, c.opens _ hstart, c.releases _ hstop]

end Idiom

/-! ### The stage -/

namespace Stage

open Idiom Transform

/-- The labels of a range of an intact body are linked. -/
theorem guard_linked {b : Body} (hb : b.Intact) {g : Guard Label} (hg : g ∈ b.guards) :
    g.start ∈ b.listing.labels ∧ g.stop ∈ b.listing.labels :=
  ⟨hb.mem_labels hg (by simp [Guard.labels]), hb.mem_labels hg (by simp [Guard.labels])⟩

/-- The labels that the ranges of an intact body begin and end at. -/
theorem guards_of_intact {b : Body} (hb : b.Intact) : ∀ g ∈ b.guards, g.start ∈ b.listing.handles ∧
    g.stop ∈ b.listing.handles ∧ b.listing.isReal g.stop = false := by
  intro g hg
  obtain ⟨hstart, hstop⟩ := guard_linked hb hg
  obtain ⟨hm, hlabel⟩ := Listing.mem_labels_iff.1 hstop
  exact ⟨(Listing.mem_labels_iff.1 hstart).1, hm, Instruction.isReal_of_isLabel hlabel⟩

/-- Extending ranges takes the releases that they fail to cover one down. -/
theorem lowers_extendGuards {σ : Type} {counter : String} :
    (Hook.counting counter extendGuards : Hook σ Body).Lowers (fun _ => True)
      (fun k b => b.Intact ∧ ∀ g ∈ b.guards, unreleased b.listing g ≤ k) where
  context _ _ _ := trivial
  level := by
    intro k b c changed _ hk hchanged
    obtain ⟨hb, hk⟩ := hk
    obtain ⟨hlow, hzero⟩ := unreleased_extendEach hb.wf (guards_of_intact hb) hk
    refine ⟨⟨(becomes_extendGuards b hb).1, hlow⟩, fun hk => ?_⟩
    cases hchanged
    show decide (0 < (extendEach b.listing b.guards).1) = false
    rw [hzero hk]
    rfl

/-- Replacing loads of locks is done at once. -/
theorem lowers_replaceLoads {σ : Type} {counter : String} :
    (Hook.counting counter (replaceLoads loadBeforeEnter) : Hook σ Body).Lowers (fun _ => True)
      (fun k b => b.Intact ∧ (k = 0 → (replaceLoads loadBeforeEnter b).1 = 0)) where
  context _ _ _ := trivial
  level := by
    intro k b c changed _ hk hchanged
    obtain ⟨hb, hk⟩ := hk
    refine ⟨⟨(becomes_replaceLoads loadBeforeEnter b hb).1, fun _ => replaceLoads_again hb.wf⟩,
      fun hzero => ?_⟩
    cases hchanged
    show decide (0 < (replaceLoads loadBeforeEnter b).1) = false
    rw [hk hzero]
    rfl

variable {p : Codebase} (settings : Settings) (journal : Journal)

/-- Every range is extended over one release in each pass. -/
theorem endsAfter_monitor {n : Nat} (hpos : 0 < n)
    (hp : ∀ b ∈ p.bodies, b.Intact ∧ ∀ g ∈ b.guards, unreleased b.listing g ≤ n) :
    monitor.EndsAfter n settings journal p := by
  have hlowers : ∀ m, (monitor.onBody m).Lowers (fun _ => True) (fun k b =>
      (b.Intact ∧ ∀ g ∈ b.guards, unreleased b.listing g ≤ k) ∧
        b.Intact ∧ (k = 0 → (replaceLoads loadBeforeEnter b).1 = 0)) := by
    intro m
    refine lowers_extendGuards.andThen lowers_replaceLoads (fun k b c _ hb => ?_)
      fun k b c _ hb => ?_
    · obtain ⟨hb, hk⟩ := hb
      refine ⟨(becomes_extendGuards b hb).1, fun hzero => ?_⟩
      exact (marks_extendEach hb.wf (guards_of_intact hb)).1.replaceLoads_eq_zero hb.wf (hk hzero)
    · obtain ⟨hb, hk⟩ := hb
      refine ⟨(becomes_replaceLoads loadBeforeEnter b hb).1, fun g hg => ?_⟩
      have hg : g ∈ (replaceLoads loadBeforeEnter b).2.guards := hg
      rw [guards_replaceLoads] at hg
      obtain ⟨hstart, hstop⟩ := guard_linked hb hg
      exact ((copies_replaceLoads hb.wf).1.unreleased_eq hstart hstop).trans_le (hk g hg)
  refine endsAfter Hook.sober_idle ?_ Hook.sober_idle (lowers_bodies hlowers)
    ⟨trivial, fun b hb => ?_⟩
  · exact sober_pass Hook.sober_idle Hook.sober_idle Hook.sober_idle
      (fun _ => Hook.sober_counting.andThen Hook.sober_counting) Hook.sober_idle Hook.sober_idle
  · exact ⟨hp b hb, (hp b hb).1, fun hzero => absurd hzero hpos.ne'⟩

end Stage

end Unscramble
