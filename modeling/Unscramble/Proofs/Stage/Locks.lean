import Unscramble.Proofs.Stage.Idioms

/-! # Ranges of locks

Extending the range of a lock puts a label behind the release of the lock that the range failed to
cover. The label is not real, so no other range ends elsewhere for it, and the range that was extended
is followed by what followed the release: it fails to cover one release less.

Main definitions: `Listing.follow`, `releases`, `unreleased`, `Marks`, `Extends`. Main statements:
`releasePoint?_eq_some_iff`, `Marks.insert`, `marks_extendEach`, `unreleased_extendEach`. -/

namespace Unscramble

open Pattern

namespace Listing

variable {l : Listing} {a h : Handle}

/-- The real instructions behind a handle. -/
def follow (l : Listing) (h : Handle) : List Handle :=
  (l.after h).filter l.isReal

/-- What follows a handle is among the real instructions. -/
theorem follow_suffix (l : Listing) (h : Handle) : l.follow h <:+ l.reals :=
  (l.after_suffix h).filter _

/-- What follows the first real instruction behind a handle. -/
theorem follow_of_cons (wf : l.WellFormed) {rest : List Handle} (h : l.follow h = a :: rest) :
    l.follow a = rest := by
  obtain ⟨front, back, hs, -, -, hrest⟩ := List.filter_eq_cons_iff.1 h
  have hsuffix : a :: back <:+ l.handles :=
    (List.suffix_append front (a :: back)).trans (hs ▸ l.after_suffix _)
  rw [follow, ← eq_after_of_suffix wf hsuffix]
  exact hrest

/-- What follows a handle, and what precedes it, in a sequence with the handle in its middle. -/
theorem follow_of_split (wf : l.WellFormed) {front back : List Handle}
    (hs : l.handles = front ++ h :: back) :
    l.follow h = back.filter l.isReal ∧ l.prevReal? h = (front.filter l.isReal).getLast? := by
  obtain ⟨hfront, hback⟩ := not_mem_of_nodup_middle (hs ▸ wf.nodup)
  constructor
  · rw [follow, after_eq_tail, onward_of_split hs hfront, List.tail_cons]
  · have hreverse : l.handles.reverse = back.reverse ++ h :: front.reverse := by
      rw [hs]
      simp
    have hbefore : l.before h = front.reverse := by
      rw [before, hreverse, dropWhile_bne_append (by simpa using hback)]
      rfl
    rw [prevReal?, hbefore, ← List.head?_filter, List.filter_reverse, List.head?_reverse]

/-- What precedes a handle that stays loses the handles that go. -/
theorem before_restrict {keep : Handle → Bool} (hk : keep h = true) :
    (l.restrict keep).before h = (l.before h).filter keep := by
  have hdrop : ∀ xs : List Handle,
      ((xs.filter keep).dropWhile (· != h)).drop 1 = ((xs.dropWhile (· != h)).drop 1).filter keep := by
    intro xs
    rw [dropWhile_bne_filter hk]
    cases hcut : xs.dropWhile (· != h) with
    | nil => rfl
    | cons x rest =>
      have hx : x = h := by
        have := List.head?_dropWhile_not (fun b => b != h) xs
        rw [hcut] at this
        simpa using this
      rw [hx, List.filter_cons_of_pos hk]
      rfl
  unfold before
  rw [handles_restrict, ← List.filter_reverse]
  exact hdrop _

end Listing

namespace Idiom

/-! ### Releases behind a range -/

/-- How often a lock is loaded and released at the beginning of some instructions, in front of
another one. -/
def releases (l : Listing) : List Handle → Nat
  | load :: exit :: point :: rest =>
    if (l.get load).hasOpcode .aload && (l.get exit).hasOpcode .monitorexit then
      releases l (point :: rest) + 1
    else 0
  | _ => 0

/-- Whether a range catches everything and opens right after a lock is taken. -/
def opensLocked (l : Listing) (g : Guard Label) : Bool :=
  g.catches.isNone && (l.prevReal? g.start).any fun h => (l.get h).hasOpcode .monitorenter

/-- An instruction is expected and has the opcode. -/
theorem expect?_eq_some_iff {l : Listing} {op : Opcode} {a c : Handle} :
    expect? l op a = some c ↔ a = c ∧ (l.get a).hasOpcode op = true := by
  unfold expect?
  split
  · next h => exact ⟨fun heq => ⟨Option.some.inj heq, h⟩, fun heq => congrArg some heq.1⟩
  · next h => exact ⟨nofun, fun heq => absurd heq.2 h⟩

/-- The release of a lock that a range fails to cover stands at the beginning of what follows the
range. -/
theorem releasePoint?_eq_some_iff {l : Listing} (wf : l.WellFormed) {g : Guard Label}
    (hstop : l.isReal g.stop = false) {point : Handle} :
    releasePoint? l g = some point ↔ opensLocked l g = true ∧
      ∃ load exit rest, l.follow g.stop = load :: exit :: point :: rest ∧
        (l.get load).hasOpcode .aload = true ∧ (l.get exit).hasOpcode .monitorexit = true := by
  have hnext : l.nextReal? g.stop = (l.follow g.stop).head? := by
    rw [Listing.nextReal?, List.find?_cons_of_neg (ne_true_of_eq_false hstop), Listing.follow,
      List.head?_filter]
  have hafter : ∀ a, realAfter? l a = (l.follow a).head? := fun a => (List.head?_filter ..).symm
  unfold releasePoint? opensLocked
  rw [Bool.and_eq_true, Option.any_eq_true]
  -- Only ranges that catch everything are looked at.
  cases hcatches : g.catches with
  | some type =>
    constructor
    · intro h
      cases h
    · intro h
      cases h.1.1
  | none =>
    simp only [Option.isSome_none, Bool.false_eq_true, if_false, Option.bind_eq_bind,
      Option.bind_eq_some_iff, expect?_eq_some_iff, hnext, hafter]
    constructor
    · rintro ⟨opened, hopened, _, ⟨-, henter⟩, load, hload, _, ⟨rfl, haload⟩, exit, hexit, _,
        ⟨rfl, hmonitorexit⟩, hpoint⟩
      obtain ⟨rest, hfollow⟩ := List.head?_eq_some_iff.1 hload
      rw [Listing.follow_of_cons wf hfollow] at hexit
      obtain ⟨rest, rfl⟩ := List.head?_eq_some_iff.1 hexit
      rw [Listing.follow_of_cons wf (Listing.follow_of_cons wf hfollow)] at hpoint
      obtain ⟨rest, rfl⟩ := List.head?_eq_some_iff.1 hpoint
      exact ⟨⟨rfl, opened, hopened, henter⟩, load, exit, rest, hfollow, haload, hmonitorexit⟩
    · rintro ⟨⟨-, opened, hopened, henter⟩, load, exit, rest, hfollow, haload, hmonitorexit⟩
      have hload := Listing.follow_of_cons wf hfollow
      refine ⟨opened, hopened, opened, ⟨rfl, henter⟩, load, by rw [hfollow]; rfl, load,
        ⟨rfl, haload⟩, exit, by rw [hload]; rfl, exit, ⟨rfl, hmonitorexit⟩, ?_⟩
      rw [Listing.follow_of_cons wf hload]
      rfl

/-! ### Releases that a range fails to cover -/

/-- The number of releases of its lock that a range fails to cover. -/
def unreleased (l : Listing) (g : Guard Label) : Nat :=
  if opensLocked l g then releases l (l.follow g.stop) else 0

section

variable {l l' : Listing} {g : Guard Label}

/-- There is a release to cover if a range can be extended. -/
theorem unreleased_of_releasePoint? (wf : l.WellFormed) (hstop : l.isReal g.stop = false)
    {point : Handle} (h : releasePoint? l g = some point) :
    unreleased l g = releases l (point :: l.follow point) + 1 := by
  obtain ⟨hopens, load, exit, rest, hfollow, hload, hexit⟩ :=
    (releasePoint?_eq_some_iff wf hstop).1 h
  have hpoint : l.follow point = rest :=
    Listing.follow_of_cons wf (Listing.follow_of_cons wf (Listing.follow_of_cons wf hfollow))
  rw [unreleased, if_pos hopens, hfollow, releases, hload, hexit, hpoint]
  rfl

/-- There is none if it cannot. -/
theorem unreleased_eq_zero (wf : l.WellFormed) (hstop : l.isReal g.stop = false)
    (h : releasePoint? l g = none) : unreleased l g = 0 := by
  rw [unreleased]
  split
  · next hopens =>
    rw [releases.eq_def]
    split
    · next load exit point rest hfollow =>
      by_cases hrelease : ((l.get load).hasOpcode .aload &&
          (l.get exit).hasOpcode .monitorexit) = true
      · obtain ⟨hload, hexit⟩ := Bool.and_eq_true_iff.1 hrelease
        have hpoint := (releasePoint?_eq_some_iff wf hstop).2
          ⟨hopens, load, exit, rest, hfollow, hload, hexit⟩
        rw [h] at hpoint
        cases hpoint
      · rw [if_neg hrelease]
    · rfl
  · rfl

/-- A load in front of a release is a release, if nothing else follows or releases do. -/
theorem releases_cons_cons (l : Listing) (a b : Handle) {hs : List Handle} (hne : hs ≠ []) :
    releases l (a :: b :: hs) =
      if (l.get a).hasOpcode .aload && (l.get b).hasOpcode .monitorexit then releases l hs + 1
      else 0 := by
  cases hs with
  | nil => exact absurd rfl hne
  | cons c rest => rw [releases]

/-- Releases are counted by their instructions only. -/
theorem releases_congr {hs : List Handle} (h : ∀ a ∈ hs, l'.get a = l.get a) :
    releases l' hs = releases l hs := by
  induction hs using List.twoStepInduction with
  | nil => rfl
  | singleton a => rfl
  | cons_cons a b hs ih =>
    by_cases hne : hs = []
    · rw [hne]
      rfl
    · rw [releases_cons_cons l' a b hne, releases_cons_cons l a b hne, h a (by simp), h b (by simp),
        ih fun c hc => h c (List.mem_cons_of_mem _ (List.mem_cons_of_mem _ hc))]

/-- Nothing is released at the beginning unless a lock is loaded first. -/
theorem releases_of_first {y : Handle} {ys : List Handle} (hy : (l.get y).hasOpcode .aload = false) :
    releases l (y :: ys) = 0 := by
  rw [releases.eq_def]
  split
  · next heq =>
    cases heq
    rw [hy]
    rfl
  · rfl

/-- And released next. -/
theorem releases_of_second {x y : Handle} {ys : List Handle}
    (hy : (l.get y).hasOpcode .monitorexit = false) : releases l (x :: y :: ys) = 0 := by
  rw [releases.eq_def]
  split
  · next heq =>
    cases heq
    rw [hy, Bool.and_false]
    rfl
  · rfl

/-- What neither loads nor releases a lock ends the releases at the beginning. -/
theorem releases_append {xs ys ys' : List Handle} {y y' : Handle} (h : ∀ a ∈ xs, l'.get a = l.get a)
    (hy : (l.get y).hasOpcode .aload = false ∧ (l.get y).hasOpcode .monitorexit = false)
    (hy' : (l'.get y').hasOpcode .aload = false ∧ (l'.get y').hasOpcode .monitorexit = false) :
    releases l' (xs ++ y' :: ys') = releases l (xs ++ y :: ys) := by
  induction xs using List.twoStepInduction with
  | nil => rw [List.nil_append, List.nil_append, releases_of_first hy.1, releases_of_first hy'.1]
  | singleton x =>
    rw [List.singleton_append, List.singleton_append, releases_of_second hy.2,
      releases_of_second hy'.2]
  | cons_cons a b xs ih =>
    rw [List.cons_append, List.cons_append, List.cons_append, List.cons_append,
      releases_cons_cons _ a b (by simp), releases_cons_cons _ a b (by simp),
      ih fun c hc => h c (List.mem_cons_of_mem _ (List.mem_cons_of_mem _ hc)), h a (by simp),
      h b (by simp)]

end

/-! ### Labels that are put in -/

/-- Labels are put into a listing. -/
structure Marks (l l' : Listing) : Prop where
  /-- Handles are linked once. -/
  wf : l'.WellFormed
  /-- Nodes stay. -/
  capacity : l.capacity ≤ l'.capacity
  /-- Instructions stay. -/
  get : ∀ h < l.capacity, l'.get h = l.get h
  /-- The real instructions are the same ones. -/
  reals : l'.reals = l.reals
  /-- Linked handles stay linked. -/
  linked : ∀ h ∈ l.handles, h ∈ l'.handles
  /-- The same real instructions follow a handle. -/
  follow : ∀ h ∈ l.handles, l'.follow h = l.follow h
  /-- And the same one precedes it. -/
  prevReal? : ∀ h ∈ l.handles, l'.prevReal? h = l.prevReal? h

namespace Marks

variable {l l' l'' : Listing}

/-- Without labels that are put in a listing is the same. -/
theorem refl (wf : l.WellFormed) : Marks l l :=
  ⟨wf, Nat.le_refl _, fun _ _ => rfl, rfl, fun _ h => h, fun _ _ => rfl, fun _ _ => rfl⟩

/-- Labels put in twice are put in. -/
theorem trans (h : Marks l l') (h' : Marks l' l'') : Marks l l'' where
  wf := h'.wf
  capacity := h.capacity.trans h'.capacity
  get a ha := (h'.get a (ha.trans_le h.capacity)).trans (h.get a ha)
  reals := h'.reals.trans h.reals
  linked a ha := h'.linked a (h.linked a ha)
  follow a ha := (h'.follow a (h.linked a ha)).trans (h.follow a ha)
  prevReal? a ha := (h'.prevReal? a (h.linked a ha)).trans (h.prevReal? a ha)

/-- A label that is put in. -/
theorem insert (wf : l.WellFormed) (point : Handle) :
    Marks l ((l.create .label).2.insertBefore point (l.create .label).1) := by
  let l' := (l.create .label).2.insertBefore point (l.create .label).1
  have hedits : l.Edits l' := Listing.edits_insert wf point rfl
  have hget : ∀ h < l.capacity, l'.get h = l.get h :=
    fun h hlt => (Flow.keeps_create l .label).same h hlt
  have hnew : l'.isReal l.capacity = false := by
    unfold Listing.isReal
    rw [show l'.get l.capacity = .label from Flow.get_create l .label]
    rfl
  have hne : ∀ h ∈ l.handles, (fun h => h != l.capacity) h = true :=
    fun h hm => bne_iff_ne.2 (wf.lt_capacity h hm).ne
  -- Without the label the sequence is the old one.
  have hold : (l'.restrict (· != l.capacity)).handles = l.handles := by
    obtain ⟨front, back, hs, hs', -⟩ := (l.create .label).2.handles_insertBefore point l.capacity
    have hs : l.handles = front ++ back := hs
    have hs' : l'.handles = front ++ l.capacity :: back := hs'
    rw [Listing.handles_restrict, hs', List.filter_append,
      List.filter_cons_of_neg (by simp), ← List.filter_append, ← hs]
    exact List.filter_eq_self.2 hne
  have hafter : ∀ h ∈ l.handles, l.after h = (l'.after h).filter (· != l.capacity) := by
    intro h hm
    refine Eq.trans ?_ (Listing.after_restrict (l := l') (h := h) (hne h hm))
    unfold Listing.after
    rw [hold]
  have hbefore : ∀ h ∈ l.handles, l.before h = (l'.before h).filter (· != l.capacity) := by
    intro h hm
    refine Eq.trans ?_ (Listing.before_restrict (l := l') (h := h) (hne h hm))
    unfold Listing.before
    rw [hold]
  -- The label is not real, so real instructions are looked for among the others.
  have hreal : ∀ hs : List Handle, hs.filter l'.isReal =
      (hs.filter (· != l.capacity)).filter l'.isReal := by
    intro hs
    rw [List.filter_filter]
    refine List.filter_congr fun h _ => ?_
    by_cases hh : h = l.capacity
    · rw [hh, hnew]
      rfl
    · rw [bne_iff_ne.2 hh, Bool.and_true]
  have hsame : ∀ hs : List Handle, (∀ h ∈ hs, h ∈ l.handles) →
      hs.filter l'.isReal = hs.filter l.isReal := by
    intro hs hlinked
    refine List.filter_congr fun h hh => ?_
    unfold Listing.isReal
    rw [hget h (wf.lt_capacity h (hlinked h hh))]
  refine ⟨hedits.wf, hedits.capacity, hget, ?_, ?_, ?_, ?_⟩
  · show l'.handles.filter l'.isReal = l.handles.filter l.isReal
    rw [hreal, ← Listing.handles_restrict, hold]
    exact hsame _ fun h hm => hm
  · intro h hm
    rw [← hold, Listing.handles_restrict] at hm
    exact List.mem_of_mem_filter hm
  · intro h hm
    show (l'.after h).filter l'.isReal = (l.after h).filter l.isReal
    rw [hreal, ← hafter h hm]
    exact hsame _ fun a ha => (l.after_suffix h).subset ha
  · intro h hm
    have hlinked : ∀ a ∈ l.before h, a ∈ l.handles := fun a ha =>
      List.mem_reverse.1 ((List.dropWhile_suffix _).subset (List.mem_of_mem_drop ha))
    show (l'.before h).find? l'.isReal = (l.before h).find? l.isReal
    rw [← List.head?_filter, ← List.head?_filter, hreal, ← hbefore h hm, hsame _ hlinked]

/-- It is followed by what it was put in front of. -/
theorem follow_insert (wf : l.WellFormed) {point : Handle} (hpoint : point ∈ l.reals) :
    ((l.create .label).2.insertBefore point (l.create .label).1).follow (l.create .label).1 =
      point :: l.follow point := by
  have marks := insert wf point
  obtain ⟨hm, hreal⟩ := List.mem_filter.1 hpoint
  obtain ⟨front, back, -, hs', -, hback⟩ :=
    (l.create .label).2.handles_insertBefore point (l.create .label).1
  have hback : back = point :: l.after point :=
    (hback hm).trans (Listing.onward_eq_cons (l := (l.create .label).2) hm)
  have hafter := Listing.eq_after_of_suffix marks.wf ⟨front, hs'.symm⟩
  have hsame : ∀ h ∈ l.handles, ((l.create .label).2.insertBefore point
      (l.create .label).1).isReal h = l.isReal h := by
    intro h hh
    unfold Listing.isReal
    rw [marks.get h (wf.lt_capacity h hh)]
  rw [Listing.follow, ← hafter, hback, List.filter_cons_of_pos (by rw [hsame point hm]; exact hreal)]
  exact congrArg (point :: ·)
    (List.filter_congr fun h hh => hsame h ((l.after_suffix point).subset hh))

/-- The instructions that were there are as real as before. -/
theorem isReal_eq (h : Marks l l') {a : Handle} (ha : a < l.capacity) :
    l'.isReal a = l.isReal a := by
  unfold Listing.isReal
  rw [h.get a ha]

/-- Labels do not matter for whether a range opens right after a lock is taken. -/
theorem opensLocked_eq (h : Marks l l') (wf : l.WellFormed) {g : Guard Label}
    (hstart : g.start ∈ l.handles) : opensLocked l' g = opensLocked l g := by
  unfold opensLocked
  rw [h.prevReal? _ hstart]
  cases hprev : l.prevReal? g.start with
  | none => rfl
  | some a =>
    have hm : a ∈ l.handles := List.mem_reverse.1
      ((List.dropWhile_suffix _).subset (List.mem_of_mem_drop (List.mem_of_find?_eq_some hprev)))
    rw [Option.any_some, Option.any_some, h.get a (wf.lt_capacity a hm)]

/-- Nor for the releases that it fails to cover. -/
theorem unreleased_eq (h : Marks l l') (wf : l.WellFormed) {g : Guard Label}
    (hstart : g.start ∈ l.handles) (hstop : g.stop ∈ l.handles) :
    unreleased l' g = unreleased l g := by
  have hfollow : ∀ a ∈ l.follow g.stop, l'.get a = l.get a := fun a ha =>
    h.get a (wf.lt_capacity a (List.mem_of_mem_filter ((l.follow_suffix _).subset ha)))
  rw [unreleased, unreleased, h.opensLocked_eq wf hstart, h.follow _ hstop, releases_congr hfollow]

/-- Nor for where a lock is released. -/
theorem releasePoint?_eq (h : Marks l l') (wf : l.WellFormed) {g : Guard Label}
    (hstart : g.start ∈ l.handles) (hstop : g.stop ∈ l.handles)
    (hmarker : l.isReal g.stop = false) : releasePoint? l' g = releasePoint? l g := by
  have hmarker' : l'.isReal g.stop = false := by
    rw [h.isReal_eq (wf.lt_capacity _ hstop), hmarker]
  have hopens := h.opensLocked_eq wf hstart
  have hlinked : ∀ a ∈ l.follow g.stop, l'.get a = l.get a := fun a ha =>
    h.get a (wf.lt_capacity a (List.mem_of_mem_filter ((l.follow_suffix _).subset ha)))
  refine Option.ext fun point => ?_
  rw [releasePoint?_eq_some_iff h.wf hmarker', releasePoint?_eq_some_iff wf hmarker, hopens,
    h.follow _ hstop]
  refine and_congr_right fun _ => exists_congr fun load => exists_congr fun exit =>
    exists_congr fun rest => and_congr_right fun hfollow => ?_
  rw [hfollow] at hlinked
  rw [hlinked load (by simp), hlinked exit (by simp)]

end Marks

/-- A range is left alone, or its end moves behind the release of its lock. -/
def Extends (l l' : Listing) (g g' : Guard Label) : Prop :=
  releasePoint? l g = none ∧ g' = g ∨
    ∃ point, releasePoint? l g = some point ∧ l'.follow g'.stop = point :: l.follow point

/-- Extending ranges puts in labels, and extends each range as the labels stood at first. -/
theorem marks_extendEach {l : Listing} (wf : l.WellFormed) {guards : List (Guard Label)}
    (hguards : ∀ g ∈ guards, g.start ∈ l.handles ∧ g.stop ∈ l.handles ∧ l.isReal g.stop = false) :
    Marks l (extendEach l guards).2.1 ∧
      List.Forall₂ (Extends l (extendEach l guards).2.1) guards (extendEach l guards).2.2 ∧
      ((∀ g ∈ guards, releasePoint? l g = none) → (extendEach l guards).1 = 0) := by
  -- On the ranges, for every listing: a label that was put in for one range does not bear on where
  -- the others end.
  induction guards generalizing l with
  | nil => exact ⟨.refl wf, .nil, fun _ => rfl⟩
  | cons g guards ih =>
    obtain ⟨hg, hrest⟩ := List.forall_mem_cons.1 hguards
    rw [extendEach]
    split
    · next hnone =>
      obtain ⟨marks, hextends, hcount⟩ := ih wf hrest
      exact ⟨marks, .cons (.inl ⟨hnone, rfl⟩) hextends,
        fun hall => hcount fun g hg => hall g (List.mem_cons_of_mem _ hg)⟩
    · next point hpoint =>
      obtain ⟨hopens, load, exit, rest, hfollow, -⟩ :=
        (releasePoint?_eq_some_iff wf hg.2.2).1 hpoint
      have hreal : point ∈ l.reals := (l.follow_suffix g.stop).subset (by rw [hfollow]; simp)
      have first := Marks.insert wf point
      have hrest' : ∀ g ∈ guards,
          g.start ∈ ((l.create .label).2.insertBefore point (l.create .label).1).handles ∧
          g.stop ∈ ((l.create .label).2.insertBefore point (l.create .label).1).handles ∧
          ((l.create .label).2.insertBefore point (l.create .label).1).isReal g.stop = false := by
        intro g hg
        obtain ⟨hstart, hstop, hmarker⟩ := hrest g hg
        refine ⟨first.linked _ hstart, first.linked _ hstop, ?_⟩
        rw [first.isReal_eq (wf.lt_capacity _ hstop), hmarker]
      -- The remaining ranges are extended in the listing with the new label, and end at the same
      -- points as in the first one.
      obtain ⟨marks, hextends, -⟩ := ih first.wf hrest'
      refine ⟨first.trans marks, .cons (.inr ⟨point, hpoint, ?_⟩)
        (forall₂_of_mem_left hextends ?_), fun hall => ?_⟩
      · have hlabel := (Listing.mem_labels_iff.1 (Listing.mem_labels_insert l point)).1
        exact (marks.follow _ hlabel).trans (Marks.follow_insert wf hreal)
      · intro g hg g' hextends
        obtain ⟨hstart, hstop, hmarker⟩ := hrest g hg
        rw [Extends, first.releasePoint?_eq wf hstart hstop hmarker] at hextends
        refine hextends.imp_right ?_
        rintro ⟨point', hpoint', hfollow'⟩
        refine ⟨point', hpoint', ?_⟩
        obtain ⟨-, load, exit, rest, hfollow, -⟩ :=
          (releasePoint?_eq_some_iff wf hmarker).1 hpoint'
        have hm : point' ∈ l.handles := List.mem_of_mem_filter
          ((l.follow_suffix g.stop).subset (by rw [hfollow]; simp))
        rw [hfollow', first.follow _ hm]
      · rw [hall g List.mem_cons_self] at hpoint
        cases hpoint

/-- A pass takes the releases that ranges fail to cover one down. -/
theorem unreleased_extendEach {l : Listing} (wf : l.WellFormed) {guards : List (Guard Label)}
    (hguards : ∀ g ∈ guards, g.start ∈ l.handles ∧ g.stop ∈ l.handles ∧ l.isReal g.stop = false)
    {k : Nat} (hk : ∀ g ∈ guards, unreleased l g ≤ k) :
    (∀ g' ∈ (extendEach l guards).2.2, unreleased (extendEach l guards).2.1 g' ≤ k - 1) ∧
      (k = 0 → (extendEach l guards).1 = 0) := by
  obtain ⟨marks, hextends, hcount⟩ := marks_extendEach wf hguards
  refine ⟨fun g' hg' => ?_, fun hzero => hcount fun g hg => ?_⟩
  · obtain ⟨g, hg, hextends⟩ := exists_of_mem_right hextends hg'
    obtain ⟨hstart, hstop, hmarker⟩ := hguards g hg
    rcases hextends with ⟨hnone, rfl⟩ | ⟨point, hpoint, hfollow⟩
    · rw [marks.unreleased_eq wf hstart hstop, unreleased_eq_zero wf hmarker hnone]
      exact Nat.zero_le _
    -- The range ends behind its release now, so what is left to release is one less.
    · have hsome := unreleased_of_releasePoint? wf hmarker hpoint
      obtain ⟨-, load, exit, rest, hbehind, -⟩ := (releasePoint?_eq_some_iff wf hmarker).1 hpoint
      have hm : point ∈ l.reals := (l.follow_suffix g.stop).subset (by rw [hbehind]; simp)
      have hget : ∀ a ∈ point :: l.follow point, (extendEach l guards).2.1.get a = l.get a := by
        intro a ha
        have ha : a ∈ l.reals := (List.mem_cons.1 ha).elim (· ▸ hm)
          fun ha => (l.follow_suffix point).subset ha
        exact marks.get a (wf.lt_capacity a (List.mem_of_mem_filter ha))
      have hle := hk g hg
      calc unreleased (extendEach l guards).2.1 g'
          ≤ releases (extendEach l guards).2.1 ((extendEach l guards).2.1.follow g'.stop) := by
            rw [unreleased]
            split <;> omega
        _ = releases l (point :: l.follow point) := by rw [hfollow, releases_congr hget]
        _ ≤ k - 1 := by omega
  · cases hpoint : releasePoint? l g with
    | none => rfl
    | some point =>
      have hsome := unreleased_of_releasePoint? wf (hguards g hg).2.2 hpoint
      have hle := hk g hg
      omega

end Idiom

end Unscramble
