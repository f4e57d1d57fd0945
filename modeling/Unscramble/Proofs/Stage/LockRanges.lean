import Unscramble.Proofs.Labels.Idioms
import Unscramble.Proofs.Stage.Locks

/-! # What extended ranges cover

An extended range covers two instructions more than before, the load and the release of the lock that
stood behind its end, and so two instructions fewer are left behind it. Every other range covers what
it did. The instructions behind a range run out, so extending ranges comes to an end.

Main definitions: `covered`, `Spans`, `Widened`, `extensions`. Main statements: `follow_start`,
`widened_extendEach`, `extendGuards_extensions`, `extendGuards_widens`. -/

namespace Unscramble.Idiom

/-! ### Ranges -/

/-- The real instructions that a range covers, in order. -/
def covered (l : Listing) (g : Guard Label) : List Handle :=
  ((l.after g.start).takeWhile (· != g.stop)).filter l.isReal

/-- The labels of a range are linked, and its start stands before its end. -/
structure Spans (l : Listing) (g : Guard Label) : Prop where
  /-- The labels are linked. -/
  labels : ∀ t ∈ g.labels, t ∈ l.labels
  /-- The start stands before the end. -/
  ordered : g.stop ∈ l.after g.start

/-- What becomes of a range while labels are put into its listing. -/
inductive Widened (l l' : Listing) (g g' : Guard Label) : Prop
  /-- It is left alone, and covers and is followed by the same instructions. -/
  | kept (same : g' = g) (covers : covered l' g' = covered l g)
    (follow : l'.follow g'.stop = l.follow g.stop)
  /-- It catches everything, opens right behind the taking of a lock, and gets another end, in front
  of which the load and the release of a lock stand that followed the old end. -/
  | extended {enter load exit : Handle} (same : g' = { g with stop := g'.stop })
    (catches : g.catches = none) (opens : l.prevReal? g.start = some enter)
    (enters : (l.get enter).hasOpcode .monitorenter = true)
    (loads : (l.get load).hasOpcode .aload = true)
    (exits : (l.get exit).hasOpcode .monitorexit = true)
    (covers : covered l' g' = covered l g ++ [load, exit])
    (follow : l.follow g.stop = load :: exit :: l'.follow g'.stop)

section

variable {l l' : Listing} {g g' : Guard Label}

namespace Spans

/-- A range that spans begins at a label of the listing. -/
theorem start_mem (h : Spans l g) : g.start ∈ l.labels :=
  h.labels _ (by simp [Guard.labels])

/-- A range that spans ends at a label of the listing. -/
theorem stop_mem (h : Spans l g) : g.stop ∈ l.labels :=
  h.labels _ (by simp [Guard.labels])

/-- What a label of a range needs for putting in labels. -/
theorem linked (h : Spans l g) :
    g.start ∈ l.handles ∧ g.stop ∈ l.handles ∧ l.isReal g.stop = false := by
  obtain ⟨hm, hlabel⟩ := Listing.mem_labels_iff.1 h.stop_mem
  exact ⟨(Listing.mem_labels_iff.1 h.start_mem).1, hm, Instruction.isReal_of_isLabel hlabel⟩

/-- The instructions behind the start of a range are those that it covers and those behind its end.
-/
theorem follow_start (h : Spans l g) (wf : l.WellFormed) :
    l.follow g.start = covered l g ++ l.follow g.stop := by
  obtain ⟨front, back, hs, hfront⟩ := List.eq_append_cons_of_mem h.ordered
  have hback : back = l.after g.stop :=
    Listing.eq_after_of_suffix wf ((List.suffix_append front _).trans (hs ▸ l.after_suffix _))
  have hcut : (l.after g.start).takeWhile (· != g.stop) = front := by
    have hpass : ∀ a ∈ front, (a != g.stop) = true := fun a ha =>
      bne_iff_ne.2 fun heq => hfront (heq ▸ ha)
    rw [hs, List.takeWhile_append_of_pos hpass]
    simp
  rw [Listing.follow, Listing.follow, covered, hcut, ← hback, hs, List.filter_append,
    List.filter_cons_of_neg (ne_true_of_eq_false h.linked.2.2)]

end Spans

/-- A range gets another end at most. -/
theorem extendEach_stops (l : Listing) (guards : List (Guard Label)) :
    List.Forall₂ (fun g g' => g' = { g with stop := g'.stop }) guards (extendEach l guards).2.2 := by
  induction guards generalizing l with
  | nil => exact .nil
  | cons g guards ih =>
    rw [extendEach]
    split
    · exact .cons rfl (ih l)
    · exact .cons rfl (ih _)

/-- Ranges stay linked when labels are put in. -/
theorem Marks.guards_linked (h : Marks l l') (wf : l.WellFormed) {guards : List (Guard Label)}
    (hguards : ∀ g ∈ guards, g.start ∈ l.handles ∧ g.stop ∈ l.handles ∧ l.isReal g.stop = false) :
    ∀ g ∈ guards, g.start ∈ l'.handles ∧ g.stop ∈ l'.handles ∧ l'.isReal g.stop = false := by
  intro g hg
  obtain ⟨hstart, hstop, hmarker⟩ := hguards g hg
  exact ⟨h.linked _ hstart, h.linked _ hstop, by rw [h.isReal_eq (wf.lt_capacity _ hstop), hmarker]⟩

/-- As many ranges are extended as fail to cover the release of their lock. -/
theorem count_extendEach (wf : l.WellFormed) {guards : List (Guard Label)}
    (hguards : ∀ g ∈ guards, g.start ∈ l.handles ∧ g.stop ∈ l.handles ∧ l.isReal g.stop = false) :
    (extendEach l guards).1 = guards.countP fun g => (releasePoint? l g).isSome := by
  induction guards generalizing l with
  | nil => rfl
  | cons g guards ih =>
    obtain ⟨-, hrest⟩ := List.forall_mem_cons.1 hguards
    rw [extendEach, List.countP_cons]
    split
    · next hnone =>
      rw [hnone, ← ih wf hrest]
      rfl
    · next point hpoint =>
      have marks := Marks.insert wf point
      have hsame : ∀ g ∈ guards,
          releasePoint? ((l.create .label).2.insertBefore point (l.create .label).1) g =
            releasePoint? l g := fun g hg =>
        marks.releasePoint?_eq wf (hrest g hg).1 (hrest g hg).2.1 (hrest g hg).2.2
      have hcount := ih marks.wf (marks.guards_linked wf hrest)
      rw [List.countP_congr fun g hg => by rw [hsame g hg]] at hcount
      rw [hpoint]
      exact congrArg (· + 1) hcount

/-- A range is widened over the load and the release of its lock, or left alone. -/
theorem widened_of_extends (wf : l.WellFormed) (marks : Marks l l') (h : Spans l g)
    (h' : Spans l' g') (hsame : g' = { g with stop := g'.stop }) (hextends : Extends l l' g g') :
    Widened l l' g g' := by
  have hstart : g'.start = g.start := by rw [hsame]
  obtain ⟨hlinked, hstop, hmarker⟩ := h.linked
  -- what stands behind the start is what is covered, followed by what stands behind the end
  have hcovered : covered l' g' ++ l'.follow g'.stop = covered l g ++ l.follow g.stop := by
    rw [← h'.follow_start marks.wf, ← h.follow_start wf, hstart, marks.follow _ hlinked]
  rcases hextends with ⟨-, rfl⟩ | ⟨point, hpoint, hfollow⟩
  · have hfollow := marks.follow _ hstop
    rw [hfollow, List.append_left_inj] at hcovered
    exact .kept rfl hcovered hfollow
  · obtain ⟨hopens, load, exit, rest, hbehind, hload, hexit⟩ :=
      (releasePoint?_eq_some_iff wf hmarker).1 hpoint
    have hrest : l.follow point = rest :=
      Listing.follow_of_cons wf (Listing.follow_of_cons wf (Listing.follow_of_cons wf hbehind))
    rw [opensLocked, Bool.and_eq_true, Option.any_eq_true, Option.isNone_iff_eq_none] at hopens
    obtain ⟨hcatches, enter, henter, henters⟩ := hopens
    have hbehind : l.follow g.stop = load :: exit :: l'.follow g'.stop := by
      rw [hfollow, hrest, hbehind]
    refine .extended hsame hcatches henter henters hload hexit ?_ hbehind
    rw [hbehind] at hcovered
    refine List.append_cancel_right (hcovered.trans ?_)
    rw [List.append_assoc]
    rfl

/-- An extended range is another one: fewer instructions stand behind its end. -/
theorem ne_of_extends (wf : l.WellFormed) (marks : Marks l l') (h : Spans l g)
    (hextends : Extends l l' g g') : (g != g') = (releasePoint? l g).isSome := by
  rcases hextends with ⟨hnone, rfl⟩ | ⟨point, hpoint, hfollow⟩
  · rw [hnone]
    simp
  · rw [hpoint, Option.isSome_some, bne_iff_ne]
    rintro rfl
    obtain ⟨-, hstop, hmarker⟩ := h.linked
    obtain ⟨-, load, exit, rest, hbehind, -⟩ := (releasePoint?_eq_some_iff wf hmarker).1 hpoint
    have hrest : l.follow point = rest :=
      Listing.follow_of_cons wf (Listing.follow_of_cons wf (Listing.follow_of_cons wf hbehind))
    rw [marks.follow _ hstop, hbehind, hrest] at hfollow
    have hlength := congrArg List.length hfollow
    simp only [List.length_cons] at hlength
    omega

/-- Counting elements is counting pairs that tell as much. -/
theorem countP_zip_of_forall₂ {α β : Type} {p : α → Bool} {q : α × β → Bool} {xs : List α}
    {ys : List β} (h : List.Forall₂ (fun x y => q (x, y) = p x) xs ys) :
    (xs.zip ys).countP q = xs.countP p := by
  induction h with
  | nil => rfl
  | cons hfirst _ ih => rw [List.zip_cons_cons, List.countP_cons, List.countP_cons, hfirst, ih]

/-- A pass widens ranges and leaves them in order. -/
theorem widened_extendEach (wf : l.WellFormed) {guards : List (Guard Label)}
    (hspans : ∀ g ∈ guards, Spans l g) :
    (∀ g' ∈ (extendEach l guards).2.2, Spans (extendEach l guards).2.1 g') ∧
      List.Forall₂ (Widened l (extendEach l guards).2.1) guards (extendEach l guards).2.2 := by
  obtain ⟨marks, hextends, -⟩ := marks_extendEach wf fun g hg => (hspans g hg).linked
  obtain ⟨-, hstems⟩ := extendEach_spec wf fun g hg => (hspans g hg).labels
  have hall : List.Forall₂ (fun g g' => Spans (extendEach l guards).2.1 g' ∧
      Widened l (extendEach l guards).2.1 g g') guards (extendEach l guards).2.2 := by
    have hboth := hextends.mp (S := fun g g' => Extends l (extendEach l guards).2.1 g g' ∧
      g' = { g with stop := g'.stop }) (fun _ _ h h' => ⟨h, h'⟩) (extendEach_stops l guards)
    refine forall₂_of_mem_left (hstems.mp (fun _ _ h h' => And.intro h h') hboth) ?_
    rintro g hg g' ⟨⟨hstem, hlabels⟩, hextends, hsame⟩
    have h' : Spans (extendEach l guards).2.1 g' := ⟨hlabels, hstem.ordered (hspans g hg).ordered⟩
    exact ⟨h', widened_of_extends wf marks (hspans g hg) h' hsame hextends⟩
  refine ⟨fun g' hg' => ?_, hall.imp fun _ _ h => h.2⟩
  obtain ⟨-, -, h', -⟩ := exists_of_mem_right hall hg'
  exact h'

end

/-! ### Passes -/

/-- A body after extending its ranges as often as a given number. -/
def extensions (n : Nat) (b : Body) : Body :=
  (fun b => (extendGuards b).2)^[n] b

/-- Not more locks are released than half of the instructions. -/
theorem releases_le (l : Listing) (hs : List Handle) : 2 * releases l hs ≤ hs.length := by
  induction hs using List.twoStepInduction with
  | nil => exact Nat.zero_le _
  | singleton a => exact Nat.zero_le _
  | cons_cons a b hs ih =>
    by_cases hne : hs = []
    · subst hne
      exact Nat.zero_le _
    · rw [releases_cons_cons l a b hne]
      split
      · simp only [List.length_cons]
        omega
      · omega

/-- Behind every range there are as many releases of its lock at most as a listing has instructions.
-/
theorem unreleased_le (l : Listing) (g : Guard Label) : unreleased l g ≤ l.reals.length := by
  have hfollow := (l.follow_suffix g.stop).length_le
  have hreleases := releases_le l (l.follow g.stop)
  rw [unreleased]
  split <;> omega

/-- A pass over ranges that fail to cover a number of releases reports nothing after as many passes.
-/
theorem extendGuards_extensions {k : Nat} {b : Body} (wf : b.listing.WellFormed)
    (hspans : ∀ g ∈ b.guards, Spans b.listing g)
    (hk : ∀ g ∈ b.guards, unreleased b.listing g ≤ k) :
    (extendGuards (extensions k b)).1 = 0 := by
  induction k generalizing b with
  | zero => exact (unreleased_extendEach wf (fun g hg => (hspans g hg).linked) hk).2 rfl
  | succ k ih =>
    have hlinked := fun g hg => (hspans g hg).linked
    obtain ⟨marks, -⟩ := marks_extendEach wf hlinked
    exact ih marks.wf (widened_extendEach wf hspans).1 (unreleased_extendEach wf hlinked hk).1

/-- **Extending ranges is precise and comes to an end.** A pass leaves the real instructions as they
are, widens ranges of locks over the load and the release behind them, and leaves all other ranges
alone. It counts the ranges that it changes, and after some passes it changes none. -/
theorem extendGuards_widens (b : Body) (wf : b.listing.WellFormed)
    (hspans : ∀ g ∈ b.guards, Spans b.listing g) :
    (extendGuards b).2.listing.reals = b.listing.reals ∧
      (∀ h ∈ b.listing.reals, (extendGuards b).2.listing.get h = b.listing.get h) ∧
      List.Forall₂ (Widened b.listing (extendGuards b).2.listing) b.guards
        (extendGuards b).2.guards ∧
      (∀ g ∈ (extendGuards b).2.guards, Spans (extendGuards b).2.listing g) ∧
      (extendGuards b).1 =
        (b.guards.zip (extendGuards b).2.guards).countP (fun x => x.1 != x.2) ∧
      ∃ n ≤ b.listing.reals.length, (extendGuards (extensions n b)).1 = 0 := by
  have hlinked := fun g hg => (hspans g hg).linked
  obtain ⟨marks, hextends, -⟩ := marks_extendEach wf hlinked
  obtain ⟨hspans', hwidened⟩ := widened_extendEach wf hspans
  have hcount : (extendGuards b).1 =
      (b.guards.zip (extendGuards b).2.guards).countP (fun x => x.1 != x.2) := by
    refine (count_extendEach wf hlinked).trans (countP_zip_of_forall₂ ?_).symm
    exact forall₂_of_mem_left hextends fun g hg g' hextends =>
      ne_of_extends wf marks (hspans g hg) hextends
  exact ⟨marks.reals, fun h hh => marks.get h (wf.lt_capacity h (List.mem_of_mem_filter hh)),
    hwidened, hspans', hcount, b.listing.reals.length, Nat.le_refl _,
    extendGuards_extensions wf hspans fun g _ => unreleased_le _ g⟩

/-- A lock that is taken once and released twice behind the range that guards it. -/
def releasedTwice : Body where
  listing :=
    { nodes := #[⟨.slot .aload 0, none⟩, ⟨.plain .monitorenter, none⟩, ⟨.label, none⟩,
        ⟨.plain .nop, none⟩, ⟨.label, none⟩, ⟨.slot .aload 0, none⟩, ⟨.plain .monitorexit, none⟩,
        ⟨.line 7, none⟩, ⟨.slot .aload 0, none⟩, ⟨.plain .monitorexit, none⟩,
        ⟨.plain .returnVoid, none⟩, ⟨.label, none⟩, ⟨.plain .athrow, none⟩]
      order := #[0, 1, 2, 3, 4, 5, 6, 7, 8, 9, 10, 11, 12] }
  guards := [⟨2, 4, 11, none⟩]
  maxStack := 1
  maxLocals := 1

/-- Its range is extended over one release in each of two passes. -/
theorem extendGuards_widens_releasedTwice :
    (∀ g ∈ releasedTwice.guards, Spans releasedTwice.listing g) ∧
      (extendGuards releasedTwice).1 = 1 ∧ (extendGuards (extensions 1 releasedTwice)).1 = 1 ∧
      ∃ n ≤ 9, (extendGuards (extensions n releasedTwice)).1 = 0 := by
  have hspans : ∀ g ∈ releasedTwice.guards, Spans releasedTwice.listing g := by
    intro g hg
    obtain rfl : g = ⟨2, 4, 11, none⟩ := List.mem_singleton.1 hg
    exact ⟨by decide, by decide⟩
  have hwf : releasedTwice.listing.WellFormed := ⟨by decide, by decide⟩
  obtain ⟨-, -, -, -, -, hends⟩ := extendGuards_widens releasedTwice hwf hspans
  exact ⟨hspans, by decide, by decide, hends⟩

end Unscramble.Idiom
