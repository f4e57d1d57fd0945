import Unscramble.Idiom.DynamicCall
import Unscramble.Idiom.Monitor
import Unscramble.Idiom.OpaquePredicate
import Unscramble.Idiom.Shift
import Unscramble.Idiom.Tracing
import Unscramble.Proofs.Labels.Edits
import Unscramble.Proofs.Lists

/-! # Bodies that keep their labels and ranges

What becomes of a body has all labels linked that it refers to, and its ranges are some of those that
were there. A range keeps where it begins and where it leads; it may end later, but not before it
begins. The idioms of obfuscators are undone in this way.

Main definitions: `Body.Intact`, `Body.Descends`, `Body.Becomes`. Main statements: `Becomes.trans`,
`becomes_of_edits`, and one statement per idiom. -/

namespace Unscramble

open scoped List

/-! ### What becomes of a body -/

/-- A body whose handles are linked once and whose labels are linked. -/
structure Body.Intact (b : Body) : Prop where
  /-- Handles are linked once. -/
  wf : b.listing.WellFormed
  /-- Targets and the labels of ranges are linked. -/
  labels : b.LabelsLinked

/-- A range stems from an earlier one: it begins and leads where that did, and it begins before it
ends if that did. -/
structure Guard.Stems (l l' : Listing) (g g' : Guard Label) : Prop where
  /-- It begins at the same label. -/
  start : g'.start = g.start
  /-- It leads to the same label. -/
  handler : g'.handler = g.handler
  /-- Its start stays before its end. -/
  ordered : g.stop ∈ l.after g.start → g'.stop ∈ l'.after g'.start

/-- The ranges of a body stem from some ranges of an earlier one, in order. -/
def Body.Descends (b b' : Body) : Prop :=
  ∃ guards, guards <+ b.guards ∧ List.Forall₂ (Guard.Stems b.listing b'.listing) guards b'.guards

/-- What becomes of a body that is intact is intact and keeps its ranges. -/
def Body.Becomes (b b' : Body) : Prop :=
  b.Intact → b'.Intact ∧ b.Descends b'

/-- A range stems from what the range that it stems from stems from. -/
theorem Guard.Stems.trans {l l' l'' : Listing} {g g' g'' : Guard Label} (h : Guard.Stems l l' g g')
    (h' : Guard.Stems l' l'' g' g'') : Guard.Stems l l'' g g'' :=
  ⟨h'.start.trans h.start, h'.handler.trans h.handler, fun hbefore => h'.ordered (h.ordered hbefore)⟩

namespace Body

variable {b b' b'' : Body}

/-- A body descends from what the body that it descends from descends from. -/
theorem Descends.trans (h : b.Descends b') (h' : b'.Descends b'') : b.Descends b'' := by
  obtain ⟨guards, hsub, hstems⟩ := h
  obtain ⟨guards', hsub', hstems'⟩ := h'
  obtain ⟨origins, horigins, hstems⟩ := exists_sublist_of_forall₂ hstems hsub'
  refine ⟨origins, horigins.trans hsub, ?_⟩
  exact forall₂_trans (fun _ _ _ h h' => h.trans h') hstems hstems'

/-- A body has become of itself. -/
theorem Becomes.refl (b : Body) : b.Becomes b :=
  fun hb => ⟨hb, b.guards, List.Sublist.refl _, List.forall₂_same.2 fun _ _ => ⟨rfl, rfl, id⟩⟩

/-- What has become of a body that has become of another one has become of that one. -/
theorem Becomes.trans (h : b.Becomes b') (h' : b'.Becomes b'') : b.Becomes b'' := by
  intro hb
  obtain ⟨hb', hdescends⟩ := h hb
  obtain ⟨hb'', hdescends'⟩ := h' hb'
  exact ⟨hb'', hdescends.trans hdescends'⟩

/-- The labels of ranges of an intact body are labels of its listing. -/
theorem Intact.mem_labels (hb : b.Intact) {g : Guard Label} (hg : g ∈ b.guards) {t : Label}
    (ht : t ∈ g.labels) : t ∈ b.listing.labels :=
  Listing.mem_labels_iff.2 (hb.labels.guards g hg t ht)

/-- The targets of a listing whose labels were left alone are linked. -/
theorem targetsLinked_of_edits {l l' : Listing} (hl : l.TargetsLinked) (e : l.Edits l') :
    l'.TargetsLinked := by
  intro h hm t ht
  obtain ⟨h₀, hm₀, ht₀⟩ := e.targets h hm t ht
  exact Listing.mem_labels_iff.1 (e.labels.subset (Listing.mem_labels_iff.2 (hl h₀ hm₀ t ht₀)))

/-- A body whose labels are left alone and which loses some ranges. -/
theorem becomes_of_edits (hedits : b.listing.WellFormed → b.listing.Edits b'.listing)
    (hguards : b'.guards.map Guard.labels <+ b.guards.map Guard.labels) : b.Becomes b' := by
  intro hb
  have e := hedits hb.wf
  obtain ⟨guards, hsub, heq⟩ := List.sublist_map_iff.1 hguards
  -- The ranges that are left correspond to ranges of the body with the same three labels.
  have hsame : List.Forall₂ (fun g g' => Guard.labels g = Guard.labels g') guards b'.guards := by
    refine List.forall₂_map_left_iff.1 (List.forall₂_map_right_iff.1 ?_)
    rw [List.forall₂_eq_eq_eq]
    exact heq.symm
  have hlabels : ∀ g ∈ guards, ∀ t ∈ g.labels, t ∈ b.listing.labels :=
    fun g hg t ht => hb.mem_labels (hsub.subset hg) ht
  refine ⟨⟨e.wf, targetsLinked_of_edits hb.labels.targets e, ?_⟩, guards, hsub, ?_⟩
  · intro g' hg' t ht
    obtain ⟨g, hg, hsame⟩ := exists_of_mem_right hsame hg'
    rw [← hsame] at ht
    exact Listing.mem_labels_iff.1 (e.labels.subset (hlabels g hg t ht))
  · refine forall₂_of_mem_left hsame ?_
    intro g hg g' heq
    obtain ⟨hstart, hstop, hhandler⟩ : g.start = g'.start ∧ g.stop = g'.stop ∧
        g.handler = g'.handler := by
      simpa [Guard.labels] using heq
    refine ⟨hstart.symm, hhandler.symm, ?_⟩
    -- A range stays the right way round, since its labels are still there in their order.
    rw [← hstart, ← hstop]
    exact e.mem_after (hlabels g hg _ (by simp [Guard.labels]))
      (hlabels g hg _ (by simp [Guard.labels]))

/-- A body that gets another listing and keeps its ranges. -/
theorem becomes_of_listing {l : Listing} (hedits : b.listing.WellFormed → b.listing.Edits l) :
    b.Becomes { b with listing := l } :=
  becomes_of_edits hedits (List.Sublist.refl _)

end Body

/-- A push of a number is no label and leads nowhere. -/
theorem Instruction.isLabel_pushInt (n : Int32) :
    (Instruction.pushInt n : Instruction Label).isLabel = false ∧
      (Instruction.pushInt n : Instruction Label).targets = [] := by
  unfold Instruction.pushInt
  dsimp only
  split
  · exact ⟨rfl, rfl⟩
  · split
    · exact ⟨rfl, rfl⟩
    · split <;> exact ⟨rfl, rfl⟩

namespace Idiom

open Body

/-! ### Crash reports -/

/-- Taking out a handler takes out linked instructions that are no labels, and some ranges. -/
theorem becomes_removeTracingHandlers (handler : Pattern) (b : Body) :
    b.Becomes (removeTracingHandlers handler b).2 := by
  -- Handlers may only lose ranges, whichever runs are taken out.
  have hguards : ∀ (runs : List (List Handle)) (state : Nat × Body),
      (runs.foldl removeHandler state).2.guards <+ state.2.guards := by
    intro runs
    induction runs with
    | nil => exact fun state => List.Sublist.refl _
    | cons run runs ih =>
      intro state
      refine (ih (removeHandler state run)).trans ?_
      cases run with
      | nil => exact List.Sublist.refl _
      | cons entry rest =>
        dsimp only [removeHandler]
        split
        · exact List.filter_sublist
        · exact List.Sublist.refl _
  refine becomes_of_edits (fun wf => ?_) ((hguards _ (0, b)).map Guard.labels)
  refine Listing.edits_foldl (fun state : Nat × Body => state.2.listing) (s := (0, b)) wf ?_
  intro state e run hrun
  cases run with
  | nil => exact Listing.Edits.refl e.wf
  | cons entry rest =>
    dsimp only [removeHandler]
    split
    · exact Listing.edits_foldl_remove e.wf fun h hh => e.not_label_of_run wf hrun hh
    · exact Listing.Edits.refl e.wf

/-- Removing redundant ranges leaves a body that has become of what it was. -/
theorem becomes_removeRedundantGuards (b : Body) : b.Becomes (removeRedundantGuards b).2 := by
  rw [removeRedundantGuards]
  split
  · exact becomes_of_edits Listing.Edits.refl (List.filter_sublist.map Guard.labels)
  · exact Becomes.refl b

/-! ### Opaque predicates -/

/-- Removing initializers leaves a body that has become of what it was. -/
theorem becomes_removeInitializers (b : Body) : b.Becomes (removeInitializers b).2 := by
  refine becomes_of_listing fun wf => Listing.edits_foldl_remove wf ?_
  intro h hh
  obtain ⟨found, hfound, hh⟩ := List.mem_flatMap.1 hh
  obtain ⟨run, hrun, hfound⟩ := List.mem_filterMap.1 hfound
  obtain ⟨m, -, rfl⟩ := Option.map_eq_some_iff.1 hfound
  exact (Listing.Edits.refl wf).not_label_of_run wf hrun (List.mem_of_mem_drop hh)

/-- Deciding a branch takes out instructions that are no labels, or makes a jump of a branch. -/
theorem edits_decideBranch {l : Listing} (wf : l.WellFormed) {run : List Handle}
    (hrun : ∀ h ∈ run, (l.get h).isLabel = false) : l.Edits (decideBranch l run) := by
  rw [decideBranch.eq_def]
  split
  · next load branch rest =>
    have hload := Listing.edits_remove wf (hrun load (by simp))
    split
    · next op target hget =>
      split
      · refine hload.trans (Listing.edits_replace hload.wf (hrun branch (by simp)) rfl ?_)
        intro t ht
        change t ∈ (l.get branch).targets
        rw [hget]
        exact ht
      · split
        · exact hload.trans (Listing.edits_remove hload.wf (hrun branch (by simp)))
        · exact Listing.Edits.refl wf
    · exact Listing.Edits.refl wf
  · exact Listing.Edits.refl wf

/-- Removing predicates leaves a body that has become of what it was. -/
theorem becomes_removePredicates (obstructors : List Member) (b : Body) :
    b.Becomes (removePredicates obstructors b).2 := by
  refine becomes_of_listing fun wf => ?_
  -- first the branches are decided, then the copies are taken out of what is left
  have hdecided : ∀ test, b.listing.Edits
      (((obstructorPredicate.runs b.listing).filter test).foldl decideBranch b.listing) := by
    intro test
    refine Listing.edits_foldl (fun l => l) (s := b.listing) wf ?_
    intro l e run hrun
    exact edits_decideBranch e.wf fun h hh =>
      (e.not_label_of_run wf (List.mem_of_mem_filter hrun) hh).2
  refine (hdecided _).trans (Listing.edits_foldl_remove (hdecided _).wf ?_)
  intro h hh
  obtain ⟨run, hrun, hh⟩ := List.mem_flatten.1 hh
  obtain ⟨hm, hlabel⟩ := Pattern.mem_run (List.mem_of_mem_filter hrun) hh
  exact ⟨(hdecided _).wf.lt_capacity h hm, hlabel⟩

/-! ### Shift distances -/

/-- Masking shift distances leaves a body that has become of what it was. -/
theorem becomes_maskShifts (shift : Pattern) (b : Body) : b.Becomes (maskShifts shift b).2 := by
  refine becomes_of_listing fun wf => ?_
  refine Listing.edits_foldl (fun state : Nat × Listing => state.2) (s := (0, b.listing)) wf ?_
  intro state e run hrun
  rw [maskShift.eq_def]
  split
  · next distance op rest =>
    have hold := (e.not_label_of_run wf hrun (List.mem_cons_self : distance ∈ _)).2
    dsimp only
    split
    · exact Listing.Edits.refl e.wf
    · split
      · exact Listing.Edits.refl e.wf
      · obtain ⟨hlabel, htargets⟩ := Instruction.isLabel_pushInt _
        exact Listing.edits_replace e.wf hold hlabel (by rw [htargets]; simp)
  · exact Listing.Edits.refl e.wf

/-! ### Dynamic calls -/

/-- A stub is put in front of a call, and the call is taken out. -/
theorem edits_stubCall {l : Listing} (wf : l.WellFormed) {site : Handle × DynamicCall}
    (hlt : site.1 < l.capacity) (hlabel : (l.get site.1).isLabel = false) :
    l.Edits (stubCall l site) := by
  have e : l.Edits ((stub site.2.descriptor).foldl (fun l op =>
      (l.create (.plain op)).2.insertBefore site.1 (l.create (.plain op)).1) l) := by
    refine Listing.edits_foldl (fun l => l) (s := l) wf ?_
    intro l' e op _
    exact Listing.edits_insert e.wf site.1 rfl
  exact e.trans (Listing.edits_remove e.wf (by rw [e.isLabel _ hlt, hlabel]))

/-- Replacing dynamic calls leaves a body that has become of what it was. -/
theorem becomes_stubDynamicCalls (b : Body) : b.Becomes (stubDynamicCalls b).2 := by
  refine becomes_of_listing fun wf => ?_
  refine Listing.edits_foldl (fun l => l) (s := b.listing) wf ?_
  intro l e site hsite
  obtain ⟨h, hm, hcall⟩ := List.mem_filterMap.1 hsite
  split at hcall
  · next call hget =>
    cases hcall
    obtain ⟨hlt, hlabel⟩ := e.not_label wf hm (by rw [hget]; rfl)
    exact edits_stubCall e.wf hlt hlabel
  · cases hcall

/-! ### Synchronized blocks -/

/-- A copy is put in front of a store, and the load is taken out. -/
theorem becomes_replaceLoads (load : Pattern) (b : Body) : b.Becomes (replaceLoads load b).2 := by
  refine becomes_of_edits (fun wf => ?_) (List.Sublist.refl _)
  refine Listing.edits_foldl (fun l => l) (s := b.listing) wf ?_
  intro l e run hrun
  rw [duplicateLock.eq_def]
  split
  · next store load rest =>
    have hload := e.not_label_of_run wf (List.mem_of_mem_filter hrun)
      (by simp : load ∈ store :: load :: rest)
    have einsert : l.Edits ((l.create (.plain .dup)).2.insertBefore store
        (l.create (.plain .dup)).1) := Listing.edits_insert e.wf store rfl
    exact einsert.trans (Listing.edits_remove einsert.wf
      (by rw [einsert.isLabel load hload.1, hload.2]))
  · exact Listing.Edits.refl e.wf

/-- The release of a lock stands behind the end of the range that fails to cover it. -/
theorem mem_after_of_releasePoint? {l : Listing} (wf : l.WellFormed) {g : Guard Label}
    (hstop : g.stop ∈ l.labels) {point : Handle} (h : releasePoint? l g = some point) :
    point ∈ l.after g.stop := by
  have hexpect : ∀ {op : Opcode} {a c : Handle}, expect? l op a = some c → a = c := by
    intro op a c hc
    rw [expect?] at hc
    split at hc
    · cases hc
      rfl
    · cases hc
  unfold releasePoint? at h
  split at h
  · cases h
  obtain ⟨opened, -, h⟩ := Option.bind_eq_some_iff.1 h
  obtain ⟨enter, -, h⟩ := Option.bind_eq_some_iff.1 h
  obtain ⟨real, hreal, h⟩ := Option.bind_eq_some_iff.1 h
  obtain ⟨load, hload, h⟩ := Option.bind_eq_some_iff.1 h
  obtain ⟨release, hrelease, h⟩ := Option.bind_eq_some_iff.1 h
  obtain ⟨exit, hexit, hpoint⟩ := Option.bind_eq_some_iff.1 h
  obtain rfl := hexpect hload
  obtain rfl := hexpect hexit
  -- the load is the first real instruction at or behind the end, which is a label itself
  have hload : real ∈ l.after g.stop := by
    rw [Listing.nextReal?, List.find?_cons_of_neg] at hreal
    · exact List.mem_of_find?_eq_some hreal
    · rw [Listing.isReal, Instruction.isReal_of_isLabel (Listing.mem_labels_iff.1 hstop).2]
      decide
  have hrelease : release ∈ l.after real := List.mem_of_find?_eq_some hrelease
  have hpoint : point ∈ l.after release := List.mem_of_find?_eq_some hpoint
  exact (Listing.after_suffix_after wf hload).subset
    ((Listing.after_suffix_after wf hrelease).subset hpoint)

/-- Ranges that are extended begin where they did and still end behind their start. -/
theorem extendEach_spec {l : Listing} (wf : l.WellFormed) {guards : List (Guard Label)}
    (hlabels : ∀ g ∈ guards, ∀ t ∈ g.labels, t ∈ l.labels) :
    l.Edits (extendEach l guards).2.1 ∧
      List.Forall₂ (fun g g' => Guard.Stems l (extendEach l guards).2.1 g g' ∧
        ∀ t ∈ g'.labels, t ∈ (extendEach l guards).2.1.labels) guards (extendEach l guards).2.2 := by
  induction guards generalizing l with
  | nil => exact ⟨Listing.Edits.refl wf, .nil⟩
  | cons g guards ih =>
    have hg : ∀ t ∈ g.labels, t ∈ l.labels := hlabels g List.mem_cons_self
    have hstart : g.start ∈ l.labels := hg _ (by simp [Guard.labels])
    have hstop : g.stop ∈ l.labels := hg _ (by simp [Guard.labels])
    have hhandler : g.handler ∈ l.labels := hg _ (by simp [Guard.labels])
    have hrest : ∀ g ∈ guards, ∀ t ∈ g.labels, t ∈ l.labels :=
      fun g hg => hlabels g (List.mem_cons_of_mem _ hg)
    rw [extendEach]
    split
    · next hpoint =>
      obtain ⟨e, hstems⟩ := ih wf hrest
      refine ⟨e, .cons ⟨⟨rfl, rfl, e.mem_after hstart hstop⟩, ?_⟩ hstems⟩
      exact fun t ht => e.labels.subset (hg t ht)
    · next point hpoint =>
      have e₁ : l.Edits ((l.create .label).2.insertBefore point (l.create .label).1) :=
        Listing.edits_insert wf point rfl
      obtain ⟨e, hstems⟩ := ih e₁.wf fun g hg t ht => e₁.labels.subset (hrest g hg t ht)
      -- the new label is linked, and stands behind the start if the old one did
      have hlabel : (l.create .label).1 ∈
          ((l.create .label).2.insertBefore point (l.create .label).1).labels :=
        Listing.mem_labels_insert l point
      have hbehind : g.stop ∈ l.after g.start → (l.create .label).1 ∈
          ((l.create .label).2.insertBefore point (l.create .label).1).after g.start := by
        intro hbefore
        have hpoint := mem_after_of_releasePoint? wf hstop hpoint
        exact Listing.mem_after_insert wf ((Listing.after_suffix_after wf hbefore).subset hpoint)
      refine ⟨e₁.trans e, .cons ⟨⟨rfl, rfl, ?_⟩, ?_⟩ (forall₂_of_mem_left hstems ?_)⟩
      · exact fun hbefore => e.mem_after (e₁.labels.subset hstart) hlabel (hbehind hbefore)
      · intro t ht
        simp only [Guard.labels, List.mem_cons, List.not_mem_nil, or_false] at ht
        rcases ht with rfl | rfl | rfl
        · exact (e₁.trans e).labels.subset hstart
        · exact e.labels.subset hlabel
        · exact (e₁.trans e).labels.subset hhandler
      · rintro g' hg' g'' ⟨hstem, hlinked⟩
        refine ⟨⟨hstem.start, hstem.handler, fun hbefore => hstem.ordered ?_⟩, hlinked⟩
        exact e₁.mem_after (hrest g' hg' _ (by simp [Guard.labels]))
          (hrest g' hg' _ (by simp [Guard.labels])) hbefore

/-- Extending ranges leaves a body that has become of what it was. -/
theorem becomes_extendGuards (b : Body) : b.Becomes (extendGuards b).2 := by
  intro hb
  obtain ⟨e, hstems⟩ := extendEach_spec hb.wf fun g hg t ht => hb.mem_labels hg ht
  refine ⟨⟨e.wf, targetsLinked_of_edits hb.labels.targets e, ?_⟩, b.guards, List.Sublist.refl _,
    hstems.imp fun g g' h => h.1⟩
  intro g' hg' t ht
  obtain ⟨g, -, -, hlabels⟩ := exists_of_mem_right hstems hg'
  exact Listing.mem_labels_iff.1 (hlabels t ht)

end Idiom

end Unscramble
