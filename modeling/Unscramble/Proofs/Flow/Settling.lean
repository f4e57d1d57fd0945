import Unscramble.Proofs.Listing

/-! # Where control settles

Labels, line markers and jumps without a condition do nothing but move control. From a position,
control passes them until it settles at an instruction that does something, or leaves the sequence
at its end; on a cycle of jumps it never settles.

Main definitions: `Settles`, `Agree`. Main statements: `Settles.unique`, and
`Prunable.agree`, by which handles can be taken out of a sequence when control that stands at
one of them settles where it would settle from the next one. -/

namespace Unscramble

/-- The label that an instruction always leads to without doing anything else. -/
def Instruction.gotoTarget? {L : Type} : Instruction L → Option L
  | .jump op target => if op = .goto then some target else none
  | _ => none

/-- A jump without a condition is a real instruction. -/
theorem Instruction.isReal_of_gotoTarget? {L : Type} {i : Instruction L} {t : L}
    (h : i.gotoTarget? = some t) : i.isReal = true := by
  cases i with
  | jump op target => rfl
  | _ => cases h

/-- The label that a jump without a condition leads to is its target. -/
theorem Instruction.mem_targets_of_gotoTarget? {L : Type} {i : Instruction L} {t : L}
    (h : i.gotoTarget? = some t) : t ∈ i.targets := by
  cases i with
  | jump op target =>
    simp only [gotoTarget?] at h
    split at h
    · cases h
      simp [targets]
    · cases h
  | _ => cases h

namespace Flow

/-- Control at a position settles at a real instruction that is no jump without a condition, or at
`none` behind the end of the sequence. A position is the list of the handles from it on. -/
inductive Settles (l : Listing) : List Handle → Option Handle → Prop
  /-- Control has left the sequence at its end. -/
  | off : Settles l [] none
  /-- An instruction that does something. -/
  | stop {h : Handle} {s : List Handle} (real : l.isReal h = true)
      (still : (l.get h).gotoTarget? = none) : Settles l (h :: s) (some h)
  /-- Labels and line markers are passed. -/
  | skip {h : Handle} {s : List Handle} {x : Option Handle} (marker : l.isReal h = false)
      (next : Settles l s x) : Settles l (h :: s) x
  /-- A jump without a condition is followed. -/
  | jump {h t : Handle} {s : List Handle} {x : Option Handle}
      (goto : (l.get h).gotoTarget? = some t) (next : Settles l (l.onward t) x) :
      Settles l (h :: s) x

/-- Control settles at the same place from two positions, or settles from neither. -/
def Agree (l : Listing) (s : List Handle) (l' : Listing) (s' : List Handle) : Prop :=
  ∀ x, Settles l s x ↔ Settles l' s' x

/-- Control settles at one place from one position. -/
theorem Agree.refl (l : Listing) (s : List Handle) : Agree l s l s :=
  fun _ => Iff.rfl

/-- What settles where other positions do, which settle where third ones do, settles where those do.
-/
theorem Agree.trans {l₁ l₂ l₃ : Listing} {s₁ s₂ s₃ : List Handle} (h : Agree l₁ s₁ l₂ s₂)
    (h' : Agree l₂ s₂ l₃ s₃) : Agree l₁ s₁ l₃ s₃ :=
  fun x => (h x).trans (h' x)

variable {l : Listing} {h t : Handle} {s : List Handle} {x y : Option Handle}

/-! ### One step -/

/-- A jump without a condition is no marker. -/
theorem isReal_of_goto (ht : (l.get h).gotoTarget? = some t) : l.isReal h = true :=
  Instruction.isReal_of_gotoTarget? ht

/-- Control at a marker settles where it settles behind the marker. -/
theorem settles_marker_iff (hr : l.isReal h = false) :
    Settles l (h :: s) x ↔ Settles l s x := by
  constructor
  · intro hs
    cases hs with
    | stop real _ => rw [hr] at real; cases real
    | skip _ next => exact next
    | jump goto _ => rw [isReal_of_goto goto] at hr; cases hr
  · exact .skip hr

/-- Control at a jump without a condition settles where it settles at the target. -/
theorem settles_goto_iff (ht : (l.get h).gotoTarget? = some t) :
    Settles l (h :: s) x ↔ Settles l (l.onward t) x := by
  constructor
  · intro hs
    cases hs with
    | stop _ still => rw [ht] at still; cases still
    | skip marker _ => rw [isReal_of_goto ht] at marker; cases marker
    | jump goto next =>
      rw [ht] at goto
      cases goto
      exact next
  · exact .jump ht

/-- Markers in front of a position do not matter. -/
theorem settles_markers_iff {front : List Handle} (hf : ∀ a ∈ front, l.isReal a = false) :
    Settles l (front ++ s) x ↔ Settles l s x := by
  induction front with
  | nil => rfl
  | cons a front ih =>
    rw [List.cons_append, settles_marker_iff (hf a (by simp))]
    exact ih fun b hb => hf b (by simp [hb])

/-- Control settles at one place at most. -/
theorem Settles.unique (hx : Settles l s x) (hy : Settles l s y) : x = y := by
  induction hx with
  | off => cases hy; rfl
  | stop real still =>
    cases hy with
    | stop => rfl
    | skip marker _ => rw [real] at marker; cases marker
    | jump goto _ => rw [still] at goto; cases goto
  | skip marker _ ih => exact ih ((settles_marker_iff marker).1 hy)
  | jump goto _ ih => exact ih ((settles_goto_iff goto).1 hy)

/-! ### Taking handles out -/

/-- A handle can be taken out if it is a marker, or a jump whose target is followed by the same
instruction as the jump, with nothing but markers in front of it. -/
def Needless (l : Listing) (h : Handle) (s : List Handle) : Prop :=
  l.isReal h = false ∨
    ∃ t front front' s', (l.get h).gotoTarget? = some t ∧
      l.onward t = front ++ s' ∧ s = front' ++ s' ∧
      (∀ a ∈ front, l.isReal a = false) ∧ ∀ a ∈ front', l.isReal a = false

/-- Control at a needless handle settles where it settles behind the handle. -/
theorem Needless.settles_iff (hn : Needless l h s) : Settles l (h :: s) x ↔ Settles l s x := by
  rcases hn with hr | ⟨t, front, front', s', ht, hto, rfl, hf, hf'⟩
  · exact settles_marker_iff hr
  · rw [settles_goto_iff ht, hto, settles_markers_iff hf, settles_markers_iff hf']

/-- The positions that control can come to while it settles, if handles that go are needless and
targets of jumps stay. -/
structure Prunable (l : Listing) (keep : Handle → Bool) (ok : List Handle → Prop) : Prop where
  /-- Control comes behind a marker. -/
  skip : ∀ h s, ok (h :: s) → l.isReal h = false → ok s
  /-- Control comes to the target of a jump without a condition, which stays. -/
  jump : ∀ h s t, ok (h :: s) → (l.get h).gotoTarget? = some t → keep t = true ∧ ok (l.onward t)
  /-- Control comes behind a handle that goes, and the handle is needless. -/
  gone : ∀ h s, ok (h :: s) → keep h = false → ok s ∧ Needless l h s

/-- A position from which control settles at the same place and which begins with a handle that
stays. -/
theorem Prunable.exists_kept {keep : Handle → Bool} {ok : List Handle → Prop}
    (p : Prunable l keep ok) (hs : ok s) :
    ∃ s', ok s' ∧ Agree l s l s' ∧ s.filter keep = s'.filter keep ∧
      ∀ a r, s' = a :: r → keep a = true := by
  induction s with
  | nil => exact ⟨[], hs, Agree.refl l [], rfl, by intro a r hr; cases hr⟩
  | cons h s ih =>
    by_cases hk : keep h = true
    · refine ⟨h :: s, hs, Agree.refl l _, rfl, ?_⟩
      intro a r hr
      cases hr
      exact hk
    · obtain ⟨hok, hn⟩ := p.gone h s hs (by simpa using hk)
      obtain ⟨s', hok', hagree, hfilter, hhead⟩ := ih hok
      refine ⟨s', hok', fun x => hn.settles_iff.trans (hagree x), ?_, hhead⟩
      rw [List.filter_cons_of_neg hk, hfilter]

/-- Control that settles still settles there when needless handles are taken out. -/
theorem Prunable.settles_of_settles {keep : Handle → Bool} {ok : List Handle → Prop}
    (p : Prunable l keep ok) (hs : ok s) (hx : Settles l s x) :
    Settles (l.restrict keep) (s.filter keep) x := by
  induction hx with
  | off => exact .off
  | @stop h s real still =>
    have hk : keep h = true := by
      by_contra hk
      -- what goes is a marker or a jump, and control stopped at neither
      rcases (p.gone h s hs (by simpa using hk)).2 with hr | ⟨t, _, _, _, ht, _⟩
      · rw [real] at hr; cases hr
      · rw [still] at ht; cases ht
    rw [List.filter_cons_of_pos hk]
    exact .stop real still
  | @skip h s x marker next ih =>
    have hnext := ih (p.skip h s hs marker)
    by_cases hk : keep h = true
    · rw [List.filter_cons_of_pos hk]
      exact .skip marker hnext
    · rw [List.filter_cons_of_neg hk]
      exact hnext
  | @jump h t s x goto next ih =>
    obtain ⟨hkt, hokt⟩ := p.jump h s t hs goto
    have hnext := ih hokt
    by_cases hk : keep h = true
    · rw [List.filter_cons_of_pos hk]
      refine .jump (t := t) goto ?_
      rw [Listing.onward_restrict hkt]
      exact hnext
    · rw [List.filter_cons_of_neg hk]
      rcases (p.gone h s hs (by simpa using hk)).2 with
        hr | ⟨t', front, front', s', ht, hto, rfl, hf, hf'⟩
      · rw [isReal_of_goto goto] at hr; cases hr
      · rw [goto] at ht
        cases ht
        have hmarkers : ∀ r : List Handle, (∀ a ∈ r, l.isReal a = false) →
            ∀ a ∈ r.filter keep, (l.restrict keep).isReal a = false :=
          fun r hr a ha => hr a (List.mem_of_mem_filter ha)
        rw [hto, List.filter_append, settles_markers_iff (hmarkers front hf)] at hnext
        rw [List.filter_append, settles_markers_iff (hmarkers front' hf')]
        exact hnext

/-- Control that settles when needless handles are taken out settled there before. -/
theorem Prunable.settles_of_settles_restrict {keep : Handle → Bool} {ok : List Handle → Prop}
    (p : Prunable l keep ok) {s' : List Handle} (hx : Settles (l.restrict keep) s' x) :
    ∀ s, ok s → s.filter keep = s' → Settles l s x := by
  -- On the way in the restricted listing: what it starts with is kept, and in front of it stands
  -- only what may go.
  induction hx with
  | off =>
    intro s hs hfilter
    obtain ⟨r, _, hagree, hr, hhead⟩ := p.exists_kept hs
    rw [hfilter] at hr
    rw [hagree]
    cases r with
    | nil => exact .off
    | cons a r => simp [hhead a r rfl] at hr
  | @stop h s' real still =>
    intro s hs hfilter
    obtain ⟨r, _, hagree, hr, hhead⟩ := p.exists_kept hs
    rw [hfilter] at hr
    rw [hagree]
    cases r with
    | nil => cases hr
    | cons a r =>
      rw [List.filter_cons_of_pos (hhead a r rfl)] at hr
      cases hr
      exact .stop real still
  | @skip h s' x marker next ih =>
    intro s hs hfilter
    obtain ⟨r, hok, hagree, hr, hhead⟩ := p.exists_kept hs
    rw [hfilter] at hr
    rw [hagree]
    cases r with
    | nil => cases hr
    | cons a r =>
      rw [List.filter_cons_of_pos (hhead a r rfl)] at hr
      cases hr
      exact .skip marker (ih r (p.skip _ _ hok marker) rfl)
  | @jump h t s' x goto next ih =>
    intro s hs hfilter
    obtain ⟨r, hok, hagree, hr, hhead⟩ := p.exists_kept hs
    rw [hfilter] at hr
    rw [hagree]
    cases r with
    | nil => cases hr
    | cons a r =>
      rw [List.filter_cons_of_pos (hhead a r rfl)] at hr
      cases hr
      obtain ⟨hkt, hokt⟩ := p.jump _ _ _ hok goto
      exact .jump goto (ih _ hokt (Listing.onward_restrict hkt).symm)

/-- Taking needless handles out does not change where control settles. -/
theorem Prunable.agree {keep : Handle → Bool} {ok : List Handle → Prop}
    (p : Prunable l keep ok) (hs : ok s) : Agree l s (l.restrict keep) (s.filter keep) :=
  fun _ => ⟨p.settles_of_settles hs, fun hx => p.settles_of_settles_restrict hx s hs rfl⟩

end Flow

end Unscramble
