import Unscramble.Proofs.Shape
import Unscramble.Proofs.Stage.Idioms

/-! # Line markers in fingerprints

A fingerprint shows no line markers, but it shows the positions of the targets of jumps, and these
count the line markers in front of them. So two bodies that are the same without their line markers
have one fingerprint if and only if each target has as many line markers in front of it in the one
body as in the other.

Main definitions: `unlined`, `gist`, `linesBefore`. Main statements: `positionIn_unlined`,
`fingerprint_eq_iff_linesBefore`. -/

namespace Unscramble.Tidy

open Text

/-- A sequence without its line markers. -/
def unlined (l : Listing) : Listing :=
  (l.removeIf fun _ i => isLine i).2

/-- An instruction with positions for its labels. Of the push of an integer nothing is left. -/
def blanked (position : Label → Option Nat) (i : Instruction Label) :
    Option (Instruction (Option Nat)) :=
  if i.pushedInt?.isSome then none else some (i.map position)

/-- What is left of a sequence without its line markers, whatever its labels are named and whichever
integers it pushes. -/
def gist (l : Listing) : List (Option (Instruction (Option Nat))) :=
  (unlined l).instructions.map (blanked (Listing.positionIn (unlined l).positions))

/-- The number of line markers in front of a label. -/
def linesBefore (l : Listing) (t : Label) : Nat :=
  (l.before t).countP fun h => isLine (l.get h)

/-- The labels that jumps and switches lead to, in order. -/
def jumpTargets (l : Listing) : List Label :=
  l.instructions.flatMap Instruction.targets

variable {l l' : Listing}

/-- Without line markers a listing has the instructions that are none. -/
theorem unlined_eq_restrict (l : Listing) :
    unlined l = l.restrict fun h => !isLine (l.get h) := rfl

/-- The instructions without line markers are those that are none. -/
theorem instructions_unlined (l : Listing) :
    (unlined l).instructions = l.instructions.filter fun i => !isLine i := by
  rw [unlined_eq_restrict, Listing.instructions, Listing.handles_restrict, Listing.get_restrict,
    Listing.instructions, List.filter_map]
  rfl

/-- What stands in front of a handle, the nearest first. -/
theorem before_of_split (wf : l.WellFormed) {t : Handle} {front back : List Handle}
    (hs : l.handles = front ++ t :: back) : l.before t = front.reverse := by
  have hback : t ∉ back.reverse := by
    rw [List.mem_reverse]
    exact (not_mem_of_nodup_middle (hs ▸ wf.nodup)).2
  rw [Listing.before, hs, List.reverse_append, List.reverse_cons, List.append_assoc,
    List.singleton_append, dropWhile_bne_append hback]
  rfl

/-- Nothing stands in front of what is not in the listing. -/
theorem before_of_not_mem {t : Handle} (h : t ∉ l.handles) : l.before t = [] := by
  have hnone : l.handles.reverse.dropWhile (· != t) = [] := by
    rw [List.dropWhile_eq_nil_iff]
    intro a ha
    rw [bne_iff_ne]
    rintro rfl
    exact h (List.mem_reverse.1 ha)
  rw [Listing.before, hnone]
  rfl

/-- The position of an instruction is the number of those in front. -/
theorem positionIn_of_split (wf : l.WellFormed) {t : Handle} {front back : List Handle}
    (hs : l.handles = front ++ t :: back) :
    Listing.positionIn l.positions t = some front.length := by
  rw [Listing.positionIn_positions wf, hs, List.getElem?_append_right (le_refl _), Nat.sub_self,
    List.getElem?_cons_zero]

/-- What is not in the listing has no position. -/
theorem positionIn_of_not_mem (wf : l.WellFormed) {t : Handle} (h : t ∉ l.handles) :
    Listing.positionIn l.positions t = none := by
  rw [Option.eq_none_iff_forall_ne_some]
  intro i hi
  exact h (List.mem_of_getElem? ((Listing.positionIn_positions wf).1 hi))

/-- The position of a label is its position without line markers and the number of line markers in
front of it. -/
theorem positionIn_unlined (wf : l.WellFormed) {t : Label} (ht : isLine (l.get t) = false) :
    Listing.positionIn l.positions t =
      (Listing.positionIn (unlined l).positions t).map (· + linesBefore l t) := by
  have wf' : (unlined l).WellFormed := wf.restrict _
  have hhandles : (unlined l).handles = l.handles.filter fun h => !isLine (l.get h) :=
    Listing.handles_restrict ..
  by_cases hm : t ∈ l.handles
  · obtain ⟨front, back, hs, -⟩ := List.eq_append_cons_of_mem hm
    have hs' : (unlined l).handles = front.filter (fun h => !isLine (l.get h)) ++
        t :: back.filter fun h => !isLine (l.get h) := by
      rw [hhandles, hs, List.filter_append, List.filter_cons_of_pos (by simp [ht])]
    have hcount := List.length_eq_countP_add_countP (fun h => isLine (l.get h)) (l := front)
    rw [positionIn_of_split wf hs, positionIn_of_split wf' hs', Option.map_some, linesBefore,
      before_of_split wf hs, List.countP_reverse, ← List.countP_eq_length_filter, hcount,
      Nat.add_comm]
    simp
  · have hm' : t ∉ (unlined l).handles := by
      rw [hhandles]
      exact fun h => hm (List.mem_of_mem_filter h)
    rw [positionIn_of_not_mem wf hm, positionIn_of_not_mem wf' hm', Option.map_none]

/-- Labels at one place without line markers are at one place if as many line markers stand in front
of them. -/
theorem positionIn_eq_iff (wf : l.WellFormed) (wf' : l'.WellFormed) {t t' : Label}
    (ht : isLine (l.get t) = false) (ht' : isLine (l'.get t') = false)
    (hplace : Listing.positionIn (unlined l).positions t =
      Listing.positionIn (unlined l').positions t') :
    Listing.positionIn l.positions t = Listing.positionIn l'.positions t' ↔
      linesBefore l t = linesBefore l' t' := by
  have hnone : ∀ {l : Listing}, l.WellFormed → ∀ {t : Label}, isLine (l.get t) = false →
      Listing.positionIn (unlined l).positions t = none → linesBefore l t = 0 := by
    intro l wf t ht hnone
    have hm : t ∉ l.handles := by
      intro hm
      obtain ⟨front, back, hs, -⟩ := List.eq_append_cons_of_mem hm
      have hpos := positionIn_unlined wf ht
      rw [hnone, positionIn_of_split wf hs] at hpos
      cases hpos
    rw [linesBefore, before_of_not_mem hm]
    rfl
  rw [positionIn_unlined wf ht, positionIn_unlined wf' ht', ← hplace]
  cases hpos : Listing.positionIn (unlined l).positions t with
  | none => simp [hnone wf ht hpos, hnone wf' ht' (hplace ▸ hpos)]
  | some k => simp

/-! ### Texts of instructions -/

section

variable {i i' : Instruction Label} {p p' : Label → Option Nat} {table table' : Array (Option Nat)}

/-- The labels of an instruction with other labels. -/
theorem targets_map {L M : Type} (f : L → M) (i : Instruction L) :
    (i.map f).targets = i.targets.map f := by
  cases i with
  | tableSwitch => simp [Instruction.map, Instruction.targets]
  | lookupSwitch => simp [Instruction.map, Instruction.targets]
  | _ => rfl

/-- Renaming labels keeps the opcode. -/
theorem opcode?_map {L M : Type} (f : L → M) (i : Instruction L) :
    (i.map f).opcode? = i.opcode? := by
  cases i <;> rfl

/-- Without labels the text of an instruction does not depend on their names. -/
theorem text_of_targets_eq_nil {L M : Type} {i : Instruction L} (h : i.targets = []) (f : L → M)
    (name : L → String) (name' : M → String) : i.text name = (i.map f).text name' := by
  cases i with
  | jump => cases h
  | lookupSwitch => simp [Instruction.targets] at h
  | _ => rfl

/-- What pushes a number jumps nowhere. -/
theorem targets_of_pushesInt (h : i.pushedInt?.isSome = true) : i.targets = [] := by
  obtain ⟨n, hn⟩ := Option.isSome_iff_exists.1 h
  exact Instruction.targets_of_pushedInt? hn

/-- The labels of what is left of an instruction. -/
theorem targets_of_blanked (h : blanked p i = blanked p' i') :
    i.targets.map p = i'.targets.map p' := by
  unfold blanked at h
  split at h
  · next hint =>
    split at h
    · next hint' =>
      rw [targets_of_pushesInt hint, targets_of_pushesInt hint']
      rfl
    · cases h
  · split at h
    · cases h
    · rw [← targets_map, ← targets_map, Option.some.inj h]

/-- Without labels, what is left of an instruction tells its line. -/
theorem lineText_of_blanked (h : blanked p i = blanked p' i') (htargets : i.targets = []) :
    lineText table i = lineText table' i' := by
  have htargets' : i'.targets = [] := by
    have hmap := targets_of_blanked h
    rw [htargets] at hmap
    exact List.map_eq_nil_iff.1 hmap.symm
  unfold blanked at h
  unfold lineText
  split at h
  · next hint =>
    split at h
    · next hint' => rw [if_pos hint, if_pos hint']
    · cases h
  · next hint =>
    split at h
    · cases h
    · next hint' =>
      rw [if_neg hint, if_neg hint', shapeText, shapeText, htargets, htargets']
      dsimp only
      rw [text_of_targets_eq_nil htargets p _ fun _ => "",
        text_of_targets_eq_nil htargets' p' _ fun _ => "", Option.some.inj h]

/-- A jump shows its labels only. -/
theorem lineText_of_targets (h : i.targets ≠ []) : lineText table i =
    ((i.opcode?).getD .nop).mnemonic ++ " -> " ++
      ",".intercalate (i.targets.map (Listing.labelText table)) := by
  rw [lineText, if_neg fun hint => h (targets_of_pushesInt hint), shapeText_of_targets h]

/-- Instructions that look alike without their labels have one opcode, if they have labels. -/
theorem opcode?_of_blanked (h : blanked p i = blanked p' i') (htargets : i.targets ≠ []) :
    i.opcode? = i'.opcode? := by
  rw [blanked, if_neg fun hint => htargets (targets_of_pushesInt hint)] at h
  unfold blanked at h
  split at h
  · cases h
  · rw [← opcode?_map p, Option.some.inj h, opcode?_map]

/-- The line of a jump is one line. -/
theorem newline_not_mem_of_targets (h : i.targets ≠ []) : '\n' ∉ (lineText table i).toList := by
  rw [lineText_of_targets h, toList_jumpText]
  simp only [List.mem_append, List.mem_cons, not_or]
  exact ⟨(not_mem_mnemonic _).2, by decide, by decide, by decide, by decide,
    not_mem_targetsText (by decide) (by decide) table i.targets⟩

end

/-! ### Sequences without line markers -/

/-- No jump leads to a line marker. -/
def LeadsToLabels (l : Listing) : Prop :=
  ∀ t ∈ jumpTargets l, isLine (l.get t) = false

instance : DecidablePred LeadsToLabels := fun l =>
  inferInstanceAs (Decidable (∀ t ∈ jumpTargets l, isLine (l.get t) = false))

/-- Positions tell the texts of labels. -/
theorem map_labelText_of_positions {table table' : Array (Option Nat)} {ts ts' : List Label}
    (h : ts.map (Listing.positionIn table) = ts'.map (Listing.positionIn table')) :
    ts.map (Listing.labelText table) = ts'.map (Listing.labelText table') := by
  rw [← List.forall₂_eq_eq_eq, List.forall₂_map_left_iff, List.forall₂_map_right_iff] at h ⊢
  refine h.imp fun t t' hplace => ?_
  rw [Listing.labelText, Listing.labelText, hplace]

/-- Lists of labels at one place without line markers. -/
theorem map_positionIn_eq_iff (wf : l.WellFormed) (wf' : l'.WellFormed) {ts ts' : List Label}
    (hts : ∀ t ∈ ts, isLine (l.get t) = false) (hts' : ∀ t ∈ ts', isLine (l'.get t) = false)
    (h : ts.map (Listing.positionIn (unlined l).positions) =
      ts'.map (Listing.positionIn (unlined l').positions)) :
    ts.map (Listing.positionIn l.positions) = ts'.map (Listing.positionIn l'.positions) ↔
      ts.map (linesBefore l) = ts'.map (linesBefore l') := by
  induction ts generalizing ts' with
  | nil =>
    rw [List.map_eq_nil_iff.1 h.symm]
    simp
  | cons t ts ih =>
    cases ts' with
    | nil => cases h
    | cons t' ts' =>
      obtain ⟨ht, hts⟩ := List.forall_mem_cons.1 hts
      obtain ⟨ht', hts'⟩ := List.forall_mem_cons.1 hts'
      obtain ⟨hplace, hplaces⟩ := List.cons.inj h
      rw [List.map_cons, List.map_cons, List.map_cons, List.map_cons, List.cons.injEq,
        List.cons.injEq, positionIn_eq_iff wf wf' ht ht' hplace, ih hts hts' hplaces]

/-- The lines of two instructions of which the same is left are equal if their labels have as many
line markers in front of them. -/
theorem lineText_eq_iff (wf : l.WellFormed) (wf' : l'.WellFormed) {i i' : Instruction Label}
    (hi : ∀ t ∈ i.targets, isLine (l.get t) = false)
    (hi' : ∀ t ∈ i'.targets, isLine (l'.get t) = false)
    (h : blanked (Listing.positionIn (unlined l).positions) i =
      blanked (Listing.positionIn (unlined l').positions) i') :
    lineText l.positions i = lineText l'.positions i' ↔
      i.targets.map (linesBefore l) = i'.targets.map (linesBefore l') := by
  have hplaces := targets_of_blanked h
  have hlength : i.targets.length = i'.targets.length := by
    simpa using congrArg List.length hplaces
  by_cases htargets : i.targets = []
  · have htargets' : i'.targets = [] := by
      rw [← List.length_eq_zero_iff, ← hlength, htargets]
      rfl
    rw [htargets, htargets']
    exact iff_of_true (lineText_of_blanked h htargets) rfl
  · have htargets' : i'.targets ≠ [] := by
      rwa [Ne, ← List.length_eq_zero_iff, ← hlength, List.length_eq_zero_iff]
    rw [← map_positionIn_eq_iff wf wf' hi hi' hplaces, lineText_of_targets htargets,
      lineText_of_targets htargets', opcode?_of_blanked h htargets, String.append_right_inj]
    constructor
    · exact Instruction.targetsText_inj htargets htargets'
    · intro hsame
      rw [map_labelText_of_positions hsame]

/-- The lines of sequences of which the same is left. -/
theorem map_lineText_eq_iff (wf : l.WellFormed) (wf' : l'.WellFormed)
    {is is' : List (Instruction Label)}
    (his : ∀ t ∈ is.flatMap Instruction.targets, isLine (l.get t) = false)
    (his' : ∀ t ∈ is'.flatMap Instruction.targets, isLine (l'.get t) = false)
    (h : is.map (blanked (Listing.positionIn (unlined l).positions)) =
      is'.map (blanked (Listing.positionIn (unlined l').positions))) :
    is.map (lineText l.positions) = is'.map (lineText l'.positions) ↔
      (is.flatMap Instruction.targets).map (linesBefore l) =
        (is'.flatMap Instruction.targets).map (linesBefore l') := by
  -- On the instructions, for those of the other listing: two that leave the same have as many
  -- targets.
  induction is generalizing is' with
  | nil =>
    rw [List.map_eq_nil_iff.1 h.symm]
    simp
  | cons i is ih =>
    cases is' with
    | nil => cases h
    | cons i' is' =>
      rw [List.flatMap_cons, List.forall_mem_append] at his his'
      obtain ⟨hfirst, hrest⟩ := List.cons.inj h
      have hlength := congrArg List.length (targets_of_blanked hfirst)
      rw [List.length_map, List.length_map] at hlength
      have happend : (i.targets ++ is.flatMap Instruction.targets).map (linesBefore l) =
          (i'.targets ++ is'.flatMap Instruction.targets).map (linesBefore l') ↔
          i.targets.map (linesBefore l) = i'.targets.map (linesBefore l') ∧
            (is.flatMap Instruction.targets).map (linesBefore l) =
              (is'.flatMap Instruction.targets).map (linesBefore l') := by
        rw [List.map_append, List.map_append]
        constructor
        · exact fun heq => List.append_inj heq (by simpa using hlength)
        · rintro ⟨hleft, hright⟩
          rw [hleft, hright]
      rw [List.map_cons, List.map_cons, List.cons.injEq, List.flatMap_cons, List.flatMap_cons,
        happend, lineText_eq_iff wf wf' his.1 his'.1 hfirst, ih his.2 his'.2 hrest]

/-- Texts of lines are equal only if the lines are, when those that could differ have no line break
in them. -/
theorem eq_of_flatMap_lines {xs ys : List String}
    (h : List.Forall₂ (fun x y => x = y ∨ '\n' ∉ x.toList ∧ '\n' ∉ y.toList) xs ys)
    (heq : (xs.flatMap fun line => '\n' :: line.toList) =
      ys.flatMap fun line => '\n' :: line.toList) : xs = ys := by
  induction h with
  | nil => rfl
  | @cons x y xs ys hfirst hrest ih =>
    rw [List.flatMap_cons, List.flatMap_cons, List.cons_append, List.cons_append] at heq
    have heq := (List.cons.inj heq).2
    rcases hfirst with rfl | ⟨hx, hy⟩
    · rw [ih (List.append_cancel_left heq)]
    · cases hrest with
      | nil =>
        simp only [List.flatMap_nil, List.append_nil] at heq
        rw [String.toList_injective heq]
      | cons =>
        rw [List.flatMap_cons, List.flatMap_cons, List.cons_append, List.cons_append,
          append_cons_inj hy hx] at heq
        obtain ⟨hline, -, hlines⟩ := heq
        rw [String.toList_injective hline, ih ?_]
        rw [List.flatMap_cons, List.flatMap_cons, List.cons_append, List.cons_append, hlines]

/-- Line markers lead nowhere, so the targets of jumps are there without them. -/
theorem jumpTargets_unlined (l : Listing) : jumpTargets (unlined l) = jumpTargets l := by
  have hfilter : ∀ is : List (Instruction Label),
      (is.filter fun i => !isLine i).flatMap Instruction.targets =
        is.flatMap Instruction.targets := by
    intro is
    induction is with
    | nil => rfl
    | cons i is ih =>
      cases i with
      | line => exact ih
      | _ => rw [List.filter_cons_of_pos rfl, List.flatMap_cons, List.flatMap_cons, ih]
  rw [jumpTargets, jumpTargets, instructions_unlined, hfilter]

/-- The lines of a listing are those of its instructions without line markers. -/
theorem lines_eq (l : Listing) : lines l = (unlined l).instructions.map (lineText l.positions) := by
  rw [lines, instructions_unlined]

/-- Fingerprints of sequences of which the same is left are equal if their lines are. -/
theorem fingerprint_eq_iff_lines {m m' : Method} {b b' : Body}
    (hdescriptor : m.descriptor = m'.descriptor) (hgist : gist b.listing = gist b'.listing) :
    fingerprint m b = fingerprint m' b' ↔ lines b.listing = lines b'.listing := by
  rw [← String.toList_inj, toList_fingerprint, toList_fingerprint, hdescriptor,
    List.append_cancel_left_eq]
  refine ⟨eq_of_flatMap_lines ?_, fun h => by rw [h]⟩
  rw [lines_eq, lines_eq, List.forall₂_map_left_iff, List.forall₂_map_right_iff]
  rw [gist, gist, ← List.forall₂_eq_eq_eq, List.forall₂_map_left_iff, List.forall₂_map_right_iff]
    at hgist
  refine hgist.imp fun i i' hblanked => ?_
  by_cases htargets : i.targets = []
  · exact .inl (lineText_of_blanked hblanked htargets)
  · have htargets' : i'.targets ≠ [] := by
      have hplaces := targets_of_blanked hblanked
      rintro hnil
      rw [hnil, List.map_nil, List.map_eq_nil_iff] at hplaces
      exact htargets hplaces
    exact .inr ⟨newline_not_mem_of_targets htargets, newline_not_mem_of_targets htargets'⟩

/-- **Fingerprints without line markers.** Two methods with one descriptor, of whose bodies the same
is left without line markers and integers, have one fingerprint if and only if each target of a jump
has as many line markers in front of it in the one body as in the other. -/
theorem fingerprint_eq_iff_linesBefore {m m' : Method} {b b' : Body} (wf : b.listing.WellFormed)
    (wf' : b'.listing.WellFormed) (hlabels : LeadsToLabels b.listing)
    (hlabels' : LeadsToLabels b'.listing) (hdescriptor : m.descriptor = m'.descriptor)
    (hgist : gist b.listing = gist b'.listing) :
    fingerprint m b = fingerprint m' b' ↔
      (jumpTargets b.listing).map (linesBefore b.listing) =
        (jumpTargets b'.listing).map (linesBefore b'.listing) := by
  rw [fingerprint_eq_iff_lines hdescriptor hgist, lines_eq, lines_eq,
    ← jumpTargets_unlined b.listing, ← jumpTargets_unlined b'.listing]
  exact map_lineText_eq_iff wf wf'
    (fun t ht => hlabels t (jumpTargets_unlined b.listing ▸ ht))
    (fun t ht => hlabels' t (jumpTargets_unlined b'.listing ▸ ht)) hgist

/-- A body that jumps over the push of a number, with line markers where the order has the nodes 4
and 6. -/
def branching (n : Int32) (order : Array Handle) : Body where
  listing := {
    nodes := #[⟨.slot .iload 0, none⟩, ⟨.jump .ifeq 5, none⟩, ⟨.immediate .bipush n, none⟩,
      ⟨.slot .istore 0, none⟩, ⟨.line 7, none⟩, ⟨.label, none⟩, ⟨.line 8, none⟩,
      ⟨.plain .returnVoid, none⟩]
    order := order }

/-- A method with such a body. -/
def branchingMethod (owner : String) : Method where
  owner := owner
  name := "method1"
  descriptor := "(I)V"
  access := .staticFlag

/-- A line marker may stand anywhere in front of a target, and behind it there may be others. -/
theorem fingerprint_branching_eq :
    (branching 10 #[0, 4, 1, 2, 3, 5, 6, 7]).listing.WellFormed ∧
      (branching 11 #[0, 1, 2, 3, 4, 5, 7]).listing.WellFormed ∧
      LeadsToLabels (branching 10 #[0, 4, 1, 2, 3, 5, 6, 7]).listing ∧
      LeadsToLabels (branching 11 #[0, 1, 2, 3, 4, 5, 7]).listing ∧
      gist (branching 10 #[0, 4, 1, 2, 3, 5, 6, 7]).listing =
        gist (branching 11 #[0, 1, 2, 3, 4, 5, 7]).listing ∧
      fingerprint (branchingMethod "a") (branching 10 #[0, 4, 1, 2, 3, 5, 6, 7]) =
        fingerprint (branchingMethod "b") (branching 11 #[0, 1, 2, 3, 4, 5, 7]) := by
  have wf : (branching 10 #[0, 4, 1, 2, 3, 5, 6, 7]).listing.WellFormed := ⟨by decide, by decide⟩
  have wf' : (branching 11 #[0, 1, 2, 3, 4, 5, 7]).listing.WellFormed := ⟨by decide, by decide⟩
  have hlabels : LeadsToLabels (branching 10 #[0, 4, 1, 2, 3, 5, 6, 7]).listing := by
    decide +kernel
  have hlabels' : LeadsToLabels (branching 11 #[0, 1, 2, 3, 4, 5, 7]).listing := by
    decide +kernel
  have hgist : gist (branching 10 #[0, 4, 1, 2, 3, 5, 6, 7]).listing =
      gist (branching 11 #[0, 1, 2, 3, 4, 5, 7]).listing := by
    decide +kernel
  refine ⟨wf, wf', hlabels, hlabels', hgist, ?_⟩
  exact (fingerprint_eq_iff_linesBefore wf wf' hlabels hlabels' rfl hgist).2 (by decide +kernel)

/-- A line marker between a jump and its target changes the fingerprint. -/
theorem fingerprint_branching_ne :
    gist (branching 10 #[0, 1, 2, 3, 4, 5, 7]).listing =
        gist (branching 10 #[0, 1, 2, 3, 5, 7]).listing ∧
      fingerprint (branchingMethod "a") (branching 10 #[0, 1, 2, 3, 4, 5, 7]) ≠
        fingerprint (branchingMethod "b") (branching 10 #[0, 1, 2, 3, 5, 7]) := by
  decide +kernel

end Unscramble.Tidy
