import Unscramble.Body
import Unscramble.Proofs.Lists

/-! # Sequences of handles

What the edits of a listing do to its sequence, and to the part of it that begins at a handle. A
position of a listing is taken as the list of the handles from it on, so that passing a handle is
taking the tail, and taking handles out of the sequence filters every position.

Main definitions: `Listing.WellFormed`, `Listing.onward`. Main statements: `onward_filter`,
`after_filter`, `eq_onward_of_suffix`. -/

namespace Unscramble

/-! ### Lists cut at an element -/

section Lists

variable {α : Type} [DecidableEq α]

/-- A list cut at the first place of an element begins there. -/
theorem dropWhile_bne_append {a : α} {front back : List α} (h : a ∉ front) :
    (front ++ a :: back).dropWhile (· != a) = a :: back := by
  rw [List.dropWhile_append_of_pos]
  · simp
  · intro b hb
    simp only [bne_iff_ne, ne_eq]
    rintro rfl
    exact h hb

/-- Cutting a list at an element that a filter keeps commutes with the filter. -/
theorem dropWhile_bne_filter {a : α} {keep : α → Bool} (ha : keep a = true) (xs : List α) :
    (xs.filter keep).dropWhile (· != a) = (xs.dropWhile (· != a)).filter keep := by
  induction xs with
  | nil => rfl
  | cons x xs ih =>
    by_cases hx : x = a
    · subst hx
      simp [ha]
    · by_cases hk : keep x = true
      · rw [List.filter_cons_of_pos hk, List.dropWhile_cons_of_pos (by simpa using hx), ih,
          List.dropWhile_cons_of_pos (by simpa using hx)]
      · rw [List.filter_cons_of_neg hk, ih, List.dropWhile_cons_of_pos (by simpa using hx)]

omit [DecidableEq α] in
/-- An element of a list without repetitions stands nowhere else in it. -/
theorem not_mem_of_nodup_middle {a : α} {front back : List α} (h : (front ++ a :: back).Nodup) :
    a ∉ front ∧ a ∉ back := by
  have hmiddle : a ∉ front ++ back := (List.nodup_cons.1 (List.nodup_middle.1 h)).1
  simpa using hmiddle

omit [DecidableEq α] in
/-- Two lists without repetitions that end one list and begin with the same element are equal. -/
theorem suffix_unique {xs : List α} (hx : xs.Nodup) {a : α} {s t : List α}
    (hs : a :: s <:+ xs) (ht : a :: t <:+ xs) : s = t := by
  classical
  obtain ⟨u, hu⟩ := hs
  obtain ⟨v, hv⟩ := ht
  have hau : a ∉ u := (not_mem_of_nodup_middle (hu ▸ hx)).1
  have hav : a ∉ v := (not_mem_of_nodup_middle (hv ▸ hx)).1
  have h : a :: s = a :: t := by
    rw [← dropWhile_bne_append hau, hu, ← hv, dropWhile_bne_append hav]
  exact (List.cons.inj h).2

/-- The pairs of a list with its tail are those of neighbours. -/
theorem mem_zip_tail_iff {xs : List α} {a b : α} :
    (a, b) ∈ xs.zip (xs.drop 1) ↔ ∃ front back, xs = front ++ a :: b :: back := by
  -- On the list, where the first pair is made by its first two entries.
  induction xs with
  | nil => simp
  | cons x xs ih =>
    cases xs with
    | nil =>
      constructor
      · intro h
        simp at h
      · rintro ⟨front, back, h⟩
        have hlen := congrArg List.length h
        simp at hlen
        omega
    | cons y xs =>
      rw [List.drop_one, List.tail_cons, List.zip_cons_cons, List.mem_cons]
      rw [List.drop_one, List.tail_cons] at ih
      rw [ih]
      constructor
      · rintro (h | ⟨front, back, h⟩)
        · cases h
          exact ⟨[], xs, rfl⟩
        · exact ⟨x :: front, back, by rw [h, List.cons_append]⟩
      · rintro ⟨front, back, h⟩
        cases front with
        | nil =>
          cases h
          exact .inl rfl
        | cons c front =>
          rw [List.cons_append] at h
          exact .inr ⟨front, back, (List.cons.inj h).2⟩

omit [DecidableEq α] in
/-- The left neighbours of a list are all elements but the last. -/
theorem map_fst_zip_tail (xs : List α) : (xs.zip (xs.drop 1)).map (·.1) = xs.dropLast := by
  induction xs with
  | nil => rfl
  | cons x xs ih =>
    cases xs with
    | nil => rfl
    | cons y xs =>
      rw [List.drop_one, List.tail_cons] at ih
      rw [List.drop_one, List.tail_cons, List.zip_cons_cons, List.map_cons, ih,
        List.dropLast_cons_cons]

end Lists

namespace Listing

variable {l : Listing} {h : Handle}

/-! ### Positions -/

/-- The linked handles from `h` on. -/
def onward (l : Listing) (h : Handle) : List Handle :=
  l.handles.dropWhile (· != h)

/-- A listing as its edits leave it: no handle is linked twice, and every linked handle names a
node. -/
structure WellFormed (l : Listing) : Prop where
  /-- No handle is linked twice. -/
  nodup : l.handles.Nodup
  /-- Every linked handle names a node. -/
  lt_capacity : ∀ h ∈ l.handles, h < l.capacity

/-- A sequence is no longer than there are nodes. -/
theorem WellFormed.length_le {l : Listing} (wf : l.WellFormed) : l.handles.length ≤ l.capacity := by
  have hsub : l.handles.Subperm (List.range l.capacity) :=
    wf.nodup.subperm fun h hh => List.mem_range.2 (wf.lt_capacity h hh)
  simpa using hsub.length_le

/-- What follows a handle is the tail of what begins at it. -/
theorem after_eq_tail (l : Listing) (h : Handle) : l.after h = (l.onward h).tail := by
  rw [← List.drop_one]
  rfl

/-- A position ends the sequence. -/
theorem onward_suffix (l : Listing) (h : Handle) : l.onward h <:+ l.handles :=
  List.dropWhile_suffix _

/-- What follows a handle ends the sequence. -/
theorem after_suffix (l : Listing) (h : Handle) : l.after h <:+ l.handles := by
  rw [after_eq_tail]
  exact (List.tail_suffix _).trans (l.onward_suffix h)

/-- A cut of the sequence in front of the first place of a handle. -/
theorem onward_of_split {front back : List Handle} (hs : l.handles = front ++ h :: back)
    (hf : h ∉ front) : l.onward h = h :: back := by
  rw [onward, hs, dropWhile_bne_append hf]

/-- The position of a linked handle begins with it. -/
theorem onward_eq_cons (hm : h ∈ l.handles) : l.onward h = h :: l.after h := by
  obtain ⟨front, back, hs, hf⟩ := List.eq_append_cons_of_mem hm
  rw [after_eq_tail, onward_of_split hs hf]
  rfl

/-- What is not linked has an empty position. -/
theorem onward_eq_nil (hm : h ∉ l.handles) : l.onward h = [] := by
  rw [onward, List.dropWhile_eq_nil_iff]
  intro a ha
  simp only [bne_iff_ne, ne_eq]
  rintro rfl
  exact hm ha

/-- A position that begins with a handle is the position of that handle. -/
theorem eq_onward_of_suffix (wf : l.WellFormed) {s : List Handle} (hs : h :: s <:+ l.handles) :
    h :: s = l.onward h := by
  have hm : h ∈ l.handles := hs.subset (by simp)
  rw [onward_eq_cons hm]
  rw [suffix_unique wf.nodup hs (onward_eq_cons hm ▸ l.onward_suffix h)]

/-- What follows the head of a position follows that handle. -/
theorem eq_after_of_suffix (wf : l.WellFormed) {s : List Handle} (hs : h :: s <:+ l.handles) :
    s = l.after h := by
  rw [after_eq_tail, ← eq_onward_of_suffix wf hs]
  rfl

/-- The first handle is the head of the sequence. -/
theorem first?_eq_head? (l : Listing) : l.first? = l.handles.head? := by
  rw [first?, handles, List.head?_eq_getElem?, Array.getElem?_toList]

/-- The next handle is the right neighbour. -/
theorem next?_eq_some_iff (wf : l.WellFormed) {n : Handle} :
    l.next? h = some n ↔ ∃ front back, l.handles = front ++ h :: n :: back := by
  constructor
  · intro hn
    have hm : h ∈ l.handles := by
      by_contra hm
      rw [next?, after_eq_tail, onward_eq_nil hm] at hn
      cases hn
    obtain ⟨front, back, hs, hf⟩ := List.eq_append_cons_of_mem hm
    rw [next?, after_eq_tail, onward_of_split hs hf, List.tail_cons] at hn
    cases back with
    | nil => cases hn
    | cons a back =>
      cases hn
      exact ⟨front, back, hs⟩
  · rintro ⟨front, back, hs⟩
    have hsuffix : h :: n :: back <:+ l.handles := ⟨front, hs.symm⟩
    rw [next?, ← eq_after_of_suffix wf hsuffix]
    rfl

/-- The next handle begins what follows. -/
theorem after_eq_onward_of_next? (wf : l.WellFormed) {n : Handle} (hn : l.next? h = some n) :
    l.after h = l.onward n := by
  obtain ⟨front, back, hs⟩ := (next?_eq_some_iff wf).1 hn
  have hsuffix : h :: n :: back <:+ l.handles := ⟨front, hs.symm⟩
  rw [← eq_after_of_suffix wf hsuffix]
  exact eq_onward_of_suffix wf ((List.suffix_cons h _).trans hsuffix)

/-- The next handle is linked. -/
theorem mem_handles_of_next? {n : Handle} (hn : l.next? h = some n) : n ∈ l.handles :=
  (l.after_suffix h).subset (List.mem_of_mem_head? hn)

/-- The position of a handle by its place. -/
theorem onward_eq_drop (wf : l.WellFormed) {i : Nat} (hi : l.handles[i]? = some h) :
    l.onward h = l.handles.drop i := by
  obtain ⟨hlt, hget⟩ := List.getElem?_eq_some_iff.1 hi
  have hdrop : l.handles.drop i = h :: l.handles.drop (i + 1) := by
    rw [List.drop_eq_getElem_cons hlt, hget]
  rw [hdrop]
  exact (eq_onward_of_suffix wf (hdrop ▸ List.drop_suffix i l.handles)).symm

/-- A handle stands at or behind another one if its place is not less. -/
theorem mem_onward_iff (wf : l.WellFormed) {a : Handle} {i j : Nat} (hi : l.handles[i]? = some h)
    (hj : l.handles[j]? = some a) : a ∈ l.onward h ↔ i ≤ j := by
  rw [onward_eq_drop wf hi, List.mem_iff_getElem?]
  constructor
  · rintro ⟨k, hk⟩
    rw [List.getElem?_drop, ← hj] at hk
    have hlt : i + k < l.handles.length := by
      by_contra hge
      rw [List.getElem?_eq_none (Nat.not_lt.1 hge), hj] at hk
      cases hk
    have heq := (List.getElem?_inj hlt wf.nodup).1 hk
    omega
  · intro hle
    exact ⟨j - i, by rw [List.getElem?_drop, Nat.add_sub_cancel' hle, hj]⟩

/-- The table of positions holds the place of each linked handle. -/
theorem getElem?_positions (wf : l.WellFormed) {i : Nat} (hi : l.handles[i]? = some h) :
    l.positions[h]? = some (some i) := by
  have hkeys : (l.handles.zipIdx.map (·.1)) = l.handles := List.zipIdx_map_fst _ _
  have hlt := wf.lt_capacity h (List.mem_of_getElem? hi)
  exact getElem?_foldl_set_of_mem (fun p : Handle × Nat => p.1) (fun p => some p.2)
    (by rw [hkeys]; exact wf.nodup) (i := (h, i)) (List.mem_zipIdx_iff_getElem?.2 hi)
    (Array.replicate l.capacity none) (by rw [Array.size_replicate]; exact hlt)

/-- The table of positions tells where each handle is linked. -/
theorem positionIn_positions (wf : l.WellFormed) {i : Nat} :
    positionIn l.positions h = some i ↔ l.handles[i]? = some h := by
  constructor
  · intro hp
    by_cases hm : h ∈ l.handles
    · obtain ⟨j, hj⟩ := List.mem_iff_getElem?.1 hm
      rw [positionIn, getElem?_positions wf hj] at hp
      cases hp
      exact hj
    · have hkeys : (l.handles.zipIdx.map (·.1)) = l.handles := List.zipIdx_map_fst _ _
      have hnone : l.positions[h]? = (Array.replicate l.capacity none)[h]? :=
        getElem?_foldl_set_of_not_mem (fun p : Handle × Nat => p.1) (fun p => some p.2)
          (by rw [hkeys]; exact hm) _
      rw [positionIn, hnone, Array.getElem?_replicate] at hp
      split at hp <;> cases hp
  · intro hi
    rw [positionIn, getElem?_positions wf hi]
    rfl

/-! ### Edits that only take handles out -/

/-- The listing with only those handles linked that a test keeps. -/
def restrict (l : Listing) (keep : Handle → Bool) : Listing :=
  { l with order := l.order.filter keep }

/-- Keeping some handles keeps their order. -/
@[simp] theorem handles_restrict (l : Listing) (keep : Handle → Bool) :
    (l.restrict keep).handles = l.handles.filter keep := by
  simp [restrict, handles]

/-- Keeping some handles changes no instruction. -/
@[simp] theorem get_restrict (l : Listing) (keep : Handle → Bool) :
    (l.restrict keep).get = l.get := rfl

/-- Taking handles out twice. -/
theorem restrict_restrict (l : Listing) (keep keep' : Handle → Bool) :
    (l.restrict keep).restrict keep' = l.restrict fun h => keep h && keep' h := by
  rw [restrict, restrict, restrict]
  congr 1
  rw [Array.filter_filter]
  congr 1
  funext h
  exact Bool.and_comm _ _

/-- Taking nothing out. -/
theorem restrict_true (l : Listing) : l.restrict (fun _ => true) = l := by
  rw [restrict, Array.filter_eq_self.2 fun _ _ => rfl]

/-- Taking handles out keeps a listing well formed. -/
theorem WellFormed.restrict (wf : l.WellFormed) (keep : Handle → Bool) :
    (l.restrict keep).WellFormed := by
  constructor
  · rw [handles_restrict]
    exact wf.nodup.filter _
  · intro h hm
    rw [handles_restrict] at hm
    exact wf.lt_capacity h (List.mem_of_mem_filter hm)

/-- The position of a handle that stays loses the handles that go. -/
theorem onward_restrict {keep : Handle → Bool} (hk : keep h = true) :
    (l.restrict keep).onward h = (l.onward h).filter keep := by
  rw [onward, handles_restrict, dropWhile_bne_filter hk]
  rfl

/-- What follows a handle that stays loses the handles that go. -/
theorem after_restrict {keep : Handle → Bool} (hk : keep h = true) :
    (l.restrict keep).after h = (l.after h).filter keep := by
  by_cases hm : h ∈ l.handles
  · have hm' : h ∈ (l.restrict keep).handles := by
      rw [handles_restrict, List.mem_filter]
      exact ⟨hm, hk⟩
    have heq : h :: (l.restrict keep).after h = h :: (l.after h).filter keep := by
      rw [← onward_eq_cons hm', onward_restrict hk, onward_eq_cons hm, List.filter_cons_of_pos hk]
    exact (List.cons.inj heq).2
  · rw [after_eq_tail, after_eq_tail, onward_restrict hk, onward_eq_nil hm]
    rfl

/-- Taking one handle out. -/
theorem remove_eq_restrict (wf : l.WellFormed) (h : Handle) :
    l.remove h = l.restrict (· != h) := by
  have hnodup : l.order.toList.Nodup := wf.nodup
  rw [remove, restrict]
  congr 1
  apply Array.toList_inj.1
  rw [Array.toList_erase, Array.toList_filter, hnodup.erase_eq_filter]

/-- Taking handles out one after the other. -/
theorem foldl_remove_eq_restrict (wf : l.WellFormed) (hs : List Handle) :
    hs.foldl remove l = l.restrict fun h => !hs.contains h := by
  induction hs generalizing l with
  | nil => exact (restrict_true l).symm
  | cons a hs ih =>
    rw [List.foldl_cons, remove_eq_restrict wf, ih (wf.restrict _), restrict_restrict]
    congr 1
    funext h
    rw [List.contains_cons, Bool.not_or]
    rfl

/-! ### Editing instructions in place -/

/-- Changing an instruction keeps the order. -/
@[simp] theorem handles_modify (l : Listing) (h : Handle)
    (f : Instruction Label → Instruction Label) : (l.modify h f).handles = l.handles := rfl

/-- Changing an instruction adds no node. -/
@[simp] theorem capacity_modify (l : Listing) (h : Handle)
    (f : Instruction Label → Instruction Label) : (l.modify h f).capacity = l.capacity := by
  rw [capacity, modify, Array.size_modify]
  rfl

/-- Editing an instruction in place changes it. -/
theorem get_modify_self (hlt : h < l.capacity) (f : Instruction Label → Instruction Label) :
    (l.modify h f).get h = f (l.get h) := by
  have hnode : l.nodes[h]? = some l.nodes[h] := Array.getElem?_eq_getElem hlt
  rw [get, get, modify, Array.getElem?_modify, if_pos rfl, hnode]
  rfl

/-- Editing an instruction in place changes no other. -/
theorem get_modify_of_ne {a : Handle} (hne : h ≠ a) (f : Instruction Label → Instruction Label) :
    (l.modify h f).get a = l.get a := by
  rw [get, get, modify, Array.getElem?_modify, if_neg hne]

/-- An edit that leaves labels alone edits the instruction behind its handle, linked or not. -/
theorem get_modify {f : Instruction Label → Instruction Label} (hlabel : f .label = .label)
    (l : Listing) (h a : Handle) :
    (l.modify h f).get a = if h = a then f (l.get a) else l.get a := by
  by_cases hne : h = a
  · subst hne
    rw [if_pos rfl, get, get, modify, Array.getElem?_modify, if_pos rfl]
    cases l.nodes[h]? with
    | none => exact hlabel.symm
    | some node => rfl
  · rw [if_neg hne, get_modify_of_ne hne]

/-- Edits of several instructions leave the sequence alone. -/
@[simp] theorem handles_foldl_modify (f : Instruction Label → Instruction Label)
    (hs : List Handle) (l : Listing) :
    (hs.foldl (fun l h => l.modify h f) l).handles = l.handles := by
  induction hs generalizing l with
  | nil => rfl
  | cons h hs ih => rw [List.foldl_cons, ih, handles_modify]

/-- Edits of different instructions edit each of them once. -/
theorem get_foldl_modify {f : Instruction Label → Instruction Label} (hlabel : f .label = .label)
    {hs : List Handle} (hnodup : hs.Nodup) (l : Listing) (a : Handle) :
    (hs.foldl (fun l h => l.modify h f) l).get a = if a ∈ hs then f (l.get a) else l.get a := by
  induction hs generalizing l with
  | nil => simp
  | cons h hs ih =>
    obtain ⟨hh, hnodup⟩ := List.nodup_cons.1 hnodup
    rw [List.foldl_cons, ih hnodup, get_modify hlabel]
    by_cases ha : h = a
    · subst ha
      rw [if_neg hh, if_pos rfl, if_pos List.mem_cons_self]
    · rw [if_neg ha]
      simp [Ne.symm ha]

end Listing

end Unscramble
