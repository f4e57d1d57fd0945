import Mathlib
import Unscramble.Flow.Search

/-! # Searches find what can be reached

The searches of a graph on the numbers below a bound mark the numbers that the start leads to, and
list them once each, the root first.

Main definition: `Reached`. Main statements: `isMarked_reachable_iff`, `nodup_finishOrder`,
`mem_finishOrder_of_reached`, `nodup_breadthOrder`, `mem_breadthOrder_iff`, `breadthOrder_congr`. -/

namespace Unscramble.Flow

/-- A number below `size` that the numbers in `start` lead to through numbers below `size`. -/
inductive Reached (next : Nat → List Nat) (size : Nat) (start : List Nat) : Nat → Prop
  /-- The search starts here. -/
  | start {v : Nat} (mem : v ∈ start) (lt : v < size) : Reached next size start v
  /-- The search goes on from a number it reached. -/
  | step {v w : Nat} (reached : Reached next size start v) (mem : w ∈ next v) (lt : w < size) :
      Reached next size start w

/-- What is reached is below the bound. -/
theorem Reached.lt {next : Nat → List Nat} {size : Nat} {start : List Nat} {v : Nat}
    (h : Reached next size start v) : v < size := by
  cases h with
  | start _ lt => exact lt
  | step _ _ lt => exact lt

/-! ### Marks -/

/-- A number is marked if its mark is set. -/
theorem isMarked_iff {marks : Array Bool} {v : Nat} :
    isMarked marks v = true ↔ marks[v]? = some true := by
  simp [isMarked]

/-- No number is marked at first. -/
@[simp] theorem isMarked_replicate (size v : Nat) :
    isMarked (Array.replicate size false) v = false := by
  simp [isMarked, Array.getElem?_replicate]

/-- A mark that is set, or was there before. -/
theorem isMarked_set {marks : Array Bool} {u v : Nat} (hu : u < marks.size) :
    isMarked (marks.set u true hu) v = true ↔ v = u ∨ isMarked marks v = true := by
  rw [isMarked_iff, isMarked_iff, Array.getElem?_set hu]
  by_cases h : u = v
  · subst h
    simp
  · rw [if_neg h]
    exact ⟨Or.inr, fun h' => h'.resolve_left fun e => h e.symm⟩

/-- A number is not marked if and only if the search still has to visit it. -/
theorem unseen_iff {seen : Array Bool} {v : Nat} :
    (∃ h : v < seen.size, seen[v] = false) ↔ v < seen.size ∧ isMarked seen v = false := by
  constructor
  · rintro ⟨h, hv⟩
    refine ⟨h, ?_⟩
    rw [isMarked, Array.getElem?_eq_getElem h, hv]
    rfl
  · rintro ⟨h, hv⟩
    refine ⟨h, ?_⟩
    rw [isMarked, Array.getElem?_eq_getElem h] at hv
    simpa using hv

/-- The marks set for a list are those of its members below the bound. -/
theorem isMarked_mark {size v : Nat} {numbers : List Nat} :
    isMarked (mark size numbers) v = true ↔ v ∈ numbers ∧ v < size := by
  -- On the numbers, for whatever marks there are.
  have hfold : ∀ marks : Array Bool,
      isMarked (numbers.foldl (fun marks v => marks.setIfInBounds v true) marks) v = true ↔
        isMarked marks v = true ∨ v ∈ numbers ∧ v < marks.size := by
    induction numbers with
    | nil => simp
    | cons n numbers ih =>
      intro marks
      rw [List.foldl_cons, ih]
      by_cases hn : n < marks.size
      · rw [Array.setIfInBounds_def, dif_pos hn, isMarked_set, Array.size_set, List.mem_cons]
        constructor
        · rintro ((rfl | h) | ⟨h, hv⟩)
          · exact .inr ⟨.inl rfl, hn⟩
          · exact .inl h
          · exact .inr ⟨.inr h, hv⟩
        · rintro (h | ⟨rfl | h, hv⟩)
          · exact .inl (.inr h)
          · exact .inl (.inl rfl)
          · exact .inr ⟨h, hv⟩
      · rw [Array.setIfInBounds_def, dif_neg hn, List.mem_cons]
        constructor
        · rintro (h | ⟨h, hv⟩)
          · exact .inl h
          · exact .inr ⟨.inr h, hv⟩
        · rintro (h | ⟨rfl | h, hv⟩)
          · exact .inl h
          · exact absurd hv hn
          · exact .inr ⟨h, hv⟩
  rw [mark, hfold]
  simp

/-- There is a mark for each number below the bound. -/
@[simp] theorem size_mark (size : Nat) (numbers : List Nat) : (mark size numbers).size = size := by
  have hfold : ∀ marks : Array Bool,
      (numbers.foldl (fun marks v => marks.setIfInBounds v true) marks).size = marks.size := by
    induction numbers with
    | nil => exact fun _ => rfl
    | cons n numbers ih =>
      intro marks
      rw [List.foldl_cons, ih, Array.size_setIfInBounds]
  rw [mark, hfold, Array.size_replicate]

/-! ### Marking what can be reached -/

variable {next : Nat → List Nat}

/-- A mark that a search finds was there before, or holds of a number that the work leads to. -/
theorem explore_sound {work : List Nat} {seen : Array Bool} {p : Nat → Prop}
    (hwork : ∀ v ∈ work, v < seen.size → p v)
    (hstep : ∀ v w, p v → w ∈ next v → w < seen.size → p w) {v : Nat}
    (hv : isMarked (explore next work seen) v = true) : isMarked seen v = true ∨ p v := by
  fun_induction explore next work seen with
  | case1 seen => exact .inl hv
  | case2 seen u rest h ih =>
    have hu : p u := hwork u (by simp) h.1
    rcases ih (by
        intro w hw hlt
        rw [Array.size_set] at hlt
        rcases List.mem_append.1 hw with hw | hw
        · exact hstep u w hu hw hlt
        · exact hwork w (by simp [hw]) hlt)
      (by
        intro a b ha hb hlt
        rw [Array.size_set] at hlt
        exact hstep a b ha hb hlt) hv with h' | h'
    · rcases (isMarked_set h.1).1 h' with rfl | h'
      · exact .inr hu
      · exact .inl h'
    · exact .inr h'
  | case3 seen u rest h ih =>
    exact ih (fun w hw => hwork w (by simp [hw])) hstep hv

/-- A search keeps the marks, marks its work, and follows every number that it marks. -/
theorem explore_complete (next : Nat → List Nat) (work : List Nat) (seen : Array Bool) :
    (explore next work seen).size = seen.size ∧
      (∀ v, isMarked seen v = true → isMarked (explore next work seen) v = true) ∧
      (∀ v ∈ work, v < seen.size → isMarked (explore next work seen) v = true) ∧
      ∀ v, isMarked (explore next work seen) v = true → isMarked seen v = false →
        ∀ w ∈ next v, w < seen.size → isMarked (explore next work seen) w = true := by
  -- On the course of the search: nothing waiting, a new number or one that is marked.
  fun_induction explore next work seen with
  | case1 seen =>
    refine ⟨rfl, fun _ h => h, by simp, ?_⟩
    intro v hv hv'
    rw [hv'] at hv
    cases hv
  | case2 seen u rest h ih =>
    obtain ⟨hsize, hkeep, hwork, hclosed⟩ := ih
    rw [Array.size_set] at hsize hwork hclosed
    have hu : isMarked (explore next (next u ++ rest) (seen.set u true h.1)) u = true :=
      hkeep u ((isMarked_set h.1).2 (.inl rfl))
    refine ⟨hsize, ?_, ?_, ?_⟩
    · intro v hv
      exact hkeep v ((isMarked_set h.1).2 (.inr hv))
    · intro v hv hlt
      rcases List.mem_cons.1 hv with rfl | hv
      · exact hu
      · exact hwork v (by simp [hv]) hlt
    -- What the new number leads to is among what waits; for other new marks it holds of the rest of
    -- the search.
    · intro v hv hv' w hw hlt
      by_cases hvu : v = u
      · subst hvu
        exact hwork w (by simp [hw]) hlt
      · refine hclosed v hv ?_ w hw hlt
        rw [← Bool.not_eq_true, isMarked_set]
        rintro (h' | h')
        · exact hvu h'
        · rw [hv'] at h'
          cases h'
  | case3 seen u rest h ih =>
    obtain ⟨hsize, hkeep, hwork, hclosed⟩ := ih
    refine ⟨hsize, hkeep, ?_, hclosed⟩
    intro v hv hlt
    rcases List.mem_cons.1 hv with rfl | hv
    · apply hkeep
      rw [unseen_iff] at h
      by_contra hv'
      exact h ⟨hlt, by simpa using hv'⟩
    · exact hwork v hv hlt

/-- The search marks exactly what the start leads to. -/
theorem isMarked_reachable_iff {size : Nat} {start : List Nat} {v : Nat} :
    isMarked (reachable next size start) v = true ↔ Reached next size start v := by
  rw [reachable]
  constructor
  · intro hv
    have hsound := explore_sound (p := Reached next size start)
      (fun w hw hlt => .start hw (by simpa using hlt))
      (fun a b ha hb hlt => .step ha hb (by simpa using hlt)) hv
    rw [isMarked_replicate] at hsound
    exact hsound.resolve_left (by simp)
  · intro hv
    obtain ⟨-, -, hwork, hclosed⟩ :=
      explore_complete next start (Array.replicate size false)
    rw [Array.size_replicate] at hwork hclosed
    induction hv with
    | start mem lt => exact hwork _ mem lt
    | step _ mem lt ih => exact hclosed _ ih (isMarked_replicate _ _) _ mem lt

/-! ### Listing in the order of finishing -/

/-- A depth-first search under way: what is marked is finished or on the stack, once, and what a
number leads to is marked unless the number still has to visit it. -/
structure Searching (next : Nat → List Nat) (stack : List (Nat × List Nat)) (seen : Array Bool)
    (done : List Nat) : Prop where
  /-- What is marked is finished or on the stack. -/
  marked : ∀ v, isMarked seen v = true ↔ v ∈ done ∨ v ∈ stack.map (·.1)
  /-- Nothing is finished or on the stack twice. -/
  nodup : (stack.map (·.1) ++ done).Nodup
  /-- Everything that a finished number leads to is marked. -/
  finished : ∀ v ∈ done, ∀ w ∈ next v, w < seen.size → isMarked seen w = true
  /-- Everything that a number on the stack leads to is marked or still to be visited. -/
  pending : ∀ f ∈ stack, ∀ w ∈ next f.1, w < seen.size → isMarked seen w = true ∨ w ∈ f.2

namespace Searching

variable {stack rest : List (Nat × List Nat)} {seen : Array Bool} {done cs : List Nat} {v c : Nat}

/-- A number without anything left to visit is finished. -/
theorem pop (h : Searching next ((v, []) :: rest) seen done) :
    Searching next rest seen (v :: done) := by
  refine ⟨?_, ?_, ?_, ?_⟩
  · intro u
    rw [h.marked u, List.map_cons, List.mem_cons, List.mem_cons]
    tauto
  · exact (List.nodup_middle).2 h.nodup
  · intro u hu w hw hlt
    rcases List.mem_cons.1 hu with rfl | hu
    · exact (h.pending (u, []) (by simp) w hw hlt).resolve_right (by simp)
    · exact h.finished u hu w hw hlt
  · intro f hf
    exact h.pending f (by simp [hf])

/-- A number that is visited for the first time joins the stack. -/
theorem push (h : Searching next ((v, c :: cs) :: rest) seen done) (hc : c < seen.size)
    (hnew : isMarked seen c = false) :
    Searching next ((c, next c) :: (v, cs) :: rest) (seen.set c true hc) done := by
  -- What is not marked is neither listed nor on the stack.
  have hfresh : c ∉ done ∧ c ∉ ((v, c :: cs) :: rest).map (·.1) := by
    rw [← not_or, ← h.marked c, hnew]
    simp
  refine ⟨?_, ?_, ?_, ?_⟩
  · intro u
    rw [isMarked_set, h.marked u]
    simp only [List.map_cons, List.mem_cons]
    tauto
  · rw [List.map_cons, List.cons_append, List.nodup_cons]
    refine ⟨?_, h.nodup⟩
    rw [List.mem_append, not_or]
    exact ⟨hfresh.2, hfresh.1⟩
  · intro u hu w hw hlt
    rw [Array.size_set] at hlt
    exact (isMarked_set hc).2 (.inr (h.finished u hu w hw hlt))
  · intro f hf w hw hlt
    rw [Array.size_set] at hlt
    rw [isMarked_set]
    rcases List.mem_cons.1 hf with rfl | hf
    · exact .inr hw
    -- What a number on the stack leads to is marked or has still to be looked at.
    · rcases List.mem_cons.1 hf with rfl | hf
      · rcases h.pending (v, c :: cs) (by simp) w hw hlt with hw | hw
        · exact .inl (.inr hw)
        · rcases List.mem_cons.1 hw with rfl | hw
          · exact .inl (.inl rfl)
          · exact .inr hw
      · rcases h.pending f (by simp [hf]) w hw hlt with hw | hw
        · exact .inl (.inr hw)
        · exact .inr hw

/-- A number that was visited before is passed over. -/
theorem pass (h : Searching next ((v, c :: cs) :: rest) seen done)
    (hold : c < seen.size → isMarked seen c = true) :
    Searching next ((v, cs) :: rest) seen done := by
  refine ⟨h.marked, h.nodup, h.finished, ?_⟩
  intro f hf w hw hlt
  rcases List.mem_cons.1 hf with rfl | hf
  · rcases h.pending (v, c :: cs) (by simp) w hw hlt with hw | hw
    · exact .inl hw
    · rcases List.mem_cons.1 hw with rfl | hw
      · exact .inl (hold hlt)
      · exact .inr hw
  · exact h.pending f (by simp [hf]) w hw hlt

/-- When the search ends, what it lists is listed once and is closed under what it leads to. -/
theorem finish_spec (h : Searching next stack seen done) :
    (finish next stack seen done).Nodup ∧
      (∀ v, isMarked seen v = true → v ∈ finish next stack seen done) ∧
      ∀ v ∈ finish next stack seen done, ∀ w ∈ next v, w < seen.size →
        w ∈ finish next stack seen done := by
  fun_induction finish next stack seen done with
  | case1 seen done =>
    refine ⟨by simpa using h.nodup, ?_, ?_⟩
    · intro v hv
      simpa using (h.marked v).1 hv
    · intro v hv w hw hlt
      simpa using (h.marked w).1 (h.finished v hv w hw hlt)
  | case2 seen done v rest ih => exact ih h.pop
  | case3 seen done v c cs rest hc ih =>
    obtain ⟨hnodup, hmarked, hclosed⟩ := ih (h.push hc.1 (unseen_iff.1 hc).2)
    rw [Array.size_set] at hclosed
    exact ⟨hnodup, fun u hu => hmarked u ((isMarked_set hc.1).2 (.inr hu)), hclosed⟩
  | case4 seen done v c cs rest hc ih =>
    refine ih (h.pass ?_)
    intro hlt
    rw [unseen_iff] at hc
    by_contra hm
    exact hc ⟨hlt, by simpa using hm⟩

end Searching

/-- A number on the stack is listed in front of everything that is finished before it. -/
theorem finish_append (next : Nat → List Nat) (top : List (Nat × List Nat)) (v : Nat) (cs : List Nat)
    (below : List (Nat × List Nat)) (seen : Array Bool) (done : List Nat) :
    ∃ seen' done', finish next (top ++ (v, cs) :: below) seen done =
      finish next below seen' (v :: done') := by
  -- On the course of the search, for every stack in front; whatever the step, the number below
  -- stays where it is.
  generalize hstack : top ++ (v, cs) :: below = stack
  fun_induction finish next stack seen done generalizing top cs with
  | case1 seen done => simp at hstack
  | case2 seen done u rest ih =>
    cases top with
    | nil =>
      cases hstack
      exact ⟨seen, done, rfl⟩
    | cons f top =>
      cases hstack
      exact ih top cs rfl
  | case3 seen done u c us rest hc ih =>
    cases top with
    | nil =>
      cases hstack
      exact ih [(c, next c)] us rfl
    | cons f top =>
      cases hstack
      exact ih ((c, next c) :: (u, us) :: top) cs rfl
  | case4 seen done u c us rest hc ih =>
    cases top with
    | nil =>
      cases hstack
      exact ih [] us rfl
    | cons f top =>
      cases hstack
      exact ih ((u, us) :: top) cs rfl

variable {size root : Nat}

/-- The search starts with the root on the stack. -/
theorem searching_root (next : Nat → List Nat) (hroot : root < size) :
    Searching next [(root, next root)] (mark size [root]) [] := by
  refine ⟨?_, by simp, by simp, ?_⟩
  · intro v
    rw [isMarked_mark]
    simp only [List.mem_singleton, List.not_mem_nil, List.map_cons, List.map_nil, false_or]
    constructor
    · exact fun h => h.1
    · rintro rfl
      exact ⟨rfl, hroot⟩
  · intro f hf w hw _
    rw [List.mem_singleton.1 hf] at hw ⊢
    exact .inr hw

/-- No number is listed twice. -/
theorem nodup_finishOrder (hroot : root < size) : (finishOrder next size root).Nodup :=
  (searching_root next hroot).finish_spec.1

/-- Everything that the root leads to is listed. -/
theorem mem_finishOrder_of_reached (hroot : root < size) {v : Nat}
    (hv : Reached next size [root] v) : v ∈ finishOrder next size root := by
  obtain ⟨-, hmarked, hclosed⟩ := (searching_root next hroot).finish_spec
  rw [size_mark] at hclosed
  induction hv with
  | start mem lt => exact hmarked _ (isMarked_mark.2 ⟨mem, lt⟩)
  | step _ mem lt ih => exact hclosed _ ih _ mem lt

/-- The root is listed first. -/
theorem finishOrder_eq_cons : ∃ rest, finishOrder next size root = root :: rest := by
  obtain ⟨seen, done, h⟩ := finish_append next [] root (next root) []
    (mark size [root]) []
  rw [List.nil_append, finish] at h
  exact ⟨done, h⟩

/-- If the root leads to one other number only, that number is listed next. -/
theorem finishOrder_eq_cons_cons {c : Nat} (hnext : next root = [c]) (hc : c < size)
    (hne : c ≠ root) : ∃ rest, finishOrder next size root = root :: c :: rest := by
  have hnew : ∃ h : c < (mark size [root]).size, (mark size [root])[c] = false := by
    rw [unseen_iff, size_mark]
    refine ⟨hc, ?_⟩
    rw [← Bool.not_eq_true, isMarked_mark]
    simp [hne]
  obtain ⟨seen, done, h⟩ := finish_append next [] c (next c) [(root, [])]
    ((mark size [root]).set c true hnew.1) []
  refine ⟨done, ?_⟩
  rw [finishOrder, hnext, finish, dif_pos hnew, ← List.nil_append ((c, next c) :: _), h, finish,
    finish]

/-! ### Breadth-first -/

section Breadth

variable {next : Nat → List Nat} {size root : Nat}

/-- A search lists what it has visited before what it is still to visit. -/
theorem breadth_append (next : Nat → List Nat) (queue : List Nat) (seen : Array Bool) (done : List Nat) :
    ∃ rest, breadth next queue seen done = done.reverse ++ rest := by
  fun_induction breadth next queue seen done with
  | case1 seen done => exact ⟨[], (List.append_nil _).symm⟩
  | case2 seen done v _ h ih =>
    obtain ⟨rest, hrest⟩ := ih
    exact ⟨v :: rest, by rw [hrest, List.reverse_cons, List.append_assoc, List.singleton_append]⟩
  | case3 seen done v _ h ih => exact ih

/-- The root is listed first. -/
theorem breadthOrder_eq_cons (next : Nat → List Nat) (hroot : root < size) :
    ∃ rest, breadthOrder next size root = root :: rest := by
  have hnew : ∃ h : root < (Array.replicate size false).size,
      (Array.replicate size false)[root] = false := ⟨by simpa using hroot, by simp⟩
  obtain ⟨rest, hrest⟩ := breadth_append next ([] ++ next root)
    ((Array.replicate size false).set root true hnew.1) [root]
  exact ⟨rest, by rw [breadthOrder, breadth, dif_pos hnew, hrest]; rfl⟩

/-- If the root leads nowhere, it is listed alone. -/
theorem breadthOrder_eq_singleton (hroot : root < size) (hnext : next root = []) :
    breadthOrder next size root = [root] := by
  have hnew : ∃ h : root < (Array.replicate size false).size,
      (Array.replicate size false)[root] = false := ⟨by simpa using hroot, by simp⟩
  rw [breadthOrder, breadth, dif_pos hnew, hnext, List.append_nil, breadth, List.reverse_singleton]

/-- What is listed has a property that what is listed or waiting has and that goes on to all that it
leads to. -/
theorem breadth_sound {queue : List Nat} {seen : Array Bool} {done : List Nat} {P : Nat → Prop}
    (hdone : ∀ v ∈ done, P v) (hqueue : ∀ v ∈ queue, v < seen.size → P v)
    (hstep : ∀ v w, P v → w ∈ next v → w < seen.size → P w) {v : Nat}
    (hv : v ∈ breadth next queue seen done) : P v := by
  fun_induction breadth next queue seen done with
  | case1 seen done => exact hdone v (List.mem_reverse.1 hv)
  | case2 seen done u rest h ih =>
    have hu : P u := hqueue u List.mem_cons_self h.1
    rw [Array.size_set] at ih
    refine ih ?_ ?_ hstep hv
    · exact List.forall_mem_cons.2 ⟨hu, hdone⟩
    · intro w hw hlt
      rcases List.mem_append.1 hw with hw | hw
      · exact hqueue w (List.mem_cons_of_mem _ hw) hlt
      · exact hstep u w hu hw hlt
  | case3 seen done u rest h ih =>
    exact ih hdone (fun w hw => hqueue w (List.mem_cons_of_mem _ hw)) hstep hv

/-- A breadth-first search under way: what is marked is listed, once, and what a listed number leads
to is listed or waiting. -/
structure Widening (next : Nat → List Nat) (queue : List Nat) (seen : Array Bool)
    (done : List Nat) : Prop where
  /-- What is marked is listed. -/
  marked : ∀ v, isMarked seen v = true ↔ v ∈ done
  /-- Nothing is listed twice. -/
  nodup : done.Nodup
  /-- Everything that a listed number leads to is listed or waiting. -/
  pending : ∀ v ∈ done, ∀ w ∈ next v, w < seen.size → w ∈ done ∨ w ∈ queue

namespace Widening

variable {queue done : List Nat} {seen : Array Bool} {v : Nat}

/-- A number that is visited for the first time is listed. -/
theorem visit (h : Widening next (v :: queue) seen done) (hv : v < seen.size)
    (hnew : isMarked seen v = false) :
    Widening next (queue ++ next v) (seen.set v true hv) (v :: done) := by
  refine ⟨?_, ?_, ?_⟩
  · intro u
    rw [isMarked_set, h.marked u, List.mem_cons]
  · refine List.nodup_cons.2 ⟨?_, h.nodup⟩
    rw [← h.marked v, hnew]
    exact Bool.false_ne_true
  · intro u hu w hw hlt
    rw [Array.size_set] at hlt
    rw [List.mem_cons, List.mem_append]
    rcases List.mem_cons.1 hu with rfl | hu
    · exact .inr (.inr hw)
    · rcases h.pending u hu w hw hlt with hw | hw
      · exact .inl (.inr hw)
      · rcases List.mem_cons.1 hw with rfl | hw
        · exact .inl (.inl rfl)
        · exact .inr (.inl hw)

/-- A number that was visited before is passed over. -/
theorem pass (h : Widening next (v :: queue) seen done)
    (hold : v < seen.size → isMarked seen v = true) : Widening next queue seen done := by
  refine ⟨h.marked, h.nodup, ?_⟩
  intro u hu w hw hlt
  rcases h.pending u hu w hw hlt with hw | hw
  · exact .inl hw
  · rcases List.mem_cons.1 hw with rfl | hw
    · exact .inl ((h.marked w).1 (hold hlt))
    · exact .inr hw

/-- When the search ends, what it lists is listed once, with what was listed or waiting, and is
closed under what it leads to. -/
theorem breadth_spec (h : Widening next queue seen done) :
    (breadth next queue seen done).Nodup ∧
      (∀ v, v ∈ done ∨ v ∈ queue → v < seen.size → v ∈ breadth next queue seen done) ∧
      ∀ v ∈ breadth next queue seen done, ∀ w ∈ next v, w < seen.size →
        w ∈ breadth next queue seen done := by
  -- On the course of the search: each step keeps the invariant, which at the end says what is
  -- asked.
  fun_induction breadth next queue seen done with
  | case1 seen done =>
    refine ⟨List.nodup_reverse.2 h.nodup, ?_, ?_⟩
    · intro v hv _
      exact List.mem_reverse.2 (hv.resolve_right List.not_mem_nil)
    · intro v hv w hw hlt
      rw [List.mem_reverse] at hv ⊢
      exact (h.pending v hv w hw hlt).resolve_right List.not_mem_nil
  | case2 seen done u rest hu ih =>
    obtain ⟨hnodup, hlisted, hclosed⟩ := ih (h.visit hu.1 (unseen_iff.1 hu).2)
    rw [Array.size_set] at hlisted hclosed
    refine ⟨hnodup, ?_, hclosed⟩
    intro v hv hlt
    refine hlisted v ?_ hlt
    rw [List.mem_cons, List.mem_append]
    rcases hv with hv | hv
    · exact .inl (.inr hv)
    · rcases List.mem_cons.1 hv with rfl | hv
      · exact .inl (.inl rfl)
      · exact .inr (.inl hv)
  | case3 seen done u rest hu ih =>
    have hold : u < seen.size → isMarked seen u = true := by
      intro hlt
      rw [unseen_iff] at hu
      by_contra hm
      exact hu ⟨hlt, by simpa using hm⟩
    obtain ⟨hnodup, hlisted, hclosed⟩ := ih (h.pass hold)
    refine ⟨hnodup, ?_, hclosed⟩
    intro v hv hlt
    refine hlisted v ?_ hlt
    rcases hv with hv | hv
    · exact .inl hv
    · rcases List.mem_cons.1 hv with rfl | hv
      · exact .inl ((h.marked v).1 (hold hlt))
      · exact .inr hv

end Widening

/-- The search starts with the root waiting. -/
theorem widening_root (next : Nat → List Nat) (size root : Nat) :
    Widening next [root] (Array.replicate size false) [] := by
  refine ⟨?_, List.nodup_nil, by simp⟩
  intro v
  rw [isMarked_replicate]
  simp

/-- No number is listed twice. -/
theorem nodup_breadthOrder (next : Nat → List Nat) (size root : Nat) :
    (breadthOrder next size root).Nodup :=
  (widening_root next size root).breadth_spec.1

/-- What the root leads to is listed, and nothing else. -/
theorem mem_breadthOrder_iff {v : Nat} :
    v ∈ breadthOrder next size root ↔ Reached next size [root] v := by
  constructor
  · intro hv
    refine breadth_sound (P := Reached next size [root]) (by simp) ?_ ?_ hv
    · intro w hw hlt
      rw [Array.size_replicate] at hlt
      exact .start hw hlt
    · intro u w hu hw hlt
      rw [Array.size_replicate] at hlt
      exact .step hu hw hlt
  · intro hv
    obtain ⟨-, hlisted, hclosed⟩ := (widening_root next size root).breadth_spec
    rw [Array.size_replicate] at hlisted hclosed
    induction hv with
    | start mem lt => exact hlisted _ (.inr mem) lt
    | step _ mem lt ih => exact hclosed _ ih _ mem lt

/-- Everything that is listed is the root or a successor. -/
theorem mem_breadthOrder {v : Nat} (hv : v ∈ breadthOrder next size root) :
    v = root ∨ ∃ u, v ∈ next u := by
  cases mem_breadthOrder_iff.1 hv with
  | start mem => exact .inl (List.mem_singleton.1 mem)
  | step _ mem => exact .inr ⟨_, mem⟩

/-- Numbers that nothing waiting leads to do not matter to a search. -/
theorem breadth_congr {next' : Nat → List Nat} {n : Nat} (hnext : ∀ v < n, next' v = next v)
    (hclosed : ∀ v < n, ∀ w ∈ next v, w < n) {queue : List Nat} {seen seen' : Array Bool}
    {done : List Nat} (hqueue : ∀ v ∈ queue, v < n) (hseen : ∀ v < n, seen'[v]? = seen[v]?) :
    breadth next' queue seen' done = breadth next queue seen done := by
  have hunseen : ∀ {seen : Array Bool} {v : Nat},
      (∃ h : v < seen.size, seen[v] = false) ↔ seen[v]? = some false := by
    intro seen v
    rw [Array.getElem?_eq_some_iff]
  -- On the course of the search, which never leaves the numbers below the bound.
  fun_induction breadth next queue seen done generalizing seen' with
  | case1 seen done => rw [breadth]
  | case2 seen done v rest h ih =>
    have hv := hqueue v List.mem_cons_self
    have hnew : ∃ h : v < seen'.size, seen'[v] = false := by
      rw [hunseen, hseen v hv]
      exact hunseen.1 h
    rw [breadth, dif_pos hnew, hnext v hv]
    refine ih ?_ ?_
    · intro w hw
      rcases List.mem_append.1 hw with hw | hw
      · exact hqueue w (List.mem_cons_of_mem _ hw)
      · exact hclosed v hv w hw
    · intro w hw
      rw [Array.getElem?_set, Array.getElem?_set, hseen w hw]
  | case3 seen done v rest h ih =>
    have hold : ¬∃ h : v < seen'.size, seen'[v] = false := by
      rw [hunseen, hseen v (hqueue v List.mem_cons_self)]
      exact fun hnew => h (hunseen.2 hnew)
    rw [breadth, dif_neg hold]
    exact ih (fun w hw => hqueue w (List.mem_cons_of_mem _ hw)) hseen

/-- A bound on what the root leads to may take the place of any larger one. -/
theorem breadthOrder_congr {next' : Nat → List Nat} {size' : Nat} (hsize : size ≤ size')
    (hnext : ∀ v < size, next' v = next v) (hclosed : ∀ v < size, ∀ w ∈ next v, w < size)
    (hroot : root < size) : breadthOrder next' size' root = breadthOrder next size root := by
  refine breadth_congr hnext hclosed ?_ ?_
  · intro v hv
    rwa [List.mem_singleton.1 hv]
  · intro v hv
    rw [Array.getElem?_replicate, Array.getElem?_replicate, if_pos hv,
      if_pos (hv.trans_le hsize)]

end Breadth

end Unscramble.Flow
