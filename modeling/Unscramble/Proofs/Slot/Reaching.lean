import Unscramble.Proofs.Listing
import Unscramble.Proofs.Search
import Unscramble.Slot.Reaching

/-! # Stores along paths

A path of a body is told by the instructions that control passed, the latest first. The store that a
load reads from along a path is the last one on it that writes the slot, and the marks of a load's
sources find it whatever the path.

Main definitions: `Step`, `Path`, `lastStore?`. Main statements: `isMarked_sources_of_path`,
`isMarked_sources_entry`. -/

namespace Unscramble.Slot

/-! ### Paths -/

/-- A range protects an instruction: it stands at or behind the start of the range, and in front of
its end if the end follows the start. -/
def Protects (l : Listing) (g : Guard Label) (h : Handle) : Prop :=
  h ∈ l.onward g.start ∧ (g.stop ∈ l.onward g.start → h ∉ l.onward g.stop)

/-- Control can go from one instruction to another. -/
inductive Step (b : Body) (h n : Handle) : Prop
  /-- Past an instruction that is not terminal. -/
  | pass (running : (b.listing.get h).isTerminal = false) (next : b.listing.next? h = some n)
  /-- To a target. -/
  | target (mem : n ∈ (b.listing.get h).targets) (linked : n ∈ b.listing.handles)
  /-- From a protected instruction to the handler. -/
  | caught (g : Guard Label) (mem : g ∈ b.guards) (protects : Protects b.listing g h)
      (handler : g.handler = n) (linked : n ∈ b.listing.handles)

/-- Control comes from the entry to an instruction past others, which are listed with the latest
first. -/
inductive Path (b : Body) : List Handle → Handle → Prop
  /-- Control enters. -/
  | entry {h : Handle} (first : b.listing.first? = some h) : Path b [] h
  /-- Control goes on. -/
  | step {passed : List Handle} {h n : Handle} (path : Path b passed h) (step : Step b h n) :
      Path b (h :: passed) n

/-- The last of the passed instructions that writes a slot. -/
def lastStore? (l : Listing) (slot : UInt16) (passed : List Handle) : Option Handle :=
  passed.find? fun h => (l.get h).stored? == some slot

variable {b : Body} {passed : List Handle} {h n : Handle}

/-- A path leads to linked instructions. -/
theorem Path.linked (path : Path b passed h) : h ∈ b.listing.handles := by
  cases path with
  | entry first =>
    rw [Listing.first?_eq_head?] at first
    exact List.mem_of_mem_head? first
  | step _ step =>
    cases step with
    | pass _ next => exact Listing.mem_handles_of_next? next
    | target _ linked => exact linked
    | caught _ _ _ _ linked => exact linked

/-- A path passes linked instructions. -/
theorem Path.passed_linked (path : Path b passed h) : ∀ a ∈ passed, a ∈ b.listing.handles := by
  induction path with
  | entry first => simp
  | @step passed h n path _ ih =>
    intro a ha
    rcases List.mem_cons.1 ha with rfl | ha
    · exact path.linked
    · exact ih a ha

/-! ### Edges of the flow graph -/

variable {i j : Nat}

/-- The next handle stands at the next place. -/
theorem getElem?_of_next? (wf : b.listing.WellFormed) (hn : b.listing.next? h = some n)
    (hi : b.listing.handles[i]? = some h) : b.listing.handles[i + 1]? = some n := by
  rw [Listing.next?, Listing.after_eq_tail, Listing.onward_eq_drop wf hi, List.tail_drop,
    List.head?_drop] at hn
  exact hn

/-- The points of a range are those of the instructions that it protects. -/
theorem mem_guardedPoints (wf : b.listing.WellFormed) {g : Guard Label}
    (hp : Protects b.listing g h) (hi : b.listing.handles[i]? = some h) :
    i + 1 ∈ guardedPoints b.listing.positions b.listing.length g := by
  obtain ⟨hstart, hstop⟩ := hp
  have hm : g.start ∈ b.listing.handles := by
    by_contra hm
    rw [Listing.onward_eq_nil hm] at hstart
    cases hstart
  obtain ⟨first, hfirst⟩ := List.mem_iff_getElem?.1 hm
  have hle : first ≤ i := (Listing.mem_onward_iff wf hfirst hi).1 hstart
  have hlength : i < b.listing.length := (List.getElem?_eq_some_iff.1 hi).1
  have hrange : ∀ stop, i < stop → i + 1 ∈ (List.range (stop - first)).map (· + first + 1) := by
    intro stop hlt
    refine List.mem_map.2 ⟨i - first, List.mem_range.2 (by omega), by omega⟩
  rw [guardedPoints, (Listing.positionIn_positions wf).2 hfirst]
  cases hposition : Listing.positionIn b.listing.positions g.stop with
  | none => exact hrange _ hlength
  | some stop =>
    have hget := (Listing.positionIn_positions wf).1 hposition
    by_cases hfollows : first ≤ stop
    · -- the end follows the start, so the instruction stands in front of it
      have hnot := hstop ((Listing.mem_onward_iff wf hfirst hget).2 hfollows)
      rw [Listing.mem_onward_iff wf hget hi] at hnot
      simp only [hfollows, if_true]
      exact hrange stop (Nat.not_le.1 hnot)
    · simp only [hfollows, if_false]
      exact hrange _ hlength

/-- Where control can go there is an edge. -/
theorem mem_flowEdges_of_step (wf : b.listing.WellFormed) (step : Step b h n)
    (hi : b.listing.handles[i]? = some h) (hj : b.listing.handles[j]? = some n) :
    (i + 1, j + 1) ∈ flowEdges b := by
  have hjlt : j < b.listing.length := (List.getElem?_eq_some_iff.1 hj).1
  have hinsn : (b.listing.get h, i) ∈ b.listing.instructions.zipIdx := by
    rw [List.mem_zipIdx_iff_getElem?, Listing.instructions, List.getElem?_map, hi]
    rfl
  -- The edges are of the same three kinds as the steps.
  cases step with
  | pass running next =>
    have hnext := getElem?_of_next? wf next hi
    have hj' : j = i + 1 :=
      (List.getElem?_inj hjlt wf.nodup).1 (hj.trans hnext.symm)
    subst hj'
    refine List.mem_append.2 (.inl (List.mem_append.2 (.inr ?_)))
    refine List.mem_flatMap.2 ⟨_, hinsn, List.mem_append.2 (.inl ?_)⟩
    have hopen : ((b.listing.get h).isTerminal || decide (b.listing.length ≤ i + 1)) = false := by
      rw [running, Bool.false_or, decide_eq_false_iff_not]
      exact Nat.not_le.2 hjlt
    simp only [hopen]
    exact List.mem_singleton.2 rfl
  | target mem linked =>
    refine List.mem_append.2 (.inl (List.mem_append.2 (.inr ?_)))
    refine List.mem_flatMap.2 ⟨_, hinsn, List.mem_append.2 (.inr ?_)⟩
    refine List.mem_filterMap.2 ⟨n, mem, ?_⟩
    rw [(Listing.positionIn_positions wf).2 hj]
    rfl
  | caught g mem protects handler linked =>
    subst handler
    refine List.mem_append.2 (.inr (List.mem_flatMap.2 ⟨g, mem, ?_⟩))
    rw [guardEdges, (Listing.positionIn_positions wf).2 hj]
    exact List.mem_map.2 ⟨i + 1, mem_guardedPoints wf protects hi, rfl⟩

/-- Control enters at the first place. -/
theorem mem_flowEdges_entry (hj : b.listing.handles[j]? = some n)
    (hfirst : b.listing.first? = some n) (wf : b.listing.WellFormed) :
    (0, j + 1) ∈ flowEdges b := by
  rw [Listing.first?_eq_head?, List.head?_eq_getElem?] at hfirst
  have hlt : j < b.listing.handles.length := (List.getElem?_eq_some_iff.1 hj).1
  obtain rfl : j = 0 := (List.getElem?_inj hlt wf.nodup).1 (hj.trans hfirst.symm)
  have hlength : b.listing.length ≠ 0 := Nat.pos_iff_ne_zero.1 hlt
  refine List.mem_append.2 (.inl (List.mem_append.2 (.inl ?_)))
  rw [if_neg hlength]
  exact List.mem_singleton.2 rfl

/-- The number of points. -/
theorem size_predecessors (b : Body) :
    (FlowGraph.ofBody b).predecessors.size = b.listing.handles.length + 1 := by
  rw [FlowGraph.ofBody, List.foldl_eq_foldr_reverse]
  rw [size_foldr_modify (fun e : Nat × Nat => e.2) fun e => e.1, Array.size_replicate,
    List.size_toArray, Listing.instructions, List.length_map]

/-- The source of an edge leads to its target. -/
theorem mem_before_of_mem_flowEdges {source target : Nat} (he : (source, target) ∈ flowEdges b)
    (hlt : target < (FlowGraph.ofBody b).predecessors.size) :
    source ∈ (FlowGraph.ofBody b).before target := by
  rw [size_predecessors] at hlt
  rw [FlowGraph.before, FlowGraph.ofBody, List.foldl_eq_foldr_reverse]
  rw [getElem?_foldr_modify (fun e : Nat × Nat => e.2) fun e => e.1, Array.getElem?_replicate,
    if_pos (by rw [List.size_toArray, Listing.instructions, List.length_map]; exact hlt)]
  simp only [Option.map_some, Option.getD_some, List.append_nil]
  refine List.mem_map.2 ⟨(source, target), List.mem_filter.2 ⟨List.mem_reverse.2 he, ?_⟩, rfl⟩
  simp

/-- What the instruction at a point writes. -/
theorem storedAt_succ (hi : b.listing.handles[i]? = some h) :
    (FlowGraph.ofBody b).storedAt (i + 1) = (b.listing.get h).stored? := by
  rw [FlowGraph.storedAt, FlowGraph.ofBody, List.getElem?_toArray, Listing.instructions,
    List.getElem?_map, hi]
  rfl

/-! ### Sources of a load -/

/-- Where the search for the sources of a load goes on: not past a store to the slot. -/
def onwards (b : Body) (slot : UInt16) (p : Nat) : List Nat :=
  if (FlowGraph.ofBody b).storedAt p = some slot then [] else (FlowGraph.ofBody b).before p

/-- The marks of the sources of a load are those of the points that the search reaches. -/
theorem isMarked_sources_iff {slot : UInt16} {point p : Nat} :
    Flow.isMarked ((FlowGraph.ofBody b).sources slot point) p = true ↔
      Flow.Reached (onwards b slot) (b.listing.handles.length + 1)
        ((FlowGraph.ofBody b).before point) p := by
  rw [FlowGraph.sources, Flow.isMarked_reachable_iff, size_predecessors]
  rfl

/-- What the search reaches from in front of an instruction that does not write the slot, it reaches
from in front of every instruction that control comes to from there. -/
theorem reached_of_step (wf : b.listing.WellFormed) {slot : UInt16} (step : Step b h n)
    (hi : b.listing.handles[i]? = some h) (hj : b.listing.handles[j]? = some n)
    (hopen : (b.listing.get h).stored? ≠ some slot) {p : Nat}
    (hp : Flow.Reached (onwards b slot) (b.listing.handles.length + 1)
      ((FlowGraph.ofBody b).before (i + 1)) p) :
    Flow.Reached (onwards b slot) (b.listing.handles.length + 1)
      ((FlowGraph.ofBody b).before (j + 1)) p := by
  have hilt : i < b.listing.handles.length := (List.getElem?_eq_some_iff.1 hi).1
  have hjlt : j < b.listing.handles.length := (List.getElem?_eq_some_iff.1 hj).1
  have hbefore : i + 1 ∈ (FlowGraph.ofBody b).before (j + 1) :=
    mem_before_of_mem_flowEdges (mem_flowEdges_of_step wf step hi hj)
      (by rw [size_predecessors]; omega)
  have honwards : onwards b slot (i + 1) = (FlowGraph.ofBody b).before (i + 1) := by
    rw [onwards, storedAt_succ hi, if_neg hopen]
  induction hp with
  | start mem lt => exact .step (.start hbefore (by omega)) (by rwa [honwards]) lt
  | step _ mem lt ih => exact .step ih mem lt

/-- The last store on a path is marked among the sources of a load at its end. -/
theorem isMarked_sources_of_path (wf : b.listing.WellFormed) {slot : UInt16}
    (path : Path b passed n) (hj : b.listing.handles[j]? = some n)
    (hlast : lastStore? b.listing slot passed = some h)
    (hi : b.listing.handles[i]? = some h) :
    Flow.isMarked ((FlowGraph.ofBody b).sources slot (j + 1)) (i + 1) = true := by
  rw [isMarked_sources_iff]
  induction path generalizing j with
  | entry first => cases hlast
  | @step passed a n path step ih =>
    have hjlt : j < b.listing.handles.length := (List.getElem?_eq_some_iff.1 hj).1
    obtain ⟨k, hk⟩ := List.mem_iff_getElem?.1 path.linked
    rw [lastStore?, List.find?_cons] at hlast
    cases hstore : (b.listing.get a).stored? == some slot with
    | true =>
      rw [hstore] at hlast
      cases hlast
      have hklt : i < b.listing.handles.length := (List.getElem?_eq_some_iff.1 hi).1
      refine .start (mem_before_of_mem_flowEdges (mem_flowEdges_of_step wf step hi hj) ?_) ?_
      · rw [size_predecessors]
        omega
      · omega
    | false =>
      rw [hstore] at hlast
      exact reached_of_step wf step hk hj (by simpa using hstore) (ih hk hlast)

/-- If no instruction on a path writes the slot, the entry is marked among the sources of a load at
its end. -/
theorem isMarked_sources_entry (wf : b.listing.WellFormed) {slot : UInt16}
    (path : Path b passed n) (hj : b.listing.handles[j]? = some n)
    (hnone : lastStore? b.listing slot passed = none) :
    Flow.isMarked ((FlowGraph.ofBody b).sources slot (j + 1)) 0 = true := by
  rw [isMarked_sources_iff]
  induction path generalizing j with
  | entry first =>
    have hjlt : j < b.listing.handles.length := (List.getElem?_eq_some_iff.1 hj).1
    refine .start (mem_before_of_mem_flowEdges (mem_flowEdges_entry hj first wf) ?_) (by omega)
    rw [size_predecessors]
    omega
  | @step passed a n path step ih =>
    obtain ⟨k, hk⟩ := List.mem_iff_getElem?.1 path.linked
    rw [lastStore?, List.find?_eq_none] at hnone
    have hopen : (b.listing.get a).stored? ≠ some slot := by
      simpa using hnone a (by simp)
    refine reached_of_step wf step hk hj hopen (ih hk ?_)
    rw [lastStore?, List.find?_eq_none]
    exact fun c hc => hnone c (List.mem_cons_of_mem a hc)

end Unscramble.Slot
