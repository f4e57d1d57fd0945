/-! # Searching finite graphs

Searches of a graph on the numbers below a bound, given by the list of the numbers that each number
leads to. Each search marks what it meets and ends when there is nothing new.

Main definitions: `mark`, `reachable`, `finishOrder`, `breadthOrder`. -/

namespace Unscramble.Flow

/-- The marks of `size` numbers, set for those in a list. -/
def mark (size : Nat) (numbers : List Nat) : Array Bool :=
  numbers.foldl (fun marks v => marks.setIfInBounds v true) (Array.replicate size false)

/-- Whether a number is marked. -/
def isMarked (marks : Array Bool) (v : Nat) : Bool :=
  marks[v]? == some true

/-- Setting a mark leaves fewer marks to set. -/
theorem count_false_set_lt (seen : Array Bool) (v : Nat) (h : v < seen.size)
    (hv : seen[v] = false) : (seen.set v true).count false < seen.count false := by
  have hpos : 0 < seen.count false := Array.count_pos_iff.2 (hv ▸ Array.getElem_mem h)
  rw [Array.count_set, hv]
  show seen.count false - 1 + 0 < seen.count false
  omega

/-- Marks what can be reached from the numbers in `work` through numbers that are not marked yet. -/
def explore (next : Nat → List Nat) (work : List Nat) (seen : Array Bool) : Array Bool :=
  match work with
  | [] => seen
  | v :: rest =>
    if h : ∃ h : v < seen.size, seen[v] = false then
      explore next (next v ++ rest) (seen.set v true h.1)
    else explore next rest seen
termination_by (seen.count false, work.length)
decreasing_by
  · exact Prod.Lex.left _ _ (count_false_set_lt seen v h.1 h.2)
  · exact Prod.Lex.right _ (Nat.lt_succ_self _)

/-- The marks of the numbers below `size` that can be reached from those in `start`. -/
def reachable (next : Nat → List Nat) (size : Nat) (start : List Nat) : Array Bool :=
  explore next start (Array.replicate size false)

/-- How many steps a stack of numbers with their remaining successors stands for. -/
def stackSize (stack : List (Nat × List Nat)) : Nat :=
  stack.foldr (fun frame n => frame.2.length + 1 + n) 0

/-- A depth-first search under way: each number on the stack still has to visit the successors
listed with it. A number joins the front of `done` when all its successors have been visited. -/
def finish (next : Nat → List Nat) (stack : List (Nat × List Nat)) (seen : Array Bool)
    (done : List Nat) : List Nat :=
  match stack with
  | [] => done
  | (v, []) :: rest => finish next rest seen (v :: done)
  | (v, c :: cs) :: rest =>
    if h : ∃ h : c < seen.size, seen[c] = false then
      finish next ((c, next c) :: (v, cs) :: rest) (seen.set c true h.1) done
    else finish next ((v, cs) :: rest) seen done
termination_by (seen.count false, stackSize stack)
decreasing_by
  · refine Prod.Lex.right _ ?_
    simp only [stackSize, List.foldr_cons, List.length_nil]
    omega
  · exact Prod.Lex.left _ _ (count_false_set_lt seen c h.1 h.2)
  · refine Prod.Lex.right _ ?_
    simp only [stackSize, List.foldr_cons, List.length_cons]
    omega

/-- The numbers below `size` that can be reached from `root`, the last to be finished by a
depth-first search first. -/
def finishOrder (next : Nat → List Nat) (size root : Nat) : List Nat :=
  finish next [(root, next root)] (mark size [root]) []

/-- A breadth-first search under way: the numbers in `queue` are still to be visited, and `done`
holds those that were, last first. -/
def breadth (next : Nat → List Nat) (queue : List Nat) (seen : Array Bool) (done : List Nat) :
    List Nat :=
  match queue with
  | [] => done.reverse
  | v :: rest =>
    if h : ∃ h : v < seen.size, seen[v] = false then
      breadth next (rest ++ next v) (seen.set v true h.1) (v :: done)
    else breadth next rest seen done
termination_by (seen.count false, queue.length)
decreasing_by
  · exact Prod.Lex.left _ _ (count_false_set_lt seen v h.1 h.2)
  · exact Prod.Lex.right _ (Nat.lt_succ_self _)

/-- The numbers below `size` that can be reached from `root`, nearer ones first. -/
def breadthOrder (next : Nat → List Nat) (size root : Nat) : List Nat :=
  breadth next [root] (Array.replicate size false) []

end Unscramble.Flow
