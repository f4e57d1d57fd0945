import Std.Data.HashMap

/-! # Disjoint sets

Numbers that belong together are joined one pair after the other, and those of one set have one
number that stands for them. What keeps the sets is a parameter, of which nothing is used but the four
parts of `UnionFind`. The program runs with partitions in which every number points to a smaller member
of its class or, if it is the least one, to itself.

Main definitions: `UnionFind`, `classesBy`, `Partition`, `Partition.unionFind`. -/

namespace Unscramble

/-- What keeps disjoint sets of numbers. -/
structure UnionFind where
  /-- The states of the sets. -/
  State : Type
  /-- The numbers below a bound, each in a set of its own. -/
  discrete : Nat → State
  /-- Joins the sets of two numbers. -/
  join : State → Nat → Nat → State
  /-- The number that stands for the set of a number. -/
  root : State → Nat → Nat

/-- Puts a number to those that have the same number standing for them, the latest first, and notes a
number that stands for others where it is met first. -/
def collectBy (root : Nat → Nat) (state : List Nat × Std.HashMap Nat (List Nat)) (i : Nat) :
    List Nat × Std.HashMap Nat (List Nat) :=
  match state.2[root i]? with
  | none => (root i :: state.1, state.2.insert (root i) [i])
  | some members => (state.1, state.2.insert (root i) (i :: members))

/-- The numbers below a bound by the numbers that stand for them, in order of their least members, each
in ascending order. -/
def classesBy (root : Nat → Nat) (size : Nat) : List (List Nat) :=
  let (roots, table) := (List.range size).foldl (collectBy root) ([], ∅)
  roots.reverse.map fun r => (table.getD r []).reverse

/-- A partition of the numbers below `parent.size`. -/
structure Partition where
  /-- A member of the same class for each number, at most as great. -/
  parent : Array Nat
deriving Repr, Inhabited

namespace Partition

/-- The partition of the numbers below `size` into single ones. -/
def discrete (size : Nat) : Partition :=
  ⟨Array.range size⟩

/-- The least member of the class of a number. -/
def root (p : Partition) (i : Nat) : Nat :=
  let j := (p.parent[i]?).getD i
  if j < i then p.root j else i
termination_by i

/-- Joins the classes of two numbers. -/
def join (p : Partition) (i j : Nat) : Partition :=
  let a := p.root i
  let b := p.root j
  ⟨p.parent.setIfInBounds (max a b) (min a b)⟩

/-- Partitions keep disjoint sets. -/
@[reducible] def unionFind : UnionFind where
  State := Partition
  discrete := discrete
  join := join
  root := root

end Partition

end Unscramble
