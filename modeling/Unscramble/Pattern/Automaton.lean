import Unscramble.Pattern.Regex

/-! # Automata that search

A regular expression is laid out as an automaton, whose nodes read a character, check a place, or
fork into a preferred and a second way. A search goes from a node at a position through all ways,
preferred ones first, and never visits a node twice at the same position: what lies behind it has
been searched or is being searched. The first way that reaches the accepting node gives the match.

Main definitions: `Node`, `Regex.automaton`, `Automaton.find?`, `Automaton.findAll`. -/

namespace Unscramble.Pattern

/-- Whether a position of a text of the given size satisfies an anchor. No character searched here
belongs to a word, so words neither start nor end. -/
def Anchor.holds (size i : Nat) : Anchor → Bool
  | .start => i == 0
  | .stop => i == size
  | .wordStart | .wordEnd => false

/-- A node of an automaton; nodes are named by their indices. -/
inductive Node where
  /-- Ends a match. -/
  | accept
  /-- Reads a character of a set. -/
  | read (set : CharSet) (next : Nat)
  /-- Goes on at certain places only. -/
  | check (place : Anchor) (next : Nat)
  /-- Goes on in two ways, of which the first is preferred. -/
  | fork (first second : Nat)
deriving DecidableEq, Repr, Inhabited

/-- The nodes of an automaton and the one where a match begins. -/
structure Automaton where
  /-- The nodes. -/
  nodes : Array Node
  /-- The index of the node where a match begins. -/
  entry : Nat
deriving Repr, Inhabited

namespace Automaton

/-- The automaton that goes on from the entry of `a` and begins with a new node. -/
def add (a : Automaton) (node : Node) : Automaton :=
  let entry := a.nodes.size
  ⟨a.nodes.push node, entry⟩

/-- A fork into another round of a repetition or out of it. -/
def roundFork (greedy : Bool) (enter leave : Nat) : Node :=
  if greedy then .fork enter leave else .fork leave enter

/-- Lays out an expression in front of the entry of `a`. A repetition of several rounds has a node
behind its body, which forks into the next round. If every round reads a character that node also
begins the first round; otherwise the first round is chosen at a node of its own, so that a round
that reads nothing comes to an end. -/
def prepend (a : Automaton) : Regex → Automaton
  | .empty => a
  | .literal text => text.foldr (fun c a => a.add (.read (CharSet.single c) a.entry)) a
  | .oneOf set => a.add (.read set a.entry)
  | .anchor place => a.add (.check place a.entry)
  | .group _ body => a.prepend body
  | .seq first second => (a.prepend second).prepend first
  | .alt first second =>
    let b := a.prepend second
    let c := prepend ⟨b.nodes, a.entry⟩ first
    c.add (.fork c.entry b.entry)
  | .repetition .atMostOne greedy body =>
    let b := a.prepend body
    b.add (roundFork greedy b.entry a.entry)
  | .repetition rounds greedy body =>
    let again := a.nodes.size
    let b := prepend (a.add .accept) body
    let fork := roundFork greedy b.entry a.entry
    let c : Automaton := ⟨b.nodes.setIfInBounds again fork, b.entry⟩
    if rounds = .atLeastOne then c
    else if body.reads? = some true then ⟨c.nodes, again⟩
    else c.add fork

end Automaton

/-- The automaton that matches an expression. -/
def Regex.automaton (r : Regex) : Automaton :=
  Automaton.prepend ⟨#[.accept], 0⟩ r

/-- The nodes visited at the positions from the beginning of a search on. -/
structure Visits where
  /-- The flags of the nodes, position by position. -/
  rows : Array (Array Bool) := #[]

namespace Visits

/-- Whether a node was visited `offset` positions behind the beginning. -/
def contains (visits : Visits) (node offset : Nat) : Bool :=
  ((visits.rows[offset]?).bind (·[node]?)).getD false

/-- Notes a visit of one of `count` nodes. A search reads one character at a time, so the position
has a row or is the first without one. -/
def insert (visits : Visits) (count node offset : Nat) : Visits :=
  if offset < visits.rows.size then
    ⟨visits.rows.modify offset (·.setIfInBounds node true)⟩
  else ⟨visits.rows.push ((Array.replicate count false).setIfInBounds node true)⟩

end Visits

namespace Automaton

/-- Where a node leads at position `i` of a text, preferred ways first. -/
def steps (text : Array Char) (i : Nat) : Node → List (Nat × Nat)
  | .accept => []
  | .read set next => if (text[i]?).any set.contains then [(next, i + 1)] else []
  | .check place next => if place.holds text.size i then [(next, i)] else []
  | .fork first second => [(first, i), (second, i)]

/-- Searches the ways that begin at the pending pairs of a node and a position, in order, for the
end of a match. The search began at position `base`. -/
def explore (a : Automaton) (text : Array Char) (base : Nat) :
    (fuel : Nat) → Visits → List (Nat × Nat) → Option Nat × Visits
  | 0, visits, _ => (none, visits)
  | _, visits, [] => (none, visits)
  | fuel + 1, visits, (q, i) :: pending =>
    if visits.contains q (i - base) then explore a text base fuel visits pending
    else
      match a.nodes[q]? with
      | none => explore a text base fuel visits pending
      | some .accept => (some i, visits)
      | some node =>
        let visits := visits.insert a.nodes.size q (i - base)
        explore a text base fuel visits (steps text i node ++ pending)

/-- A bound on the steps of a search: every node is visited at most once at every position, and
leaves at most two ways pending. -/
def bound (a : Automaton) (text : Array Char) : Nat :=
  2 * a.nodes.size * (text.size + 1) + 2

/-- The first of `count` positions from `i` on where a match begins, with the end of that match.
Where the search from an earlier position came by it found nothing, so it need not be repeated. -/
def findFrom (a : Automaton) (text : Array Char) (base i : Nat) (visits : Visits) :
    (count : Nat) → Option (Nat × Nat)
  | 0 => none
  | count + 1 =>
    match explore a text base (a.bound text) visits [(a.entry, i)] with
    | (some e, _) => some (i, e)
    | (none, visits) => findFrom a text base (i + 1) visits count

/-- The leftmost match at or after a position. -/
def find? (a : Automaton) (text : Array Char) (i : Nat) : Option (Nat × Nat) :=
  findFrom a text i i {} (text.size + 1 - i)

/-- The matches one after the other from position `i` on. The search goes on at the end of each
match; an empty match there, right behind the match that ended at `last`, is passed over. -/
def findAllFrom (a : Automaton) (text : Array Char) (i : Nat) (last : Option Nat) :
    (fuel : Nat) → List (Nat × Nat)
  | 0 => []
  | fuel + 1 =>
    match a.find? text i with
    | none => []
    | some (s, e) =>
      if s = e ∧ last = some e then findAllFrom a text (i + 1) last fuel
      else (s, e) :: findAllFrom a text e (some e) fuel

/-- All matches in `text` from left to right, none overlapping another. -/
def findAll (a : Automaton) (text : Array Char) : List (Nat × Nat) :=
  findAllFrom a text 0 none (2 * text.size + 3)

end Automaton

end Unscramble.Pattern
