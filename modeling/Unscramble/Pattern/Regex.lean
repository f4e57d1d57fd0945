import Unscramble.Pattern.CharSet

/-! # Regular expressions

A regular expression is built by functions that bring it into a simple form: a sequence has no
sequences or empty parts among its parts and no two literals side by side, alternatives that are
single characters become one set, and what all alternatives begin with is written in front of them.
The form decides which of several matches is preferred, since a repetition in front of alternatives
is matched before one of them is chosen.

Main definitions: `Regex`, `Regex.concat`, `Regex.alternation`, `Regex.repeated`. -/

namespace Unscramble.Pattern

/-- A condition on a place between characters. -/
inductive Anchor where
  /-- The place before all characters. -/
  | start
  /-- The place behind all characters. -/
  | stop
  /-- A place where a word starts. -/
  | wordStart
  /-- A place where a word ends. -/
  | wordEnd
deriving DecidableEq, Repr

/-- How many rounds a repetition has. -/
inductive Rounds where
  /-- No round or one. -/
  | atMostOne
  /-- Any number of rounds. -/
  | any
  /-- One round or more. -/
  | atLeastOne
deriving DecidableEq, Repr

/-- A regular expression over characters. -/
inductive Regex where
  /-- Matches the empty text. -/
  | empty
  /-- Matches a text, which is not empty. -/
  | literal (text : List Char)
  /-- Matches one character of a set. -/
  | oneOf (set : CharSet)
  /-- Matches the empty text at certain places. -/
  | anchor (place : Anchor)
  /-- A group, which has a number of its own. -/
  | group (index : Nat) (body : Regex)
  /-- Rounds of an expression, as many as possible if it is greedy, else as few as possible. -/
  | repetition (rounds : Rounds) (greedy : Bool) (body : Regex)
  /-- One expression and then another. -/
  | seq (first second : Regex)
  /-- One of two expressions, preferably the first. -/
  | alt (first second : Regex)
deriving DecidableEq, Repr, Inhabited

namespace Regex

/-- Matches nothing. -/
def never : Regex :=
  .oneOf []

/-- The number of nodes of an expression. -/
def size : Regex → Nat
  | .empty | .literal _ | .oneOf _ | .anchor _ => 1
  | .group _ body | .repetition _ _ body => body.size + 1
  | .seq first second | .alt first second => first.size + second.size + 1

/-- Whether all matches are empty. -/
def onlyEmpty : Regex → Bool
  | .empty | .anchor _ => true
  | .literal _ | .oneOf _ => false
  | .group _ body => body.onlyEmpty
  | .repetition rounds _ body => rounds == .atMostOne && body.onlyEmpty
  | .seq first second | .alt first second => first.onlyEmpty && second.onlyEmpty

/-- Whether all matches read a character; not known of an expression with a part that never matches.
-/
def reads? : Regex → Option Bool
  | .empty | .anchor _ => some false
  | .literal _ => some true
  | .oneOf set => if set.isEmpty then none else some true
  | .group _ body => body.reads?
  | .repetition .atLeastOne _ body => body.reads?
  | .repetition _ _ body => body.reads?.map fun _ => false
  | .seq first second => do return (← first.reads?) || (← second.reads?)
  | .alt first second => do return (← first.reads?) && (← second.reads?)

/-- Matches one character of a set; a set of one character is a literal. -/
def ofSet (set : CharSet) : Regex :=
  match set.single? with
  | some c => .literal [c]
  | none => .oneOf set

/-- The set of an expression that matches single characters. -/
def charSet? : Regex → Option CharSet
  | .literal [c] => some (CharSet.single c)
  | .oneOf set => some set
  | _ => none

/-- The parts of a sequence. -/
def parts : Regex → List Regex
  | .empty => []
  | .seq first second => first :: second.parts
  | r => [r]

/-- The sequence that consists of the parts as they are. -/
def ofParts : List Regex → Regex
  | [] => .empty
  | [r] => r
  | r :: rest => .seq r (ofParts rest)

/-- Joins literals that stand side by side. -/
def joinLiterals : List Regex → List Regex
  | [] => []
  | .literal text :: rest =>
    match joinLiterals rest with
    | .literal more :: rest => .literal (text ++ more) :: rest
    | rest => .literal text :: rest
  | r :: rest => r :: joinLiterals rest

/-- Expressions one after the other. -/
def concat (rs : List Regex) : Regex :=
  ofParts (joinLiterals (rs.flatMap parts))

/-- The alternatives of an expression. -/
def branches : Regex → List Regex
  | .alt first second => first :: second.branches
  | r => [r]

/-- The choice between expressions as they are. -/
def ofBranches : List Regex → Regex
  | [] => never
  | [r] => r
  | r :: rest => .alt r (ofBranches rest)

/-- The parts of an expression that is a sequence of several parts; none of any other. -/
def several (r : Regex) : List Regex :=
  match r with
  | .seq _ _ => r.parts
  | _ => []

/-- The expressions at the front that two lists have in common. -/
def sharedFront : List Regex → List Regex → List Regex
  | a :: as, b :: bs => if a = b then a :: sharedFront as bs else []
  | _, _ => []

/-- The choice between expressions, whose common front is taken out at most `fuel` times. -/
def alternationIn : (fuel : Nat) → List Regex → Regex
  | 0, rs => ofBranches rs
  | fuel + 1, rs =>
    let rs := rs.flatMap branches
    match rs.mapM charSet?, rs with
    | some sets, _ => ofSet (sets.foldl CharSet.union [])
    | none, first :: second :: rest =>
      let front := (second :: rest).foldl (fun front r => sharedFront front r.several) first.several
      if front.isEmpty then ofBranches rs
      else
        let ends := rs.map fun r => concat (r.parts.drop front.length)
        concat (front ++ [alternationIn fuel ends])
    | none, _ => ofBranches rs

/-- The choice between expressions, earlier ones preferred. Taking out a common front makes the
expressions smaller, so there are no more rounds of it than nodes. -/
def alternation (rs : List Regex) : Regex :=
  alternationIn (rs.foldr (fun r n => r.size + n) 1) rs

/-- Rounds of an expression. Of an expression that only matches the empty text one round is enough.
-/
def repeated (rounds : Rounds) (greedy : Bool) (body : Regex) : Regex :=
  if body.onlyEmpty then
    match rounds with
    | .atLeastOne => body
    | _ => .repetition .atMostOne greedy body
  else .repetition rounds greedy body

end Regex

end Unscramble.Pattern
