import Unscramble.Opcode
import Unscramble.Pattern.Regex
import Unscramble.Text.Letter

/-! # The syntax of regular expressions

Reads a regular expression from characters. Every opcode has a symbol, a character of its own; any
other character stands for itself and so matches no opcode. The syntax has groups with or without
names, alternatives, greedy and lazy repetitions, anchors, escapes, and bracketed classes with
ranges, negation, nesting and the operations `&&`, `--` and `~~`. How deep it may be nested is
limited.

Main definitions: `symbol`, `tokens?`, `Regex.ofTokens?`, `Regex.parse?`. -/

namespace Unscramble.Pattern

/-- The character that stands for an opcode. -/
def symbol (op : Opcode) : Char :=
  Char.ofNat (0xe000 + op.byte.toNat)

/-- How deep expressions may be nested. -/
def depthLimit : Nat := 250

/-- The depth of something that has parts of the given depths: one more than the greatest, except
that a single part is not nested by it. -/
def depthOf : List Nat → Nat
  | [] => 0
  | [d] => d
  | ds => ds.foldr max 0 + 1

/-- The operations between the parts of a class. -/
inductive ClassOp where
  /-- What is in both parts. -/
  | both
  /-- What is in the first part only. -/
  | minus
  /-- What is in exactly one part. -/
  | either
deriving DecidableEq, Repr

/-- The result of an operation on two sets. -/
def ClassOp.apply : ClassOp → CharSet → CharSet → CharSet
  | .both => CharSet.inter
  | .minus => CharSet.diff
  | .either => CharSet.symmDiff

/-- What was read of a class, with the depth of its nesting. -/
structure ClassPart where
  /-- The characters. -/
  set : CharSet
  /-- The depth. -/
  depth : Nat := 0
deriving Inhabited

namespace ClassPart

/-- The parts side by side, given last first. -/
def union (parts : List ClassPart) : ClassPart :=
  ⟨parts.foldr (fun part set => set.union part.set) [], depthOf (parts.map (·.depth))⟩

/-- The parts behind an operation, whose left side was read before. Operations take effect from left
to right. -/
def finish (left : Option (ClassOp × ClassPart)) (parts : List ClassPart) : ClassPart :=
  let right := union parts
  match left with
  | none => right
  | some (op, left) => ⟨op.apply left.set right.set, max left.depth right.depth + 1⟩

end ClassPart

/-- Whether a character may be escaped to stand for itself: ASCII and no letter, digit or angle
bracket. -/
def isEscapable (c : Char) : Bool :=
  c.toNat < 0x80 && !c.isAlphanum && c != '<' && c != '>'

/-- One character of a class, which may be escaped. -/
def classChar? : List Char → Option (Char × List Char)
  | '\\' :: c :: rest => if isEscapable c then some (c, rest) else none
  | ['\\'] => none
  | c :: rest => some (c, rest)
  | [] => none

/-- A character or range of a class. A dash makes a range unless it stands before the closing
bracket or another dash. -/
def classRange? (cs : List Char) : Option (CharSet × List Char) := do
  let (low, rest) ← classChar? cs
  match rest with
  | [] => none
  | '-' :: ']' :: _ | '-' :: '-' :: _ => some (CharSet.single low, rest)
  | '-' :: rest =>
    let (high, rest) ← classChar? rest
    if low ≤ high then some ([⟨low.toNat, high.toNat⟩], rest) else none
  | _ => some (CharSet.single low, rest)

mutual

/-- A class from behind its opening bracket on. A caret negates it; leading dashes, and a closing
bracket in the first place, stand for themselves. -/
def class? : (fuel : Nat) → List Char → Option (ClassPart × List Char)
  | 0, _ => none
  | fuel + 1, cs =>
    let negated := cs.head? == some '^'
    let cs := if negated then cs.drop 1 else cs
    let front :=
      match cs.takeWhile (· == '-'), cs with
      | [], ']' :: _ => [']']
      | dashes, _ => dashes
    let parts := front.map fun c => ⟨CharSet.single c, 0⟩
    match classParts? fuel none parts (cs.drop front.length) with
    | none => none
    | some (part, rest) =>
      some (⟨if negated then part.set.compl else part.set, part.depth + 1⟩, rest)

/-- The rest of a class up to its closing bracket: `parts` were read since the operation in `left`,
and stand last first. -/
def classParts? : (fuel : Nat) → Option (ClassOp × ClassPart) → List ClassPart → List Char →
    Option (ClassPart × List Char)
  | 0, _, _, _ => none
  | fuel + 1, left, parts, cs =>
    match cs with
    | [] => none
    | ']' :: rest => some (.finish left parts, rest)
    | '&' :: '&' :: rest => classParts? fuel (some (.both, .finish left parts)) [] rest
    | '-' :: '-' :: rest => classParts? fuel (some (.minus, .finish left parts)) [] rest
    | '~' :: '~' :: rest => classParts? fuel (some (.either, .finish left parts)) [] rest
    | '[' :: rest =>
      match class? fuel rest with
      | none => none
      | some (part, rest) => classParts? fuel left (part :: parts) rest
    | _ =>
      match classRange? cs with
      | none => none
      | some (set, rest) => classParts? fuel left (⟨set, 0⟩ :: parts) rest

end

/-- What the opening of a group says of it. -/
inductive GroupKind where
  /-- The group only holds its content together. -/
  | plain
  /-- The group has a number. -/
  | numbered
  /-- The group has a number and a name. -/
  | named (name : List Char)
deriving DecidableEq, Repr

/-- Whether a character may stand in the name of a group behind the first one. -/
def isNameChar (c : Char) : Bool :=
  c == '_' || c == '.' || c == '[' || c == ']' || Text.isLetter c || Text.isNumber c

/-- The name of a group, which ends with an angle bracket. -/
def groupName? (cs : List Char) : Option (List Char × List Char) :=
  match cs.takeWhile (· != '>'), cs.dropWhile (· != '>') with
  | c :: name, _ :: rest =>
    if (c == '_' || Text.isLetter c) && name.all isNameChar then some (c :: name, rest) else none
  | _, _ => none

/-- A lexical unit of a regular expression. -/
inductive Token where
  /-- Opens a group. -/
  | opening (kind : GroupKind)
  /-- Closes a group. -/
  | closing
  /-- Separates alternatives. -/
  | bar
  /-- Repeats what stands before it. -/
  | repetition (rounds : Rounds) (greedy : Bool)
  /-- A part that cannot be divided, and its depth. -/
  | part (regex : Regex) (depth : Nat)

/-- The set of all characters but the line feed. -/
def anyChar : CharSet :=
  CharSet.compl (CharSet.single '\n')

/-- A token at the front of the characters. A brace would count repetitions in digits, which no
pattern has, so it starts no token. -/
def token? (cs : List Char) : Option (Token × List Char) :=
  match cs with
  | [] => none
  | '(' :: '?' :: ':' :: rest => some (.opening .plain, rest)
  | '(' :: '?' :: '<' :: rest =>
    (groupName? rest).map fun (name, rest) => (.opening (.named name), rest)
  | '(' :: '?' :: _ => none
  | '(' :: rest => some (.opening .numbered, rest)
  | ')' :: rest => some (.closing, rest)
  | '|' :: rest => some (.bar, rest)
  | '*' :: '?' :: rest => some (.repetition .any false, rest)
  | '*' :: rest => some (.repetition .any true, rest)
  | '+' :: '?' :: rest => some (.repetition .atLeastOne false, rest)
  | '+' :: rest => some (.repetition .atLeastOne true, rest)
  | '?' :: '?' :: rest => some (.repetition .atMostOne false, rest)
  | '?' :: rest => some (.repetition .atMostOne true, rest)
  | '{' :: _ => none
  | '.' :: rest => some (.part (.oneOf anyChar) 0, rest)
  | '^' :: rest => some (.part (.anchor .start) 0, rest)
  | '$' :: rest => some (.part (.anchor .stop) 0, rest)
  | '[' :: rest =>
    (class? (2 * rest.length + 2) rest).map fun (p, rest) => (.part (.ofSet p.set) p.depth, rest)
  | '\\' :: '<' :: rest => some (.part (.anchor .wordStart) 0, rest)
  | '\\' :: '>' :: rest => some (.part (.anchor .wordEnd) 0, rest)
  | '\\' :: c :: rest => if isEscapable c then some (.part (.literal [c]) 0, rest) else none
  | ['\\'] => none
  | c :: rest => some (.part (.literal [c]) 0, rest)

/-- The tokens of a regular expression, of which there are at most `fuel`. -/
def tokens? : (fuel : Nat) → List Char → Option (List Token)
  | _, [] => some []
  | 0, _ => none
  | fuel + 1, cs => do
    let (token, rest) ← token? cs
    return token :: (← tokens? fuel rest)

/-- The name of the group that a token opens. -/
def Token.groupName? : Token → Option (List Char)
  | .opening (.named name) => some name
  | _ => none

/-- An expression with the depth of its nesting. -/
structure Part where
  /-- The expression. -/
  regex : Regex
  /-- The depth. -/
  depth : Nat
deriving Inhabited

/-- What was read of a group: the finished alternatives and the parts of the one being read, all
last first. -/
structure Level where
  /-- The number of the group, if it has one. -/
  index? : Option Nat := none
  /-- The finished alternatives. -/
  alternatives : List Part := []
  /-- The parts of the current alternative. -/
  parts : List Part := []

namespace Level

/-- The parts of the current alternative one after the other. -/
def sequence (level : Level) : Part :=
  ⟨.concat (level.parts.reverse.map (·.regex)), depthOf (level.parts.map (·.depth))⟩

/-- Finishes the current alternative. -/
def bar (level : Level) : Level :=
  { level with alternatives := level.sequence :: level.alternatives, parts := [] }

/-- The content of the group: its alternatives in order. -/
def content (level : Level) : Part :=
  match level.bar.alternatives with
  | [part] => part
  | parts => ⟨.alternation (parts.reverse.map (·.regex)), depthOf (parts.map (·.depth))⟩

/-- The whole group. -/
def close (level : Level) : Part :=
  let part := level.content
  ⟨level.index?.elim part.regex (.group · part.regex), part.depth + 1⟩

/-- Adds a part to the current alternative. -/
def add (level : Level) (part : Part) : Level :=
  { level with parts := part :: level.parts }

end Level

/-- Reads tokens inside the group `level`, around which `outer` groups are open, behind `count`
groups with numbers. -/
def Regex.ofTokensIn (count : Nat) (level : Level) (outer : List Level) :
    List Token → Option Part
  | [] => if outer.isEmpty then some level.content else none
  | .opening .plain :: rest => ofTokensIn count {} (level :: outer) rest
  | .opening _ :: rest => ofTokensIn (count + 1) { index? := some count } (level :: outer) rest
  | .closing :: rest =>
    match outer with
    | [] => none
    | parent :: outer => ofTokensIn count (parent.add level.close) outer rest
  | .bar :: rest => ofTokensIn count level.bar outer rest
  | .repetition rounds greedy :: rest =>
    match level.parts with
    | [] => none
    | last :: parts =>
      let part : Part := ⟨.repeated rounds greedy last.regex, last.depth + 1⟩
      ofTokensIn count { level with parts := part :: parts } outer rest
  | .part regex depth :: rest => ofTokensIn count (level.add ⟨regex, depth⟩) outer rest

/-- The regular expression that tokens spell. Names of groups differ from each other, and the
expression is not nested too deep. -/
def Regex.ofTokens? (tokens : List Token) : Option Regex := do
  let part ← ofTokensIn 0 {} [] tokens
  let names := tokens.filterMap Token.groupName?
  if names.eraseDups.length = names.length && part.depth ≤ depthLimit then some part.regex
  else none

/-- The regular expression that characters spell. -/
def Regex.parse? (cs : List Char) : Option Regex :=
  (tokens? cs.length cs).bind Regex.ofTokens?

end Unscramble.Pattern
