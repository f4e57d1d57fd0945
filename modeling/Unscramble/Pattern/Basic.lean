import Unscramble.Error
import Unscramble.Listing
import Unscramble.Pattern.Automaton
import Unscramble.Pattern.Syntax
import Unscramble.Text.Basic

/-! # Instruction patterns

A pattern finds runs of real instructions by their opcodes. It is a regular expression whose atoms
are mnemonics, the names of opcode groups, or `ANY`; blanks separate them. Labels and line markers
neither belong to a run nor interrupt it. What matches regular expressions is a parameter, of which
nothing is used but the two operations of `Engine`. The program runs with automata.

Main definitions: `Engine`, `PatternOf`, `Pattern`, `Pattern.compileBy`, `Pattern.runsBy`. -/

namespace Unscramble

namespace Pattern

/-- What matches regular expressions. -/
structure Engine where
  /-- What an expression is compiled to. -/
  Program : Type
  /-- Compiles an expression, if it is one. -/
  compile? : List Char → Option Program
  /-- The matches in a text, by the places where they begin and end. -/
  findAll : Program → Array Char → List (Nat × Nat)

/-- Automata match regular expressions. -/
@[reducible] def automata : Engine where
  Program := Regex
  compile? := Regex.parse?
  findAll := fun regex => regex.automaton.findAll

/-- The token that matches any instruction. -/
def wildcard : String := "ANY"

/-- The characters of tokens. -/
def isTokenChar (c : Char) : Bool :=
  c.isAlphanum || c == '_'

/-- The regular expression syntax that a token stands for. -/
def expandToken? (token : String) : Option (List Char) :=
  if token == wildcard then some ['.']
  else
    match Opcode.ofMnemonic? token, Opcode.group? token with
    | some op, _ => some [symbol op]
    | none, some ops => some ('[' :: ops.map symbol ++ [']'])
    | none, none => none

/-- Expands a pattern into regular expression syntax, or gives the first token that means nothing.
-/
def expand (cs : List Char) : Except String (List Char) :=
  match cs with
  | [] => .ok []
  | c :: rest =>
    if Text.isBlank c then expand rest
    else if isTokenChar c then
      let token := String.ofList (c :: rest.takeWhile isTokenChar)
      match expandToken? token with
      | none => .error token
      | some front => (expand (rest.dropWhile isTokenChar)).map (front ++ ·)
    else (expand rest).map (c :: ·)
termination_by cs.length
decreasing_by
  · exact Nat.lt_succ_self _
  · exact Nat.lt_succ_of_le (List.dropWhile_suffix _).length_le
  · exact Nat.lt_succ_self _

end Pattern

/-- A compiled pattern. -/
structure PatternOf (E : Pattern.Engine) where
  /-- The pattern as written. -/
  source : String
  /-- What it matches. -/
  program : E.Program

/-- A pattern compiled to an automaton. -/
abbrev Pattern : Type :=
  PatternOf Pattern.automata

namespace Pattern

/-- Compiles a pattern. -/
def compileBy (E : Engine) (source : String) : Except Error (PatternOf E) :=
  match expand source.toList with
  | .error token => .error (.unknownToken source token)
  | .ok cs =>
    match E.compile? cs with
    | none => .error (.badPattern source)
    | some program => .ok ⟨source, program⟩

/-- Compiles a pattern to an automaton. -/
abbrev compile (source : String) : Except Error Pattern :=
  compileBy automata source

/-- The pattern that a text spells; it matches nothing if the text is not well formed. -/
def ofText (source : String) : Pattern :=
  match compile source with
  | .ok pattern => pattern
  | .error _ => ⟨source, .never⟩

/-- The real instructions of a listing, as handles with their opcodes. -/
def reals (l : Listing) : Array (Handle × Opcode) :=
  (l.handles.filterMap fun h => (l.get h).opcode?.map (h, ·)).toArray

/-- The runs of real instructions that match, in list order. No run is empty and no two overlap. -/
def runsBy {E : Engine} (p : PatternOf E) (l : Listing) : List (List Handle) :=
  let reals := reals l
  let spans := E.findAll p.program (reals.map fun (_, op) => symbol op)
  (spans.filter fun (s, e) => s != e).map fun (s, e) => (reals.extract s e).toList.map (·.1)

/-- The runs of real instructions that an automaton matches. -/
abbrev runs (p : Pattern) (l : Listing) : List (List Handle) :=
  runsBy p l

end Pattern

end Unscramble
