import Unscramble.Session.Basic
import Unscramble.Text.Basic

/-! # Command line

The arguments of the program and what it prints. Options may stand anywhere; an option that takes a
value finds it behind an equals sign, attached to its letter or in the next argument, and the option
for stages goes on taking arguments up to the next option or a list with commas.

Main definitions: `Invocation.ofArguments`, `CommandLine.run`. -/

namespace Unscramble

namespace CommandLine

/-- The options that take a value. -/
inductive Setting where
  /-- The stages to run. -/
  | stages
  /-- The name table file. -/
  | nameTable
  /-- The package for classes without one. -/
  | defaultPackage
  /-- The class for static members. -/
  | staticsClass
  /-- The folder for sources. -/
  | sources
  /-- The command line of the decompiler. -/
  | decompiler
  /-- The file for statistics. -/
  | statistics
  /-- The folder for drawings. -/
  | drawings
  /-- The number of workers, which no result depends on. -/
  | threads
deriving DecidableEq, Repr, Inhabited

namespace Setting

/-- Every option that takes a value. -/
def all : List Setting :=
  [stages, nameTable, defaultPackage, staticsClass, sources, decompiler, statistics, drawings,
   threads]

/-- Whether an option may be given more than once, and takes several values. -/
def isMultiple (s : Setting) : Bool :=
  s == stages

/-- Whether an option has a value of its own if it is given without one. -/
def hasDefault (s : Setting) : Bool :=
  s == defaultPackage || s == staticsClass

/-- The values in a text: for a list those between its commas. -/
def valuesIn (s : Setting) (text : String) : List String :=
  if s.isMultiple then text.splitOn "," else [text]

end Setting

/-- The options that are given or not. -/
inductive Switch where
  /-- Nothing is written. -/
  | dry
  /-- More is told. -/
  | verbose
  /-- Everything is told. -/
  | trace
  /-- Nothing is told. -/
  | quiet
deriving DecidableEq, Repr, Inhabited

/-- What a name of an option stands for. -/
inductive Meaning where
  /-- An option that takes a value. -/
  | setting (s : Setting)
  /-- An option that takes none. -/
  | switch (s : Switch)
  /-- A wish to be told about the program. -/
  | about
deriving DecidableEq, Repr, Inhabited

/-- The names that stand behind two dashes. -/
def longNames : List (String × Meaning) :=
  [("stages", .setting .stages), ("remap-file", .setting .nameTable),
   ("default-package", .setting .defaultPackage), ("statics-class", .setting .staticsClass),
   ("decompile-dir", .setting .sources), ("decompiler", .setting .decompiler),
   ("stats", .setting .statistics), ("graphs", .setting .drawings), ("threads", .setting .threads),
   ("dry", .switch .dry), ("trace", .switch .trace), ("help", .about), ("version", .about)]

/-- The letters that stand behind one dash. -/
def shortNames : List (Char × Meaning) :=
  [('s', .setting .stages), ('g', .setting .drawings), ('j', .setting .threads),
   ('v', .switch .verbose), ('q', .switch .quiet), ('h', .about), ('V', .about)]

/-- Why arguments do not lead to a session. -/
inductive Stop where
  /-- The arguments are not as they should be. -/
  | misuse
  /-- Only the program itself was asked about. -/
  | about
deriving DecidableEq, Repr, Inhabited

/-- What was found in the arguments so far. -/
structure Given where
  /-- The arguments that belong to no option. -/
  words : List String := []
  /-- The options with their values, the last one first. -/
  settings : List (Setting × List String) := []
  /-- The other options. -/
  switches : List Switch := []
  /-- Whether the last option may take the next argument. -/
  isOpen : Bool := false
  /-- Whether all arguments that follow belong to no option. -/
  isTrailing : Bool := false
deriving Repr, Inhabited

namespace Given

/-- Takes an argument that belongs to no option. There are two of them. -/
def addWord (g : Given) (word : String) : Except Stop Given :=
  if g.words.length < 2 then .ok { g with words := g.words ++ [word] } else .error .misuse

/-- Takes an option whose value may follow. -/
def addSetting (g : Given) (s : Setting) : Given :=
  { g with settings := (s, []) :: g.settings, isOpen := true }

/-- Takes the next argument as a value of the last option. -/
def addValue (g : Given) (text : String) : Given :=
  match g.settings with
  | [] => g
  | (s, values) :: rest =>
    { g with settings := (s, values ++ s.valuesIn text) :: rest
             isOpen := s.isMultiple && !text.toList.contains ',' }

/-- Takes an option together with its value, in front of which there may be equals signs. Behind
one, a list is complete. -/
def addAttached (g : Given) (s : Setting) (text : List Char) (behindEquals : Bool) : Given :=
  let complete := behindEquals || text.head? == some '='
  let value := String.ofList (text.dropWhile (· == '='))
  { (g.addSetting s).addValue value with isOpen := s.isMultiple && !complete }

/-- Takes an option without a value. -/
def addSwitch (g : Given) (s : Switch) : Given :=
  { g with switches := s :: g.switches, isOpen := false }

/-- Takes an argument that starts with two dashes. -/
def addLong (g : Given) (argument : List Char) : Except Stop Given :=
  let text := argument.dropWhile (· == '-')
  let name := String.ofList (text.takeWhile (· != '='))
  match longNames.lookup name, Text.cut '=' text with
  | some (.setting s), none => .ok (g.addSetting s)
  | some (.setting s), some (_, value) => .ok (g.addAttached s value true)
  | some (.switch s), _ => .ok (g.addSwitch s)
  | some .about, _ => .error .about
  | none, _ => .error .misuse

/-- Takes the letters behind a dash. The first that takes a value takes the rest as its value. -/
def addLetters (g : Given) : List Char → Except Stop Given
  | [] => .ok g
  | c :: rest =>
    match shortNames.lookup c with
    | some (.setting s) =>
      .ok (if rest.isEmpty then g.addSetting s else g.addAttached s rest false)
    | some (.switch s) => (g.addSwitch s).addLetters rest
    | some .about => .error .about
    | none => .error .misuse

/-- Takes an argument. A dash alone is no option. -/
def add (g : Given) (argument : String) : Except Stop Given :=
  if g.isTrailing then g.addWord argument
  else
    match argument.toList with
    | ['-', '-'] => .ok { g with isTrailing := true }
    | '-' :: '-' :: rest => g.addLong rest
    | '-' :: c :: rest => g.addLetters (c :: rest)
    | _ => if g.isOpen then .ok (g.addValue argument) else g.addWord argument

/-- All values of an option. -/
def values (g : Given) (s : Setting) : List String :=
  (g.settings.reverse.filter (·.1 == s)).flatMap (·.2)

/-- How often an option is given. -/
def occurrences (g : Given) (s : Setting) : Nat :=
  g.settings.countP (·.1 == s)

/-- Whether an option is given as often as it may be, and with a value if it needs one. -/
def accepts (g : Given) (s : Setting) : Bool :=
  g.occurrences s == 0 ||
    ((s.isMultiple || g.occurrences s == 1) && (s.hasDefault || !(g.values s).isEmpty))

end Given

end CommandLine

/-- What arguments ask for. -/
structure Invocation where
  /-- What the session does. -/
  options : Options
  /-- Whether nothing is told besides the result. -/
  quiet : Bool := false
deriving Repr, Inhabited

namespace Invocation

open CommandLine

/-- The invocation that complete arguments stand for. -/
def ofGiven (g : Given) : Except Stop Invocation :=
  match g.words with
  | [input, output] =>
    if Setting.all.all g.accepts && g.switches.eraseDups.length == g.switches.length &&
        (g.values .threads).all (fun v => (Text.count? v.toList).isSome) then
      let value := fun s => (g.values s).head?
      .ok { quiet := g.switches.contains .quiet
            options := {
              input, output
              stages := g.values .stages
              nameTable := value .nameTable
              defaultPackage := (value .defaultPackage).getD "deob"
              staticsClass := (value .staticsClass).getD "Statics"
              sources := value .sources
              decompiler := value .decompiler
              statistics := value .statistics
              drawings := value .drawings
              dry := g.switches.contains .dry } }
    else .error .misuse
  | _ => .error .misuse

/-- The invocation that arguments stand for. The first argument that asks about the program, or that
cannot be taken, decides; what is missing or given twice shows only at the end. -/
def ofArguments (arguments : List String) : Except Stop Invocation := do
  ofGiven (← arguments.foldlM (fun g argument => g.add argument) {})

end Invocation

namespace CommandLine

/-- The name of the program and its version. -/
def version : String := "jdeob 0.4.0"

/-- How the program is called. -/
def usage : String := "    jdeob [FLAGS] [OPTIONS] <input> <output>"

/-- The line that tells of a session. -/
def summary (input : String) (reports : List Report) : String :=
  "Ran " ++ toString reports.length ++ " stages over " ++ Text.quoted input ++ " in " ++
    toString (reports.foldr (fun r n => r.passes + n) 0) ++ " passes"

/-- What the program leaves behind. -/
structure Reply where
  /-- The exit code. -/
  exitCode : UInt32
  /-- The lines of the result. -/
  output : List String := []
  /-- The lines that tell of faults and doubts. -/
  complaints : List String := []
deriving Repr, Inhabited

variable {m : Type → Type} [Monad m]

/-- Runs the program on a host. -/
def run (h : Host m) (arguments : List String) : m Reply := do
  match Invocation.ofArguments arguments with
  | .error .about => return { exitCode := 0, output := [version, usage] }
  | .error .misuse => return { exitCode := 1, complaints := [usage] }
  | .ok i =>
    let (result, notes) ← (Session.run h (.ofOptions h i.options) i.options).execute
    let told := if i.quiet then [] else notes.map Note.text
    match result with
    | .ok reports =>
      return { exitCode := 0, output := [summary i.options.input reports], complaints := told }
    | .error .overflow => return { exitCode := 101, complaints := told ++ [Error.overflow.message] }
    | .error e =>
      let fault := "failed to deobfuscate " ++ Text.quoted i.options.input ++ ": " ++ e.message
      return { exitCode := 1, complaints := told ++ [fault] }

end CommandLine

end Unscramble
