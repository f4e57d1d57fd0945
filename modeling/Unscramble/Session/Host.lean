import Unscramble.Body
import Unscramble.Error
import Unscramble.Stage.Hook
import Unscramble.Text.Basic

/-! # Hosts

What a session needs from its surroundings: files, folders and other programs. A session is the same
whether it runs on real files or on a tree held in memory.

Main definition: `Host`. -/

namespace Unscramble

/-- What is found at a path. -/
inductive Found where
  /-- Nothing. -/
  | missing
  /-- Something that cannot be read as a file. -/
  | unreadable
  /-- A file. -/
  | file (content : Bytes)
deriving DecidableEq, Repr, Inhabited

/-- The name table file that was found at a path. It has to be UTF-8. -/
def Found.table (path : String) : Found → TableFile
  | .missing => .missing
  | .unreadable => .unreadable path
  | .file content =>
    match String.fromUTF8? ⟨content.toArray⟩ with
    | some text => .readable text
    | none => .unreadable path

/-- The surroundings of a session. -/
structure Host (m : Type → Type) where
  /-- Looks at a path. -/
  read : (path : String) → m Found
  /-- Makes a folder and those around it, unless it exists. -/
  makeFolder : (path : String) → m (Except Error Unit)
  /-- Writes a file. -/
  write : (path : String) → Bytes → m (Except Error Unit)
  /-- Puts a file in place once its content is complete. A failure leaves what was there, and a
  folder that cannot take the file is told before a fault of the content. -/
  replace : (path : String) → Except Error Bytes → m (Except Error Unit)
  /-- Runs a program to its end. -/
  run : (program : String) → (arguments : List String) → m (Except Error Unit)

/-- The path of a file in a folder. -/
def pathIn (folder name : String) : String :=
  if folder == "" then name else folder ++ "/" ++ name

namespace Host

variable {m : Type → Type}

/-- A host for computations that can do more. -/
def lift {n : Type → Type} [MonadLiftT m n] (h : Host m) : Host n where
  read path := liftM (h.read path)
  makeFolder path := liftM (h.makeFolder path)
  write path content := liftM (h.write path content)
  replace path content := liftM (h.replace path content)
  run program arguments := liftM (h.run program arguments)

/-- Writes a text file. -/
def writeText (h : Host m) (path text : String) : m (Except Error Unit) :=
  h.write path text.toUTF8.toList

end Host

/-! ### Decompilers

Another program that turns a jar into source files. It is given as a command line, to which the jar
and the folder for the sources are added.

Main definitions: `Command.ofText?`, `Command.decompile`. -/

/-- A program with its first arguments. -/
structure Command where
  /-- The program. -/
  program : String
  /-- Its first arguments. -/
  arguments : List String := []
deriving DecidableEq, Repr, Inhabited

namespace Command

/-- The command that a text spells, the first word of which is the program. -/
def ofText? (text : String) : Option Command :=
  match Text.words text with
  | [] => none
  | program :: arguments => some ⟨program, arguments⟩

variable {m : Type → Type} [Monad m]

/-- Turns a jar into source files in a folder, which is made if it does not exist. -/
def decompile (c : Command) (h : Host m) (jar folder : String) : m (Except Error Unit) := do
  match ← h.makeFolder folder with
  | .error e => return .error e
  | .ok () => h.run c.program (c.arguments ++ [jar, folder])

end Command

end Unscramble
