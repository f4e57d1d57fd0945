import Unscramble.Session.Host
import Unscramble.Text.Basic

/-! # Disks

A tree of files that is held in memory, as a host on which sessions can be run and reasoned about.

Main definitions: `Disk`, `Disk.host`. -/

namespace Unscramble

/-- A place in a tree of files: the names that lead to it from the folder that paths start from. A
place outside that folder starts with `".."`, one that is told from the top with `"/"`. -/
abbrev Place := List String

namespace Place

/-- Whether a place is a folder around the one that paths start from, or the top. -/
def isAround (place : Place) : Bool :=
  place.all (· == "..") || place == ["/"]

/-- The place of the folder that a place is in. -/
def parent (place : Place) : Place :=
  if place == ["/"] then place
  else if place.isAround then place ++ [".."]
  else place.dropLast

end Place

/-- What stands at a place. -/
inductive Stored where
  /-- A folder. -/
  | folder
  /-- A file. -/
  | file (content : Bytes)
deriving DecidableEq, Repr, Inhabited

/-- A path as it is written. -/
structure Path where
  /-- The place that it starts from. -/
  start : Place
  /-- The names in it, with `"."` and `".."` where they stand. -/
  names : List String
  /-- Whether a slash ends it. -/
  endsWithSlash : Bool := false
deriving DecidableEq, Repr, Inhabited

namespace Path

/-- The path of a text. -/
def ofText (text : String) : Path :=
  let start := if text.toList.head? == some '/' then ["/"] else []
  ⟨start, (text.splitOn "/").filter (· != ""), text.toList.getLast? == some '/'⟩

/-- Whether nothing is written. -/
def isEmpty (p : Path) : Bool :=
  p.start.isEmpty && p.names.isEmpty

/-- The names without those that lead nowhere. -/
def steps (p : Path) : List String :=
  match p.names with
  | "." :: rest => if p.start.isEmpty then "." :: rest.filter (· != ".") else rest.filter (· != ".")
  | names => names.filter (· != ".")

/-- The path of the folder around, if there is one. -/
def parent? (p : Path) : Option Path :=
  if p.steps.isEmpty then none
  else some { p with names := p.steps.dropLast, endsWithSlash := false }

/-- The names with one at the end that only a folder has, if a slash ends the path. -/
def allNames (p : Path) : List String :=
  if p.endsWithSlash then p.names ++ ["."] else p.names

end Path

/-- Where a path leads. -/
inductive Target where
  /-- To something that is there. -/
  | present (place : Place) (item : Stored)
  /-- To a place in a folder where nothing is. -/
  | free (place : Place)
  /-- Nowhere, because a folder on the way is missing. -/
  | lost
  /-- Nowhere, because a file is where a folder would have to be. -/
  | blocked
deriving DecidableEq, Repr, Inhabited

/-- A tree of files. The folder that paths start from always exists. -/
structure Disk where
  /-- The places that are in use. -/
  items : List (Place × Stored) := []
  /-- The programs that run without failing; all others do not exist. -/
  programs : List String := []
deriving Repr, Inhabited

namespace Disk

/-- The disk that holds some files in the folder that paths start from. -/
def ofFiles (files : List (String × Bytes)) (programs : List String) : Disk :=
  ⟨files.map fun (name, content) => ([name], .file content), programs⟩

/-- What stands at a place. -/
def item? (d : Disk) (place : Place) : Option Stored :=
  if place.isAround then some .folder else d.items.lookup place

/-- Puts something at a place, in place of what was there. -/
def put (d : Disk) (place : Place) (item : Stored) : Disk :=
  { d with items := d.items.filter (·.1 != place) ++ [(place, item)] }

/-- Where a name leads from a place. -/
def step (d : Disk) (place : Place) : Stored → String → Target
  | .file _, _ => .blocked
  | .folder, "." => .present place .folder
  | .folder, ".." => .present place.parent .folder
  | .folder, name =>
    match d.item? (place ++ [name]) with
    | some item => .present (place ++ [name]) item
    | none => .free (place ++ [name])

/-- Where names lead from a target. -/
def follow (d : Disk) (target : Target) (names : List String) : Target :=
  names.foldl (fun target name =>
    match target with
    | .present place item => d.step place item name
    | .free _ => .lost
    | stuck => stuck) target

/-- Where a path leads. An empty one leads nowhere. -/
def target (d : Disk) (p : Path) : Target :=
  if p.isEmpty then .lost else d.follow (.present p.start .folder) p.allNames

/-- What is found at a path. -/
def find (d : Disk) (path : String) : Found :=
  match d.target (.ofText path) with
  | .present _ (.file content) => .file content
  | .present _ .folder => .unreadable
  | .blocked => .unreadable
  | _ => .missing

/-- Whether a path is that of a folder. -/
def isFolderAt (d : Disk) (p : Path) : Bool :=
  match d.target p with
  | .present _ .folder => true
  | _ => false

/-- Puts a file at a path, if it can be there. -/
def write (d : Disk) (path : String) (content : Bytes) : Except Error Disk :=
  match d.target (.ofText path) with
  | .present place (.file _) => .ok (d.put place (.file content))
  | .free place => .ok (d.put place (.file content))
  | _ => .error (.io path)

/-- What making one folder comes to. -/
inductive Made where
  /-- The folder is made. -/
  | done (d : Disk)
  /-- A folder around it is missing. -/
  | tooEarly
  /-- It exists, or it cannot be made. -/
  | refused

/-- Makes a folder in one that exists. -/
def makeOne (d : Disk) (p : Path) : Made :=
  match d.target { p with endsWithSlash := false } with
  | .free place => .done (d.put place .folder)
  | .lost => .tooEarly
  | _ => .refused

/-- Makes a folder and at most `fuel` of those around it. The answer is whether it is there in the
end; what was made stays in any case. -/
def makeAll (d : Disk) (p : Path) : (fuel : Nat) → Bool × Disk
  | 0 => (false, d)
  | fuel + 1 =>
    if p.isEmpty then (true, d)
    else
      match d.makeOne p with
      | .done d => (true, d)
      | .refused => (d.isFolderAt p, d)
      | .tooEarly =>
        match p.parent? with
        | none => (false, d)
        | some parent =>
          match d.makeAll parent fuel with
          | (false, d) => (false, d)
          | (true, d) =>
            match d.makeOne p with
            | .done d => (true, d)
            | _ => (d.isFolderAt p, d)

/-- Makes a folder and those around it. -/
def makeFolder (d : Disk) (path : String) : Except Error Unit × Disk :=
  let p := Path.ofText path
  match d.makeAll p (p.names.length + 1) with
  | (true, d) => (.ok (), d)
  | (false, d) => (.error (.io path), d)

/-- Whether a file can be made in the folder of a path. -/
def hasFolder (d : Disk) (path : String) : Bool :=
  match (Path.ofText path).parent? with
  | none => true
  | some parent => parent.isEmpty || d.isFolderAt parent

/-- Does something that may fail, and nothing if it does. -/
def change (f : Disk → Except Error Disk) : StateM Disk (Except Error Unit) := fun d =>
  match f d with
  | .ok d => (.ok (), d)
  | .error e => (.error e, d)

/-- A disk as a host. -/
def host : Host (StateM Disk) where
  read path := (·.find path) <$> get
  makeFolder path := fun d => d.makeFolder path
  write path content := change (·.write path content)
  replace path content := change fun d =>
    if d.hasFolder path then content >>= d.write path else .error (.io path)
  run program _ := change fun d =>
    if d.programs.contains program then .ok d else .error (.io program)

/-- The content of the file at a path. -/
def file? (d : Disk) (path : String) : Option Bytes :=
  match d.find path with
  | .file content => some content
  | _ => none

/-- The text of the file at a path. -/
def text? (d : Disk) (path : String) : Option String :=
  (d.file? path).map Text.ofUtf8

/-- Whether there is a folder at a path. -/
def isFolder (d : Disk) (path : String) : Bool :=
  d.isFolderAt (.ofText path)

/-- The names in the folder that paths start from, in order. -/
def names (d : Disk) : List String :=
  (d.items.filterMap fun (place, _) =>
    match place with
    | [name] => some name
    | _ => none).mergeSort fun a b => decide (a ≤ b)

/-- The texts of the files in a folder, which is in the one that paths start from, by name. -/
def textsIn (d : Disk) (folder : String) : List (String × String) :=
  d.items.filterMap fun (place, item) =>
    match item with
    | .file content =>
      if place.dropLast == [folder] then
        place.getLast?.map fun name => (name, Text.ofUtf8 content)
      else none
    | .folder => none

end Disk

end Unscramble
