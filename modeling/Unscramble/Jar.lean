import Unscramble.Binary.ClassFile
import Unscramble.Codebase
import Unscramble.Zip.Archive

/-! # Jars

A jar is an archive of class files and other files. The classes are decoded in the order of their
entry names; the other files are carried along.

Main definitions: `Jar`, `Jar.read`, `Jar.bytes`. -/

namespace Unscramble

/-- The content of a jar. -/
structure Jar where
  /-- The classes. -/
  codebase : Codebase := {}
  /-- The other files. -/
  resources : List Zip.Entry := []
deriving Inhabited

namespace Jar

/-- What the name of a class file ends with. -/
def suffix : String := ".class"

/-- Whether a file is a class file. -/
def holdsClass (e : Zip.Entry) : Bool :=
  suffix.toList.isSuffixOf e.name.toList

/-- Orders files by name. -/
def sortByName (entries : List Zip.Entry) : List Zip.Entry :=
  entries.mergeSort fun a b => decide (a.name ≤ b.name)

/-- The class in a file. A class whose own name is not known is told of by the name of the file. -/
def classOf (e : Zip.Entry) : Except Error Class :=
  match Binary.ClassFile.decode e.data with
  | .error (.classFormat "?" cause) => .error (.classFormat e.name cause)
  | result => result

/-- The jar that files make up. Folders are left out. -/
def ofEntries (entries : List Zip.Entry) : Except Error Jar := do
  let files := sortByName (entries.filter (!·.isFolder))
  let classes ← (files.filter holdsClass).mapM classOf
  return ⟨{ classes }, files.filter (!holdsClass ·)⟩

/-- The file of a class. -/
def entryOf (c : Class) : Except Error Zip.Entry := do
  return ⟨c.name ++ suffix, ← Binary.ClassFile.encode c⟩

/-- The files of a jar: its classes by name and then the others. -/
def toEntries (j : Jar) : Except Error (List Zip.Entry) := do
  return sortByName (← j.codebase.classes.mapM entryOf) ++ j.resources

/-- The error that a fault in an archive is. Content that cannot be unpacked is a fault of the file.
-/
def faultError (path : String) : Zip.Fault → Error
  | .damaged name => .io (path ++ "/" ++ name)
  | fault => .archive fault.message

/-- The jar at a path, given the bytes there. An empty file is no archive that could be read. -/
def read (path : String) (bs : Bytes) : Except Error Jar :=
  if bs.isEmpty then .error (.io path)
  else
    match Zip.read bs with
    | .error fault => .error (faultError path fault)
    | .ok entries => ofEntries entries

/-- The archive of some files for a path. -/
def archive (path : String) (entries : List Zip.Entry) : Except Error Bytes :=
  match Zip.bytes entries with
  | .error fault => .error (faultError path fault)
  | .ok bs => .ok bs

end Jar

end Unscramble
