import Unscramble.Annotation
import Unscramble.Text.Basic

/-! # Names

Which names look obfuscated, which ones a renaming generates, and the names that are derived from
the name of a class. -/

namespace Unscramble.Naming

/-- The annotation that records the name a declaration had in the obfuscated build. -/
def obfuscatedName : String := "LObfuscatedName;"

/-- Short names that do mean something. -/
def meaningfulShortNames : List String := ["run", "add", "put", "get", "set", "uid", "dns"]

/-- One to three ASCII letters that are no meaningful name. -/
def isShortMeaningless (name : String) : Bool :=
  let cs := name.toList
  1 ≤ cs.length && cs.length ≤ 3 && cs.all Char.isAlpha && !meaningfulShortNames.contains name

/-- A short meaningless name or one of eight capital letters. -/
def isObfuscatedClass (name : String) : Bool :=
  (name.toList.length == 8 && name.toList.all Char.isUpper) || isShortMeaningless name

/-- Decides which names are to be replaced. Class names are looked at without their package. -/
structure Policy where
  /-- Whether the name of a class is to be replaced. -/
  ofClass : String → Bool := isObfuscatedClass
  /-- Whether the name of a field is to be replaced. -/
  ofField : String → Bool := isShortMeaningless
  /-- Whether the name of a method is to be replaced. -/
  ofMethod : String → Bool := isShortMeaningless

instance : Inhabited Policy := ⟨{}⟩

/-- The name of a class without its package. -/
def simpleName (name : String) : String :=
  Text.afterLast '/' name

/-- Whether a name is one that a renaming generates: `stem` and a decimal number. -/
def isGenerated (stem name : String) : Bool :=
  match Text.stripStart? stem name with
  | none => false
  | some digits => !digits.isEmpty && digits.toList.all Char.isDigit

/-- The name that a nested class has in the source. -/
def innerSimpleName (name : String) : String :=
  Text.afterLast '$' (simpleName name)

/-- The source file that a compiler would record for a class: the outermost class names it. -/
def sourceFileName (name : String) : String :=
  Text.beforeFirst '$' (simpleName name) ++ ".java"

/-- The name that annotations record from the obfuscated build. -/
def recordedName? (annotations : List Annotation) : Option String :=
  (annotations.find? (·.descriptor == obfuscatedName)).bind (·.stringValue? "value")

/-- The name of the class that gathers static members: in the default package unless it names one.
-/
def holderName (name defaultPackage : String) : String :=
  if name.toList.contains '/' then name else defaultPackage ++ "/" ++ name

end Unscramble.Naming
