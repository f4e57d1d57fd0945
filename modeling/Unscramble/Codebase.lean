import Unscramble.Class.Basic
import Unscramble.Naming.Table

/-! # Codebases

The classes that are cleaned up together, with the name table that a renaming left for later. -/

namespace Unscramble

/-- The classes under work. -/
structure Codebase where
  /-- The classes in order. -/
  classes : List Class := []
  /-- The name table to be saved at the end. -/
  nameTable : Option Naming.Table := none
deriving Inhabited

namespace Codebase

/-- The first class with a given name. -/
def class? (p : Codebase) (name : String) : Option Class :=
  p.classes.find? (·.name == name)

/-- The position of the first class with a given name. -/
def classIndex? (p : Codebase) (name : String) : Option Nat :=
  p.classes.findIdx? (·.name == name)

/-- Changes the first class with a given name. -/
def modifyClass (p : Codebase) (name : String) (f : Class → Class) : Codebase :=
  { p with classes := modifyFirst (·.name == name) f p.classes }

/-- Every method, class by class. -/
def methods (p : Codebase) : List Method :=
  p.classes.flatMap (·.methods)

/-- Every body. -/
def bodies (p : Codebase) : List Body :=
  p.methods.filterMap (·.body)

end Codebase

end Unscramble
