import Unscramble.Constant

/-! # Annotations

Annotations of classes, fields and methods, with their nested element values. -/

namespace Unscramble

/-- The value of an annotation element. -/
inductive Element where
  /-- A primitive or text constant with the letter of its type. -/
  | const (tag : UInt8) (value : Constant)
  /-- A constant of an enumeration. -/
  | enum (typeName constName : String)
  /-- A class, by descriptor. -/
  | ofClass (descriptor : String)
  /-- A nested annotation. -/
  | nested (descriptor : String) (visible : Bool) (values : List (String × Element))
  /-- A list of values. -/
  | array (values : List Element)
deriving Repr, Inhabited

/-- An annotation. -/
structure Annotation where
  /-- The descriptor of the annotation's type. -/
  descriptor : String
  /-- Whether the annotation can be seen at run time. -/
  visible : Bool
  /-- The elements in order. -/
  values : List (String × Element)
deriving Repr, Inhabited

namespace Annotation

/-- The first element with a given name. -/
def value? (a : Annotation) (name : String) : Option Element :=
  a.values.lookup name

/-- The first element with a given name, if it is a text. -/
def stringValue? (a : Annotation) (name : String) : Option String :=
  match a.value? name with
  | some (.const _ (.string s)) => some s
  | _ => none

end Annotation

end Unscramble
