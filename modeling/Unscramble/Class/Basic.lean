import Unscramble.Annotation
import Unscramble.Binary.Pool
import Unscramble.Body

/-! # Classes

A class with its fields and methods, each with its sixteen access flags, which can be widened in two
ways.

Main definitions: `Access`, `Field`, `Method`, `Class`. -/

namespace Unscramble

/-! ### Access flags -/

/-- A set of access flags, one per bit. -/
structure Access where
  /-- The flags as they stand in a class file. -/
  bits : UInt16
deriving DecidableEq, Repr, Inhabited

namespace Access

/-- Visible everywhere. -/
def publicFlag : Access := ⟨0x0001⟩

/-- Visible in the declaring class only. -/
def privateFlag : Access := ⟨0x0002⟩

/-- Visible in the package and in subclasses. -/
def protectedFlag : Access := ⟨0x0004⟩

/-- Belongs to the class and not to its instances. -/
def staticFlag : Access := ⟨0x0008⟩

/-- Cannot be extended, overridden or assigned again. -/
def finalFlag : Access := ⟨0x0010⟩

/-- A method that holds a lock while it runs; on a class the flag selects modern superclass calls.
-/
def synchronizedFlag : Access := ⟨0x0020⟩

/-- An interface. -/
def interfaceFlag : Access := ⟨0x0200⟩

/-- Made by a compiler and absent from the source. -/
def syntheticFlag : Access := ⟨0x1000⟩

/-- The three flags that say who may see a declaration. -/
def visibility : Access := ⟨0x0007⟩

/-- Whether all flags of `b` are set in `a`. -/
def contains (a b : Access) : Bool :=
  a.bits &&& b.bits == b.bits

/-- The flags of `a` and of `b`. -/
def union (a b : Access) : Access :=
  ⟨a.bits ||| b.bits⟩

/-- The flags of `a` without those of `b`. -/
def diff (a b : Access) : Access :=
  ⟨a.bits &&& ~~~b.bits⟩

/-- Visible in the package: none of the visibility flags is set. -/
def isPackage (a : Access) : Bool :=
  a.bits &&& visibility.bits == 0

/-- Replaces the visibility by `public`. -/
def publish (a : Access) : Access :=
  (a.diff visibility).union publicFlag

/-- The access of a widened class: public and not final. -/
def widenClass (a : Access) : Access :=
  (((a.diff privateFlag).diff protectedFlag).diff finalFlag).union publicFlag

/-- The access of a widened member: public if it was visible in the package, unchanged otherwise. -/
def widenMember (a : Access) : Access :=
  if a.isPackage then a.union publicFlag else a

end Access

/-! ### Fields -/

/-- A field declaration. -/
structure Field where
  /-- The name of the class that declares it. -/
  owner : String
  /-- The field's name. -/
  name : String
  /-- The field's type. -/
  descriptor : String
  /-- The access flags. -/
  access : Access
  /-- The value the field starts with. -/
  value : Option Constant := none
  /-- The annotations. -/
  annotations : List Annotation := []
  /-- The parts that are carried along. -/
  attributes : List Attribute := []
deriving Repr, Inhabited

namespace Field

/-- The reference that names the declaration. -/
def key (f : Field) : Member :=
  ⟨f.owner, f.name, f.descriptor⟩

/-- Whether the field belongs to the class and not to its instances. -/
def isStatic (f : Field) : Bool :=
  f.access.contains .staticFlag

/-- Whether only the declaring class sees the field. -/
def isPrivate (f : Field) : Bool :=
  f.access.contains .privateFlag

/-- Whether the field has this name and this type. -/
def isNamed (name descriptor : String) (f : Field) : Bool :=
  f.name == name && f.descriptor == descriptor

end Field

/-! ### Methods -/

/-- A method declaration. -/
structure Method where
  /-- The name of the class that declares it. -/
  owner : String
  /-- The method's name. -/
  name : String
  /-- The method's argument and return types. -/
  descriptor : String
  /-- The access flags. -/
  access : Access
  /-- The body, which abstract and native methods lack. -/
  body : Option Body := none
  /-- The exception classes that the method declares to throw. -/
  exceptions : List String := []
  /-- The annotations. -/
  annotations : List Annotation := []
  /-- The parts that are carried along. -/
  attributes : List Attribute := []
deriving Repr, Inhabited

namespace Method

/-- The reference that names the declaration. -/
def key (m : Method) : Member :=
  ⟨m.owner, m.name, m.descriptor⟩

/-- Whether the method belongs to the class and not to its instances. -/
def isStatic (m : Method) : Bool :=
  m.access.contains .staticFlag

/-- Whether only the declaring class sees the method. -/
def isPrivate (m : Method) : Bool :=
  m.access.contains .privateFlag

/-- Whether the method initializes an instance. -/
def isConstructor (m : Method) : Bool :=
  m.name == "<init>"

/-- Whether the method initializes the class. -/
def isInitializer (m : Method) : Bool :=
  m.name == "<clinit>"

/-- Whether the method has this name and these types. -/
def isNamed (name descriptor : String) (m : Method) : Bool :=
  m.name == name && m.descriptor == descriptor

/-- The first local slot that neither the receiver nor an argument takes. It is at most 65535 if the
descriptor has no more than 32767 characters. -/
def firstLocal (m : Method) : Nat :=
  (if m.isStatic then 0 else 1) + Descriptor.argumentSlots m.descriptor

/-- The method in a message. -/
def text (m : Method) : String :=
  m.owner ++ "." ++ m.name ++ m.descriptor

end Method

/-! ### Classes -/

/-- Changes the first element that satisfies `test`. -/
def modifyFirst {α : Type} (test : α → Bool) (f : α → α) : List α → List α
  | [] => []
  | a :: rest => if test a then f a :: rest else a :: modifyFirst test f rest

/-- What a class records of a nested class. -/
structure InnerClass where
  /-- The nested class. -/
  inner : String
  /-- The class it is a member of. -/
  outer : Option String
  /-- Its name in the source. -/
  name : Option String
  /-- Its access flags in the source. -/
  access : Access
deriving DecidableEq, Repr, Inhabited

/-- A class. -/
structure Class where
  /-- The name, with the parts of its package before slashes. -/
  name : String
  /-- The superclass. -/
  superclass : Option String
  /-- The interfaces in order. -/
  interfaces : List String := []
  /-- The access flags. -/
  access : Access
  /-- The fields in order. -/
  fields : List Field := []
  /-- The methods in order. -/
  methods : List Method := []
  /-- The annotations. -/
  annotations : List Annotation := []
  /-- What is recorded of nested classes. -/
  innerClasses : List InnerClass := []
  /-- The name of the source file. -/
  sourceFile : Option String := none
  /-- The parts that are carried along. -/
  attributes : List Attribute := []
  /-- The minor version of the class file. -/
  minorVersion : UInt16 := 0
  /-- The major version of the class file. -/
  majorVersion : UInt16 := 52
  /-- The constant pool the class was read with, to which a writer adds. -/
  pool : Option Binary.Pool := none
deriving Inhabited

namespace Class

/-- The package part of the name, empty for the default package. -/
def package (c : Class) : String :=
  String.ofList ((Text.throughLast '/' c.name).toList.dropLast)

/-- Whether the class is an interface. -/
def isInterface (c : Class) : Bool :=
  c.access.contains .interfaceFlag

/-- The superclass and then the interfaces. -/
def supertypes (c : Class) : List String :=
  c.superclass.toList ++ c.interfaces

/-- The first field with this name and this type. -/
def field? (c : Class) (name descriptor : String) : Option Field :=
  c.fields.find? (Field.isNamed name descriptor)

/-- The first method with this name and these types. -/
def method? (c : Class) (name descriptor : String) : Option Method :=
  c.methods.find? (Method.isNamed name descriptor)

/-- Changes the first method with this name and these types. -/
def modifyMethod (c : Class) (name descriptor : String) (f : Method → Method) : Class :=
  { c with methods := modifyFirst (Method.isNamed name descriptor) f c.methods }

end Class

end Unscramble
