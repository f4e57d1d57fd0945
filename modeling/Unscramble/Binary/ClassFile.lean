import Unscramble.Binary.Annotations
import Unscramble.Binary.PoolFormat
import Unscramble.Class.Basic
import Unscramble.Error

/-! # Class files

Reading a class from the bytes of a class file and writing it again. A class keeps the pool it was
read with and a writer adds to it, so that parts which are carried along stay valid.

Main definitions: `ClassFile.decode`, `ClassFile.encode`. -/

namespace Unscramble.Binary.ClassFile

open Reader

/-- The first four bytes of a class file. -/
def magic : UInt32 := 0xcafebabe

/-- What stands in a class file up to the name of the class. -/
structure Header where
  /-- The minor version. -/
  minor : UInt16
  /-- The major version. -/
  major : UInt16
  /-- The constant pool. -/
  pool : Pool
  /-- The access flags. -/
  access : Access
  /-- The name of the class. -/
  name : String

/-- Reads a class file up to the name of the class. -/
def readHeader : Reader Header := do
  if (← u32) != magic then fail .badMagic
  let minor ← u16
  let major ← u16
  let pool ← Pool.read
  let access ← u16
  return ⟨minor, major, pool, ⟨access⟩, ← indexed pool.classAt⟩

/-- Whether a part holds annotations. -/
def holdsAnnotations (a : Attribute) : Bool :=
  a.name == visibleAnnotations || a.name == invisibleAnnotations

/-- Adds what a part of a field says. -/
def addFieldPart (pool : Pool) (f : Field) (a : Attribute) : Except Malformation Field := do
  if a.name == "ConstantValue" then
    return { f with value := some (← (indexed pool.constantAt).on a.data) }
  else if holdsAnnotations a then
    return { f with annotations := f.annotations ++ (← annotationsOf pool a) }
  else return { f with attributes := f.attributes ++ [a] }

/-- Reads a field. -/
def readField (pool : Pool) (owner : String) : Reader Field := do
  let access ← u16
  let name ← indexed pool.utf8At
  let descriptor ← indexed pool.utf8At
  let parts ← readAttributes pool
  require (parts.foldlM (addFieldPart pool) { owner, name, descriptor, access := ⟨access⟩ })

/-- Adds what a part of a method says. -/
def addMethodPart (pool : Pool) (m : Method) (a : Attribute) : Except Malformation Method := do
  if a.name == "Code" then return { m with body := some (← (readBody pool).on a.data) }
  else if a.name == "Exceptions" then
    return { m with exceptions := m.exceptions ++ (← (counted (indexed pool.classAt)).on a.data) }
  else if holdsAnnotations a then
    return { m with annotations := m.annotations ++ (← annotationsOf pool a) }
  else return { m with attributes := m.attributes ++ [a] }

/-- Reads a method. -/
def readMethod (pool : Pool) (owner : String) : Reader Method := do
  let access ← u16
  let name ← indexed pool.utf8At
  let descriptor ← indexed pool.utf8At
  let parts ← readAttributes pool
  require (parts.foldlM (addMethodPart pool) { owner, name, descriptor, access := ⟨access⟩ })

/-- Reads what is recorded of a nested class. -/
def readInnerClass (pool : Pool) : Reader InnerClass := do
  let inner ← indexed pool.classAt
  let outer ← indexed? pool.classAt
  let name ← indexed? pool.utf8At
  return ⟨inner, outer, name, ⟨← u16⟩⟩

/-- Adds what a part of a class says. -/
def addClassPart (pool : Pool) (c : Class) (a : Attribute) : Except Malformation Class := do
  if a.name == "SourceFile" then
    return { c with sourceFile := some (← (indexed pool.utf8At).on a.data) }
  else if a.name == "InnerClasses" then
    let listed ← (counted (readInnerClass pool)).on a.data
    return { c with innerClasses := c.innerClasses ++ listed }
  else if holdsAnnotations a then
    return { c with annotations := c.annotations ++ (← annotationsOf pool a) }
  else return { c with attributes := c.attributes ++ [a] }

/-- Reads a class file behind the name of the class. -/
def readRest (h : Header) : Reader Class := do
  let superclass ← indexed? h.pool.classAt
  let interfaces ← counted (indexed h.pool.classAt)
  let fields ← counted (readField h.pool h.name)
  let methods ← counted (readMethod h.pool h.name)
  let parts ← readAttributes h.pool
  require (parts.foldlM (addClassPart h.pool)
    { name := h.name, superclass, interfaces, access := h.access, fields, methods
      minorVersion := h.minor, majorVersion := h.major, pool := some h.pool })

/-- The class that the bytes of a class file spell. What follows the class is ignored. An error
before the name of the class is known is told of `?`. -/
def decode (bs : Bytes) : Except Error Class :=
  match readHeader.run ⟨bs, 0⟩ with
  | .error cause => .error (.inClass "?" cause)
  | .ok (h, c) =>
    match (readRest h).run c with
    | .error cause => .error (.inClass h.name cause)
    | .ok (c, _) => .ok c

/-- The bytes of a field. -/
def fieldBytes (f : Field) : PoolM Bytes := do
  let name ← Pool.utf8 f.name
  let descriptor ← Pool.utf8 f.descriptor
  let value ← match f.value with
    | none => pure []
    | some c => part "ConstantValue" (word16 <$> Pool.constant c)
  let annotations ← annotationParts f.annotations
  let carried ← carriedParts f.attributes
  return word16 f.access.bits ++ word16 name ++ word16 descriptor ++
    partTable (value ++ annotations ++ carried)

/-- The bytes of a method. -/
def methodBytes (m : Method) : PoolM Bytes := do
  let name ← Pool.utf8 m.name
  let descriptor ← Pool.utf8 m.descriptor
  let code ← match m.body with
    | none => pure []
    | some b => part "Code" (bodyBytes m.text b)
  let exceptions ←
    if m.exceptions.isEmpty then pure []
    else part "Exceptions" (countedBytes m.exceptions fun e => word16 <$> Pool.ofClass e)
  let annotations ← annotationParts m.annotations
  let carried ← carriedParts m.attributes
  return word16 m.access.bits ++ word16 name ++ word16 descriptor ++
    partTable (code ++ exceptions ++ annotations ++ carried)

/-- The bytes of what is recorded of a nested class. -/
def innerClassBytes (i : InnerClass) : PoolM Bytes := do
  let inner ← Pool.ofClass i.inner
  let outer ← indexOrZero Pool.ofClass i.outer
  let name ← indexOrZero Pool.utf8 i.name
  return word16 inner ++ word16 outer ++ word16 name ++ word16 i.access.bits

/-- The parts of a class. -/
def classParts (c : Class) : PoolM (List Bytes) := do
  let source ← match c.sourceFile with
    | none => pure []
    | some name => part "SourceFile" (word16 <$> Pool.utf8 name)
  let inner ←
    if c.innerClasses.isEmpty then pure []
    else part "InnerClasses" (countedBytes c.innerClasses innerClassBytes)
  let annotations ← annotationParts c.annotations
  let carried ← carriedParts c.attributes
  return source ++ inner ++ annotations ++ carried

/-- The bytes of a class behind its pool. -/
def classBytes (c : Class) : PoolM Bytes := do
  let name ← Pool.ofClass c.name
  let superclass ← indexOrZero Pool.ofClass c.superclass
  let interfaces ← countedBytes c.interfaces fun i => word16 <$> Pool.ofClass i
  let fields ← countedBytes c.fields fieldBytes
  let methods ← countedBytes c.methods methodBytes
  let parts ← classParts c
  return word16 c.access.bits ++ word16 name ++ word16 superclass ++ interfaces ++ fields ++
    methods ++
    partTable parts

/-- The bytes of the class file of a class. -/
def encode (c : Class) : Except Error Bytes :=
  match (classBytes c).run.run (c.pool.getD .empty) with
  | (.error cause, _) => .error (.inClass c.name cause)
  | (.ok bs, pool) =>
    .ok (word32 magic ++ word16 c.minorVersion ++ word16 c.majorVersion ++ pool.bytes ++ bs)

end Unscramble.Binary.ClassFile
