import Unscramble.Annotation
import Unscramble.Binary.Body

/-! # Encoded annotations

Annotations stand in two parts of a declaration, one for those that can be seen at run time and one
for the others.

Main definitions: `annotationsOf`, `annotationParts`. -/

namespace Unscramble.Binary

open Reader

/-- The part with the annotations that can be seen at run time. -/
def visibleAnnotations : String := "RuntimeVisibleAnnotations"

/-- The part with the other annotations. -/
def invisibleAnnotations : String := "RuntimeInvisibleAnnotations"

/-- The tags of values that are numbers, characters or truth values. -/
def primitiveTags : List Char := ['B', 'C', 'D', 'F', 'I', 'J', 'S', 'Z']

/-- Reads a name and a value. -/
def readNamed {α : Type} (pool : Pool) (value : Reader α) : Reader (String × α) := do
  let name ← indexed pool.utf8At
  return (name, ← value)

/-- Reads an annotation value. Each value inside another one takes a byte at least, so the nesting
is not deeper than the input is long, and `depth` need not exceed that. -/
def readElement (pool : Pool) (visible : Bool) : (depth : Nat) → Reader Element
  | 0 => fail .truncated
  | depth + 1 => do
    let tag ← u8
    match Char.ofNat tag.toNat with
    | 's' => return .const tag (.string (← indexed pool.utf8At))
    | 'e' => return .enum (← indexed pool.utf8At) (← indexed pool.utf8At)
    | 'c' => return .ofClass (← indexed pool.utf8At)
    | '@' =>
      let descriptor ← indexed pool.utf8At
      let values ← counted (readNamed pool (readElement pool visible depth))
      return .nested descriptor visible values
    | '[' => return .array (← counted (readElement pool visible depth))
    | c =>
      if primitiveTags.contains c then return .const tag (← indexed pool.constantAt)
      else fail (.badElementTag tag)

/-- Reads an annotation. -/
def annotationReader (pool : Pool) (visible : Bool) (depth : Nat) : Reader Annotation := do
  let descriptor ← indexed pool.utf8At
  return ⟨descriptor, visible, ← counted (readNamed pool (readElement pool visible depth))⟩

/-- The annotations that the contents of a part spell. -/
def readAnnotations (pool : Pool) (visible : Bool) (data : Bytes) :
    Except Malformation (List Annotation) :=
  (counted (annotationReader pool visible (data.length + 1))).on data

/-- The annotations in a part, if it is one that holds annotations. -/
def annotationsOf (pool : Pool) (a : Attribute) : Except Malformation (List Annotation) :=
  if a.name == visibleAnnotations then readAnnotations pool true a.data
  else if a.name == invisibleAnnotations then readAnnotations pool false a.data
  else .ok []

mutual

/-- The bytes of an annotation value. -/
def elementBytes : Element → PoolM Bytes
  | .const tag value =>
    match value with
    | .string text => do
      if tag.toNat = 's'.toNat then return byte tag ++ word16 (← Pool.utf8 text)
      else return byte tag ++ word16 (← Pool.constant (.string text))
    | value => do return byte tag ++ word16 (← Pool.constant value)
  | .enum typeName constName => do
    return byte 'e'.toUInt8 ++ word16 (← Pool.utf8 typeName) ++ word16 (← Pool.utf8 constName)
  | .ofClass descriptor => do return byte 'c'.toUInt8 ++ word16 (← Pool.utf8 descriptor)
  | .nested descriptor _ values => do
    let i ← Pool.utf8 descriptor
    return byte '@'.toUInt8 ++ word16 i ++ count16 values.length ++ (← namedBytes values)
  | .array values => do
    return byte '['.toUInt8 ++ count16 values.length ++ (← elementsBytes values)

/-- The bytes of annotation values one after the other. -/
def elementsBytes : List Element → PoolM Bytes
  | [] => return []
  | e :: rest => do
    let first ← elementBytes e
    return first ++ (← elementsBytes rest)

/-- The bytes of named annotation values one after the other. -/
def namedBytes : List (String × Element) → PoolM Bytes
  | [] => return []
  | (name, e) :: rest => do
    let i ← Pool.utf8 name
    let first ← elementBytes e
    return word16 i ++ first ++ (← namedBytes rest)

end

/-- The bytes of an annotation. -/
def annotationBytes (a : Annotation) : PoolM Bytes := do
  let i ← Pool.utf8 a.descriptor
  return word16 i ++ count16 a.values.length ++ (← namedBytes a.values)

/-- The part with the annotations of one kind, if there are any. -/
def annotationPart (name : String) (group : List Annotation) : PoolM (List Bytes) :=
  if group.isEmpty then return [] else part name (countedBytes group annotationBytes)

/-- The parts with the annotations of a declaration. -/
def annotationParts (annotations : List Annotation) : PoolM (List Bytes) := do
  let visible ← annotationPart visibleAnnotations (annotations.filter (·.visible))
  let others ← annotationPart invisibleAnnotations (annotations.filter fun a => !a.visible)
  return visible ++ others

end Unscramble.Binary
