import Std.Data.HashMap
import Unscramble.Codebase
import Unscramble.Naming.Policy

/-! # Renamings

A renaming of classes and members, applied to every declaration and every reference of a codebase at
once.

Main definitions: `Renaming`, `Renaming.onMember`, `Renaming.apply`. -/

namespace Unscramble.Naming

/-- New names of classes and members. -/
structure Renaming where
  /-- The new names of the classes that change theirs. -/
  classes : Std.HashMap String String := ∅
  /-- The complete new references of members. -/
  members : Std.HashMap Member Member := ∅
deriving Inhabited

namespace Renaming

/-- Gives a class a new name. -/
def renameClass (r : Renaming) (old new : String) : Renaming :=
  if old == new then r else { r with classes := r.classes.insert old new }

/-- Gives a member a new reference, with its class and types already renamed. -/
def mapMember (r : Renaming) (old new : Member) : Renaming :=
  { r with members := r.members.insert old new }

/-- Whether the renaming names nothing. -/
def isEmpty (r : Renaming) : Bool :=
  r.classes.isEmpty && r.members.isEmpty

/-- The new name of a class. -/
def onClassName (r : Renaming) (name : String) : String :=
  (r.classes[name]?).getD name

/-- A descriptor with its classes renamed. -/
def onDescriptor (r : Renaming) (descriptor : String) : String :=
  Descriptor.mapClasses (r.classes[·]?) descriptor

/-- The class operand of an instruction, which may be an array type, renamed. -/
def onOperand (r : Renaming) (operand : String) : String :=
  Descriptor.mapClassOperand (r.classes[·]?) operand

/-- The new reference of a member: the one it was given, or the old one with its class and types
renamed. -/
def onMember (r : Renaming) (m : Member) : Member :=
  match r.members[m]? with
  | some new => new
  | none => ⟨r.onClassName m.owner, m.name, r.onDescriptor m.descriptor⟩

/-- A constant renamed. -/
def onConstant (r : Renaming) : Constant → Constant
  | .ofClass name => .ofClass (r.onOperand name)
  | .methodType d => .methodType (r.onDescriptor d)
  | .dynamic b name d => .dynamic b name (r.onDescriptor d)
  | .methodHandle kind m i => .methodHandle kind (r.onMember m) i
  | c => c

mutual

/-- An annotation value renamed. -/
def onElement (r : Renaming) : Element → Element
  | .const tag value => .const tag value
  | .enum typeName constName => .enum (r.onDescriptor typeName) constName
  | .ofClass d => .ofClass (r.onDescriptor d)
  | .nested d visible values => .nested (r.onDescriptor d) visible (onNamed r values)
  | .array values => .array (onElements r values)

/-- Annotation values renamed. -/
def onElements (r : Renaming) : List Element → List Element
  | [] => []
  | e :: rest => onElement r e :: onElements r rest

/-- Named annotation values renamed. -/
def onNamed (r : Renaming) : List (String × Element) → List (String × Element)
  | [] => []
  | (name, e) :: rest => (name, onElement r e) :: onNamed r rest

end

/-- An annotation renamed. -/
def onAnnotation (r : Renaming) (a : Annotation) : Annotation :=
  { a with descriptor := r.onDescriptor a.descriptor, values := r.onNamed a.values }

/-- An instruction renamed. -/
def onInstruction {L : Type} (r : Renaming) : Instruction L → Instruction L
  | .ofClass op name => .ofClass op (r.onOperand name)
  | .newArrays name dims => .newArrays (r.onOperand name) dims
  | .field op m => .field op (r.onMember m)
  | .invoke op m i => .invoke op (r.onMember m) i
  | .push c => .push (r.onConstant c)
  | .invokeDynamic call => .invokeDynamic { call with descriptor := r.onDescriptor call.descriptor }
  | insn => insn

/-- The linked instructions of a listing renamed. -/
def onListing (r : Renaming) (l : Listing) : Listing :=
  l.handles.foldl (fun l h => l.modify h r.onInstruction) l

/-- A body renamed. -/
def onBody (r : Renaming) (b : Body) : Body :=
  { b with
    listing := r.onListing b.listing
    guards := b.guards.map fun g => { g with catches := g.catches.map r.onClassName } }

/-- What a class records of a nested class, renamed. The name in the source follows the new name. -/
def onInnerClass (r : Renaming) (i : InnerClass) : InnerClass :=
  let i :=
    match r.classes[i.inner]? with
    | none => i
    | some new => { i with inner := new, name := i.name.map fun _ => innerSimpleName new }
  { i with outer := i.outer.map r.onClassName }

/-- A field of the class that is now called `owner`, renamed. -/
def onField (r : Renaming) (owner : String) (f : Field) : Field :=
  let new := r.onMember f.key
  { f with
    owner, name := new.name, descriptor := new.descriptor
    annotations := f.annotations.map r.onAnnotation }

/-- A method of the class that is now called `owner`, renamed. -/
def onMethod (r : Renaming) (owner : String) (m : Method) : Method :=
  let new := r.onMember m.key
  { m with
    owner, name := new.name, descriptor := new.descriptor
    exceptions := m.exceptions.map r.onClassName
    annotations := m.annotations.map r.onAnnotation
    body := m.body.map r.onBody }

/-- A class renamed. -/
def onClass (r : Renaming) (c : Class) : Class :=
  let name := r.onClassName c.name
  { c with
    name
    superclass := c.superclass.map r.onClassName
    interfaces := c.interfaces.map r.onClassName
    innerClasses := c.innerClasses.map r.onInnerClass
    annotations := c.annotations.map r.onAnnotation
    fields := c.fields.map (r.onField name)
    methods := c.methods.map (r.onMethod name) }

/-- Renames every declaration and every reference. -/
def apply (r : Renaming) (p : Codebase) : Codebase :=
  { p with classes := p.classes.map r.onClass }

end Renaming

end Unscramble.Naming
