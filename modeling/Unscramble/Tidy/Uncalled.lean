import Std.Data.HashSet
import Unscramble.Codebase
import Unscramble.Naming.Policy

/-! # Uncalled methods

Methods that nothing calls. Calls are matched by name: a method stays while any instruction calls or
takes a handle of some method of that name. Only methods with generated names go, so entry points
and overrides of library methods stay.

Main definitions: `calledNames`, `removeUncalled`. -/

namespace Unscramble.Tidy

/-- What generated method names start with. -/
def methodStem : String := "method"

/-- The name of the method that an instruction calls or takes a handle of. -/
def calledName? : Instruction Label → Option String
  | .invoke _ m _ => some m.name
  | .push (.methodHandle _ m _) => some m.name
  | _ => none

/-- The names of the methods that instructions of a codebase call or take handles of. -/
def calledNames (p : Codebase) : Std.HashSet String :=
  p.bodies.foldl (fun names b =>
    b.listing.instructions.foldl (fun names i =>
      match calledName? i with
      | some name => names.insert name
      | none => names) names) ∅

/-- Whether a class calls through bootstrap methods. Their arguments are not looked into, so such a
class may take handles of methods unseen. -/
def usesDynamicCalls (c : Class) : Bool :=
  c.methods.any fun m => m.body.any fun b => b.listing.instructions.any fun i =>
    match i with
    | .invokeDynamic _ => true
    | _ => false

/-- Whether a method stays. -/
def isKept (called : Std.HashSet String) (m : Method) : Bool :=
  called.contains m.name || !Naming.isGenerated methodStem m.name ||
    m.access.contains .syntheticFlag

/-- A class without its uncalled methods. -/
def withoutUncalled (called : Std.HashSet String) (c : Class) : Class :=
  if usesDynamicCalls c then c else { c with methods := c.methods.filter (isKept called) }

/-- Removes the uncalled methods with generated names, and counts them. -/
def removeUncalled (p : Codebase) : Nat × Codebase :=
  let classes := p.classes.map (withoutUncalled (calledNames p))
  (p.methods.length - (classes.flatMap (·.methods)).length, { p with classes })

end Unscramble.Tidy
