import Unscramble.Body

/-! # Dynamic calls

A call through a bootstrap method can be replaced by a stub: the arguments are popped and a zero of
the return type is pushed. -/

namespace Unscramble.Idiom

/-- The instruction that pushes the zero of a return type; a method without a value pushes nothing.
-/
def zero? (type : String) : Option Opcode :=
  if type == "V" then none
  else if ["Z", "B", "C", "S", "I"].contains type then some .iconst0
  else if type == "J" then some .lconst0
  else if type == "F" then some .fconst0
  else if type == "D" then some .dconst0
  else some .aconstNull

/-- The instruction that pops a value of a type. -/
def popOf (type : String) : Opcode :=
  if Descriptor.isWide type then .pop2 else .pop

/-- The instructions that stand in for a call. -/
def stub (descriptor : String) : List Opcode :=
  (Descriptor.arguments descriptor).reverse.map popOf ++
    (zero? (Descriptor.returnType descriptor)).toList

/-- Puts a stub in the place of a call. -/
def stubCall (l : Listing) (site : Handle × DynamicCall) : Listing :=
  let l := (stub site.2.descriptor).foldl (fun l op =>
    let (h, l) := l.create (.plain op)
    l.insertBefore site.1 h) l
  l.remove site.1

/-- The dynamic calls of a listing, with their places. -/
def dynamicCalls (l : Listing) : List (Handle × DynamicCall) :=
  l.handles.filterMap fun h =>
    match l.get h with
    | .invokeDynamic call => some (h, call)
    | _ => none

/-- Puts a stub in the place of every dynamic call, and counts them. -/
def stubDynamicCalls (b : Body) : Nat × Body :=
  let sites := dynamicCalls b.listing
  (sites.length, { b with listing := sites.foldl stubCall b.listing })

end Unscramble.Idiom
