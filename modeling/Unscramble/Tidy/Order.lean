import Std.Data.HashMap
import Unscramble.Class.Basic

/-! # Order of members

Compilers initialize fields in source order, so the first accesses of the initializers give the
order of the fields back. Line numbers give the order of the methods back.

Main definitions: `sortFields`, `sortMethods`. -/

namespace Unscramble.Tidy

/-- The fields of a class that a method accesses through the given opcodes. -/
def accessedFields (className : String) (ops : List Opcode) (m : Method) : List Member :=
  match m.body with
  | none => []
  | some b => b.listing.instructions.filterMap fun i =>
    match i with
    | .field op f => if f.owner == className && ops.contains op then some f else none
    | _ => none

/-- The accesses that give the order of the fields: those of the class initializers to static
fields, then those of the constructors to the others. -/
def initializationOrder (c : Class) : List Member :=
  (c.methods.filter Method.isInitializer).flatMap
      (accessedFields c.name [.getstatic, .putstatic]) ++
    (c.methods.filter Method.isConstructor).flatMap (accessedFields c.name [.getfield, .putfield])

/-- The rank of each reference among the distinct ones, by first occurrence. -/
def ranks (ms : List Member) : Std.HashMap Member Nat :=
  ms.foldl (fun table m => table.insertIfNew m table.size) ∅

/-- Compares ranks; what has none comes last. -/
def compareRanks : Option Nat → Option Nat → Ordering
  | none, none => .eq
  | none, some _ => .gt
  | some _, none => .lt
  | some a, some b => compare a b

/-- Compares fields by the rank of their first access, then by type, then by name. -/
def compareFields (rank : Std.HashMap Member Nat) (a b : Field) : Ordering :=
  (compareRanks rank[a.key]? rank[b.key]?).then
    ((compare a.descriptor b.descriptor).then (compare a.name b.name))

/-- Sorts the fields of a class, and says whether their order changed. -/
def sortFields (c : Class) : Bool × Class :=
  let rank := ranks (initializationOrder c)
  let fields := c.fields.mergeSort fun a b => (compareFields rank a b).isLE
  (fields.map Field.key != c.fields.map Field.key, { c with fields })

/-- The least line number in a method. -/
def firstLine? (m : Method) : Option Nat :=
  match m.body with
  | none => none
  | some b => (b.listing.instructions.filterMap fun i =>
    match i with
    | .line n => some n.toNat
    | _ => none).min?

/-- Sorts the methods of a class by their lines, those without lines last, and says whether their
order changed. -/
def sortMethods (c : Class) : Bool × Class :=
  let methods := (c.methods.map fun m => (firstLine? m, m)).mergeSort fun a b =>
    (compareRanks a.1 b.1).isLE
  let methods := methods.map (·.2)
  (methods.map Method.key != c.methods.map Method.key, { c with methods })

end Unscramble.Tidy
