import Std.Data.HashMap
import Unscramble.Codebase
import Unscramble.Flow.Search
import Unscramble.Partition

/-! # Families of members

A member that a class inherits can be named through that class as well: the field `f` of a
superclass is also `f` of the subclass. References that mean one member, or members that override
each other, form a family and must keep a common name.

Main definitions: `Families`, `Families.ofCodebaseBy`, `Families.ofCodebase`, `Families.family?`,
`Families.linked`. -/

namespace Unscramble.Naming

/-! ### Lineage

Which classes of a codebase a class inherits from. A class is its own first ancestor; the others
follow by distance, the superclass before the interfaces.

Main definitions: `Hierarchy`, `Hierarchy.ancestors`. -/

/-- The classes of a codebase with their places by name. -/
structure Hierarchy where
  /-- The classes in order. -/
  classes : Array Class
  /-- The last class of each name. -/
  last : Std.HashMap String Nat
  /-- The first class of each name. -/
  first : Std.HashMap String Nat
deriving Inhabited

namespace Hierarchy

/-- The hierarchy of a codebase. -/
def ofCodebase (p : Codebase) : Hierarchy :=
  let numbered := p.classes.zipIdx
  { classes := p.classes.toArray
    last := numbered.foldl (fun m (c, i) => m.insert c.name i) ∅
    first := numbered.foldl (fun m (c, i) => m.insertIfNew c.name i) ∅ }

/-- The direct supertypes of a class that belong to the codebase. -/
def parents (h : Hierarchy) (i : Nat) : List Nat :=
  match h.classes[i]? with
  | none => []
  | some c => c.supertypes.filterMap (h.last[·]?)

/-- The classes of the codebase that the class of a given name inherits from, itself first. -/
def ancestors (h : Hierarchy) (name : String) : List String :=
  match h.last[name]? with
  | none => []
  | some i =>
    (Flow.breadthOrder h.parents h.classes.size i).filterMap fun j => (h.classes[j]?).map (·.name)

/-- The first class of a given name. -/
def class? (h : Hierarchy) (name : String) : Option Class :=
  (h.first[name]?).bind fun i => h.classes[i]?

end Hierarchy

/-! ### Families of members -/

/-- References with a number each, in order of their numbers. -/
structure Registry where
  /-- The number of each reference. -/
  index : Std.HashMap Member Nat := ∅
  /-- The references by number. -/
  members : Array Member := #[]
deriving Inhabited

/-- The number of a reference, which is added if it is new. -/
def Registry.intern (r : Registry) (m : Member) : Nat × Registry :=
  match r.index[m]? with
  | some i => (i, r)
  | none =>
    let i := r.members.size
    (i, ⟨r.index.insert m i, r.members.push m⟩)

/-- The references of a codebase with the families they form. -/
structure Families where
  /-- The number of each reference. -/
  index : Std.HashMap Member Nat
  /-- The family of each number: the number in it that stands for it. -/
  family : Array Nat
  /-- The references of each family in ascending order, by family. -/
  members : Array (List Member)
deriving Inhabited

/-- The references to the members that a class declares. -/
def declared (c : Class) : List Member :=
  c.fields.map Field.key ++ c.methods.map Method.key

/-- The references to the members of a class that its subclasses inherit. -/
def inheritable (c : Class) : List Member :=
  (c.fields.filter fun f => !f.isPrivate).map Field.key ++
    (c.methods.filter fun m => !m.isPrivate && !m.isConstructor).map Method.key

/-- Each member that a class inherits, as declared and as named through the class. -/
def inherited (h : Hierarchy) (c : Class) : List (Member × Member) :=
  (h.ancestors c.name).flatMap fun name =>
    match h.class? name with
    | none => []
    | some ancestor =>
      if ancestor.name == c.name then []
      else (inheritable ancestor).map fun m => (m, m.withOwner c.name)

/-- Registers both references of a link. -/
def registerLink (state : Registry × List (Nat × Nat)) (link : Member × Member) :
    Registry × List (Nat × Nat) :=
  let (a, r) := state.1.intern link.1
  let (b, r) := r.intern link.2
  (r, (a, b) :: state.2)

namespace Families

/-- The families of a codebase, as disjoint sets tell them. -/
def ofCodebaseBy (U : UnionFind) (p : Codebase) : Families :=
  let h := Hierarchy.ofCodebase p
  let registry := (p.classes.flatMap declared).foldl (fun r m => (r.intern m).2) ({} : Registry)
  let (registry, links) := (p.classes.flatMap (inherited h)).foldl registerLink (registry, [])
  let size := registry.members.size
  let sets := links.foldl (fun s (a, b) => U.join s a b) (U.discrete size)
  let family := (Array.range size).map (U.root sets)
  let table := (family.zip registry.members).foldl
    (fun table (f, m) => table.modify f (m :: ·)) (Array.replicate size ([] : List Member))
  { index := registry.index
    family
    members := table.map fun ms => ms.mergeSort fun a b => (compare a b).isLE }

/-- The families of a codebase. -/
def ofCodebase (p : Codebase) : Families :=
  ofCodebaseBy Partition.unionFind p

/-- The family of a reference, if a class of the codebase declares or inherits the member. -/
def family? (f : Families) (m : Member) : Option Nat :=
  (f.index[m]?).bind fun i => f.family[i]?

/-- The references in the family of a reference in ascending order; only itself if it has none. -/
def linked (f : Families) (m : Member) : List Member :=
  match (f.family? m).bind fun i => f.members[i]? with
  | some ms => ms
  | none => [m]

end Families

end Unscramble.Naming
