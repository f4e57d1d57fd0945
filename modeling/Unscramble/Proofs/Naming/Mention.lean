import Unscramble.Naming.Renaming
import Unscramble.Proofs.Descriptor
import Unscramble.Proofs.Listing

/-! # Where class names stand

A codebase names its classes in many places and in three ways: by the name alone, by the name or an
array type, and inside descriptors. A renaming follows them place by place. The places it does not
reach are told here exactly: array types where only the name of a class is looked up, as in the
owner of a reference, and constants that fields start with or that annotations hold.

Main definitions: `Spot`, `Codebase.spots`, `Spot.names`, `Renaming.overlooked`. Main statement:
`mem_mentioned_apply_iff`. -/

namespace Unscramble

/-! ### Places -/

/-- Whether a text is that of an array type. -/
def isArrayType (s : String) : Bool :=
  s.toList.head? == some '['

/-- A place where a codebase names classes, with the text that stands there. -/
inductive Spot where
  /-- The name of a class. -/
  | className (s : String)
  /-- The name of a class or an array type, as an operand. -/
  | operand (s : String)
  /-- A descriptor. -/
  | descriptor (d : String)
  /-- A reference to a member. -/
  | reference (m : Member)
  /-- The declaration of a member. -/
  | declaration (m : Member)
  /-- A place inside a constant that is data: the value that a field starts with or an element of an
  annotation. -/
  | data (s : Spot)

/-- The classes that the name of a class or an array type mentions: itself, and the classes of the
element type. -/
def operandNames (s : String) : List String :=
  s :: if isArrayType s then Descriptor.classNames s else []

/-- The class names that a place mentions. -/
def Spot.names : Spot → List String
  | .className s | .operand s => operandNames s
  | .descriptor d => Descriptor.classNames d
  | .reference m => operandNames m.owner ++ Descriptor.classNames m.descriptor
  | .declaration m => Descriptor.classNames m.descriptor
  | .data s => s.names

/-- The places in a constant. -/
def Constant.spots : Constant → List Spot
  | .ofClass name => [.operand name]
  | .methodType d | .dynamic _ _ d => [.descriptor d]
  | .methodHandle _ m _ => [.reference m]
  | _ => []

mutual

/-- The places in an annotation value. -/
def Element.spots : Element → List Spot
  | .const _ value => value.spots.map .data
  | .enum typeName _ => [.descriptor typeName]
  | .ofClass d => [.descriptor d]
  | .nested d _ values => .descriptor d :: Element.namedSpots values
  | .array values => Element.allSpots values

/-- The places in annotation values. -/
def Element.allSpots : List Element → List Spot
  | [] => []
  | e :: rest => e.spots ++ Element.allSpots rest

/-- The places in named annotation values. -/
def Element.namedSpots : List (String × Element) → List Spot
  | [] => []
  | (_, e) :: rest => e.spots ++ Element.namedSpots rest

end

/-- The places in an annotation. -/
def Annotation.spots (a : Annotation) : List Spot :=
  .descriptor a.descriptor :: Element.namedSpots a.values

/-- The places in an instruction. -/
def Instruction.spots {L : Type} : Instruction L → List Spot
  | .ofClass _ name | .newArrays name _ => [.operand name]
  | .field _ m | .invoke _ m _ => [.reference m]
  | .push c => c.spots
  | .invokeDynamic call => [.descriptor call.descriptor]
  | _ => []

/-- The places in a body. -/
def Body.spots (b : Body) : List Spot :=
  b.listing.instructions.flatMap Instruction.spots ++
    b.guards.flatMap fun g => g.catches.toList.map .className

/-- The places in what a class records of a nested class. -/
def InnerClass.spots (i : InnerClass) : List Spot :=
  .className i.inner :: i.outer.toList.map .className

/-- The places in a field. -/
def Field.spots (f : Field) : List Spot :=
  .declaration f.key :: (f.value.toList.flatMap Constant.spots).map .data ++
    f.annotations.flatMap Annotation.spots

/-- The places in a method. -/
def Method.spots (m : Method) : List Spot :=
  .declaration m.key :: m.exceptions.map .className ++ m.annotations.flatMap Annotation.spots ++
    m.body.toList.flatMap Body.spots

/-- The places in a class. -/
def Class.spots (c : Class) : List Spot :=
  .className c.name :: c.superclass.toList.map .className ++ c.interfaces.map .className ++
    c.innerClasses.flatMap InnerClass.spots ++ c.annotations.flatMap Annotation.spots ++
    c.fields.flatMap Field.spots ++ c.methods.flatMap Method.spots

namespace Codebase

/-- The places where a codebase names classes. -/
def spots (p : Codebase) : List Spot :=
  p.classes.flatMap Class.spots

/-- The class names that a codebase mentions, directly or as an element type. -/
def mentioned (p : Codebase) : List String :=
  p.spots.flatMap Spot.names

end Codebase

namespace Naming.Renaming

/-! ### Renaming place by place -/

/-- What stands at a place before and after a renaming. -/
inductive Follows (r : Renaming) : Spot → Spot → Prop
  /-- A class name is renamed. -/
  | className (s : String) : Follows r (.className s) (.className (r.onClassName s))
  /-- An operand is renamed. -/
  | operand (s : String) : Follows r (.operand s) (.operand (r.onOperand s))
  /-- A descriptor is renamed. -/
  | descriptor (d : String) : Follows r (.descriptor d) (.descriptor (r.onDescriptor d))
  /-- A reference is renamed. -/
  | reference (m : Member) : Follows r (.reference m) (.reference (r.onMember m))
  /-- A declaration is renamed; it stays in its class. -/
  | declaration {m new : Member} (h : new.descriptor = (r.onMember m).descriptor) :
    Follows r (.declaration m) (.declaration new)
  /-- Data stays as it is. -/
  | data (s : Spot) : Follows r (.data s) (.data s)

variable (r : Renaming)

/-- What a constant mentions follows the renaming. -/
theorem follows_constant (c : Constant) :
    List.Forall₂ r.Follows c.spots (r.onConstant c).spots := by
  cases c with
  | ofClass name => exact .cons (.operand name) .nil
  | methodType d => exact .cons (.descriptor d) .nil
  | dynamic b name d => exact .cons (.descriptor d) .nil
  | methodHandle kind m i => exact .cons (.reference m) .nil
  | _ => exact .nil

/-- Data that is mentioned follows the renaming as it stays. -/
theorem follows_data (ss : List Spot) :
    List.Forall₂ r.Follows (ss.map .data) (ss.map .data) :=
  List.forall₂_same.2 fun s hs => by
    obtain ⟨s, -, rfl⟩ := List.mem_map.1 hs
    exact .data s

mutual

/-- What an annotation element mentions follows the renaming. -/
theorem follows_element : ∀ e : Element, List.Forall₂ r.Follows e.spots (r.onElement e).spots
  | .const _ value => r.follows_data value.spots
  | .enum typeName _ => .cons (.descriptor typeName) .nil
  | .ofClass d => .cons (.descriptor d) .nil
  | .nested d _ values => .cons (.descriptor d) (follows_namedElements values)
  | .array values => follows_elements values

/-- So does what the elements of an array mention. -/
theorem follows_elements : ∀ es : List Element,
    List.Forall₂ r.Follows (Element.allSpots es) (Element.allSpots (r.onElements es))
  | [] => .nil
  | e :: rest => List.rel_append (follows_element e) (follows_elements rest)

/-- So does what the named elements of an annotation mention. -/
theorem follows_namedElements : ∀ es : List (String × Element),
    List.Forall₂ r.Follows (Element.namedSpots es) (Element.namedSpots (r.onNamed es))
  | [] => .nil
  | (_, e) :: rest => List.rel_append (follows_element e) (follows_namedElements rest)

end

/-- Renaming the parts of something renames it place by place. -/
theorem follows_flatMap {α : Type} {spots : α → List Spot} {g : α → α} {xs : List α}
    (h : ∀ x ∈ xs, List.Forall₂ r.Follows (spots x) (spots (g x))) :
    List.Forall₂ r.Follows (xs.flatMap spots) ((xs.map g).flatMap spots) := by
  induction xs with
  | nil => exact .nil
  | cons x xs ih =>
    rw [List.flatMap_cons, List.map_cons, List.flatMap_cons]
    exact List.rel_append (h x List.mem_cons_self)
      (ih fun x hx => h x (List.mem_cons_of_mem _ hx))

/-- Classes that are mentioned follow the renaming. -/
theorem follows_classNames (names : List String) :
    List.Forall₂ r.Follows (names.map .className) ((names.map r.onClassName).map .className) := by
  rw [List.map_map, List.forall₂_map_left_iff, List.forall₂_map_right_iff]
  exact List.forall₂_same.2 fun name _ => .className name

/-- What annotations mention follows the renaming. -/
theorem follows_annotations (as : List Annotation) :
    List.Forall₂ r.Follows (as.flatMap Annotation.spots)
      ((as.map r.onAnnotation).flatMap Annotation.spots) :=
  r.follows_flatMap fun a _ => .cons (.descriptor a.descriptor) (r.follows_namedElements a.values)

/-- What an instruction mentions follows the renaming. -/
theorem follows_instruction {L : Type} (i : Instruction L) :
    List.Forall₂ r.Follows i.spots (r.onInstruction i).spots := by
  cases i with
  | ofClass op name => exact .cons (.operand name) .nil
  | newArrays name dims => exact .cons (.operand name) .nil
  | field op m => exact .cons (.reference m) .nil
  | invoke op m i => exact .cons (.reference m) .nil
  | push c => exact r.follows_constant c
  | invokeDynamic call => exact .cons (.descriptor call.descriptor) .nil
  | _ => exact .nil

/-- The instructions of a listing are renamed one by one. -/
theorem instructions_onListing {l : Listing} (hnodup : l.handles.Nodup) :
    (r.onListing l).instructions = l.instructions.map r.onInstruction := by
  have hget : ∀ h ∈ l.handles, (r.onListing l).get h = r.onInstruction (l.get h) := by
    intro h hh
    rw [onListing, Listing.get_foldl_modify rfl hnodup, if_pos hh]
  rw [Listing.instructions, onListing, Listing.handles_foldl_modify, ← onListing,
    Listing.instructions, List.map_map]
  exact List.map_congr_left hget

/-- What a body mentions follows the renaming. -/
theorem follows_body {b : Body} (hnodup : b.listing.handles.Nodup) :
    List.Forall₂ r.Follows b.spots (r.onBody b).spots := by
  refine List.rel_append ?_ (r.follows_flatMap fun g _ => ?_)
  · rw [onBody, r.instructions_onListing hnodup]
    exact r.follows_flatMap fun i _ => r.follows_instruction i
  · rw [Option.toList_map]
    exact r.follows_classNames g.catches.toList

/-- What an inner class mentions follows the renaming. -/
theorem follows_innerClass (i : InnerClass) :
    List.Forall₂ r.Follows i.spots (r.onInnerClass i).spots := by
  have hinner : (r.onInnerClass i).inner = r.onClassName i.inner := by
    rw [onInnerClass, onClassName]
    cases r.classes[i.inner]? <;> rfl
  have houter : (r.onInnerClass i).outer = i.outer.map r.onClassName := by
    rw [onInnerClass]
    cases r.classes[i.inner]? <;> rfl
  rw [InnerClass.spots, InnerClass.spots, hinner, houter, Option.toList_map]
  exact .cons (.className i.inner) (r.follows_classNames i.outer.toList)

/-- What a field mentions follows the renaming. -/
theorem follows_field (owner : String) (f : Field) :
    List.Forall₂ r.Follows f.spots (r.onField owner f).spots :=
  .cons (.declaration rfl) (List.rel_append (r.follows_data _) (r.follows_annotations f.annotations))

/-- What a method mentions follows the renaming. -/
theorem follows_method (owner : String) {m : Method}
    (hnodup : ∀ b ∈ m.body, b.listing.handles.Nodup) :
    List.Forall₂ r.Follows m.spots (r.onMethod owner m).spots := by
  refine List.rel_append (List.rel_append (.cons (.declaration rfl) ?_) ?_) ?_
  · exact r.follows_classNames m.exceptions
  · exact r.follows_annotations m.annotations
  · rw [onMethod, Option.toList_map]
    exact r.follows_flatMap fun b hb => r.follows_body (hnodup b (Option.mem_toList.1 hb))

/-- What a class mentions follows the renaming. -/
theorem follows_class {c : Class}
    (hnodup : ∀ m ∈ c.methods, ∀ b ∈ m.body, b.listing.handles.Nodup) :
    List.Forall₂ r.Follows c.spots (r.onClass c).spots := by
  rw [Class.spots, Class.spots, onClass, Option.toList_map]
  refine List.rel_append (List.rel_append (List.rel_append (List.rel_append (List.rel_append
    (.cons (.className c.name) ?_) ?_) ?_) ?_) ?_) ?_
  · exact r.follows_classNames c.superclass.toList
  · exact r.follows_classNames c.interfaces
  · exact r.follows_flatMap fun i _ => r.follows_innerClass i
  · exact r.follows_annotations c.annotations
  · exact r.follows_flatMap fun f _ => r.follows_field _ f
  · exact r.follows_flatMap fun m hm => r.follows_method _ (hnodup m hm)

/-- A codebase is renamed place by place. -/
theorem follows_apply {p : Codebase} (hnodup : ∀ b ∈ p.bodies, b.listing.handles.Nodup) :
    List.Forall₂ r.Follows p.spots (r.apply p).spots := by
  refine r.follows_flatMap fun c hc => r.follows_class fun m hm b hb => hnodup b ?_
  exact List.mem_filterMap.2 ⟨m, List.mem_flatMap.2 ⟨c, hc, hm⟩, hb⟩

/-! ### Completeness -/

/-- A name that a class can have: that of no array type, and without a semicolon. -/
def IsClassName (name : String) : Prop :=
  isArrayType name = false ∧ Descriptor.IsName name

/-- A renaming whose new class names are no old ones, and whose references to members are complete:
their classes and types are already renamed. -/
structure Proper (r : Renaming) : Prop where
  /-- Old and new names are names of classes. -/
  isClassName : ∀ old new : String, r.classes[old]? = some new → IsClassName old ∧ IsClassName new
  /-- No new name is an old one. -/
  fresh : ∀ old new : String, r.classes[old]? = some new → r.classes[new]? = none
  /-- New references mention no old name. -/
  settled : ∀ m new : Member, r.members[m]? = some new →
    ∀ n ∈ (Spot.reference new).names, r.classes[n]? = none

/-- The class names that a renaming does not look for at a place: those in array types where only
the name of a class is looked up, and those in data. -/
def overlooked (r : Renaming) : Spot → List String
  | .className s => if isArrayType s then Descriptor.classNames s else []
  | .reference m =>
    if r.members.contains m then [] else
      if isArrayType m.owner then Descriptor.classNames m.owner else []
  | .data s => s.names
  | _ => []

variable {r : Renaming} {n : String}

/-- After a replacement no old name is left. -/
theorem Proper.getElem?_onClassName (hr : r.Proper) (s : String) :
    r.classes[r.onClassName s]? = none := by
  rw [onClassName]
  cases hs : r.classes[s]? with
  | none => exact hs
  | some new => exact hr.fresh s new hs

/-- A renamed descriptor mentions no old name. -/
theorem Proper.not_mem_onDescriptor (hr : r.Proper) (hn : (r.classes[n]?).isSome) (d : String) :
    n ∉ Descriptor.classNames (r.onDescriptor d) := by
  rw [onDescriptor, Descriptor.classNames_mapClasses
    fun m _ new hnew => (hr.isClassName m new hnew).2.2]
  intro hmem
  obtain ⟨m, -, rfl⟩ := List.mem_map.1 hmem
  have hnone := hr.getElem?_onClassName m
  rw [onClassName] at hnone
  rw [hnone] at hn
  cases hn

/-- A renamed class name mentions an old name only inside an array type, which is not renamed. -/
theorem Proper.mem_onClassName_iff (hr : r.Proper) (hn : (r.classes[n]?).isSome) (s : String) :
    n ∈ operandNames (r.onClassName s) ↔ n ∈ r.overlooked (.className s) := by
  have hne : n ≠ r.onClassName s := by
    rintro rfl
    rw [hr.getElem?_onClassName] at hn
    cases hn
  rw [operandNames, List.mem_cons, or_iff_right hne, overlooked, onClassName]
  cases hs : r.classes[s]? with
  | none => rfl
  | some new =>
    obtain ⟨hold, hnew⟩ := hr.isClassName s new hs
    rw [Option.getD_some, hold.1, hnew.1]
    rfl

/-- A renamed operand mentions no old name. -/
theorem Proper.not_mem_onOperand (hr : r.Proper) (hn : (r.classes[n]?).isSome) (s : String) :
    n ∉ operandNames (r.onOperand s) := by
  obtain ⟨new, hnew⟩ := Option.isSome_iff_exists.1 hn
  have harray := (hr.isClassName n new hnew).1.1
  by_cases hs : isArrayType s = true
  · have hmap : r.onOperand s = r.onDescriptor s := by
      rw [onOperand, Descriptor.mapClassOperand, ← isArrayType, if_pos hs, onDescriptor]
    have hhead : isArrayType (r.onDescriptor s) = true :=
      beq_iff_eq.2 (Descriptor.head?_mapClasses (beq_iff_eq.1 hs))
    rw [hmap, operandNames, List.mem_cons, if_pos hhead]
    rintro (rfl | hmem)
    · rw [harray] at hhead
      cases hhead
    · exact hr.not_mem_onDescriptor hn s hmem
  · have hmap : r.onOperand s = r.onClassName s := by
      rw [onOperand, Descriptor.mapClassOperand, ← isArrayType, if_neg hs, onClassName]
    rw [hmap, hr.mem_onClassName_iff hn, overlooked, if_neg hs]
    exact List.not_mem_nil

/-- At each place exactly the overlooked names are left. -/
theorem Proper.mem_names_iff (hr : r.Proper) (hn : (r.classes[n]?).isSome) {s new : Spot}
    (h : r.Follows s new) : n ∈ new.names ↔ n ∈ r.overlooked s := by
  cases h with
  | className s => exact hr.mem_onClassName_iff hn s
  | operand s => exact iff_of_false (hr.not_mem_onOperand hn s) List.not_mem_nil
  | descriptor d => exact iff_of_false (hr.not_mem_onDescriptor hn d) List.not_mem_nil
  | data s => exact Iff.rfl
  -- A reference with a new one of its own is replaced as a whole; otherwise its owner is renamed.
  | reference m =>
    rw [onMember]
    cases hm : r.members[m]? with
    | some new =>
      have hcontains : r.members.contains m = true := by
        rw [Std.HashMap.contains_eq_isSome_getElem?, hm]
        rfl
      have hnot : n ∉ (Spot.reference new).names := by
        intro hmem
        rw [hr.settled m new hm n hmem] at hn
        cases hn
      rw [overlooked, if_pos hcontains]
      exact iff_of_false hnot List.not_mem_nil
    | none =>
      have hcontains : ¬r.members.contains m = true := by
        rw [Std.HashMap.contains_eq_isSome_getElem?, hm]
        exact Bool.false_ne_true
      have hdescriptor := hr.not_mem_onDescriptor hn m.descriptor
      rw [overlooked, if_neg hcontains, Spot.names, List.mem_append, or_iff_left hdescriptor]
      exact hr.mem_onClassName_iff hn m.owner
  | @declaration m new hd =>
    have hnot : n ∉ Descriptor.classNames new.descriptor := by
      rw [hd, onMember]
      cases hm : r.members[m]? with
      | none => exact hr.not_mem_onDescriptor hn m.descriptor
      | some target =>
        intro hmem
        rw [hr.settled m target hm n (List.mem_append_right _ hmem)] at hn
        cases hn
    exact iff_of_false hnot List.not_mem_nil

/-- A renaming leaves a renamed class mentioned exactly where it does not look for it. -/
theorem mem_mentioned_apply_iff (hr : r.Proper) {p : Codebase}
    (hnodup : ∀ b ∈ p.bodies, b.listing.handles.Nodup) (hn : (r.classes[n]?).isSome) :
    n ∈ (r.apply p).mentioned ↔ ∃ s ∈ p.spots, n ∈ r.overlooked s := by
  have hfollows := r.follows_apply hnodup
  rw [Codebase.mentioned, List.mem_flatMap]
  constructor
  · rintro ⟨new, hnew, hmem⟩
    obtain ⟨s, hs, hstep⟩ := exists_of_mem_right hfollows hnew
    exact ⟨s, hs, (hr.mem_names_iff hn hstep).1 hmem⟩
  · rintro ⟨s, hs, hmem⟩
    obtain ⟨new, hnew, hstep⟩ := exists_of_mem_left hfollows hs
    exact ⟨new, hnew, (hr.mem_names_iff hn hstep).2 hmem⟩

/-! ### An enumeration

The method `values` of an enumeration copies an array: it calls `clone` on the type of the array. -/

/-- A renaming of one class. -/
theorem proper_renameClass {old new : String} (hold : IsClassName old) (hnew : IsClassName new)
    (hne : old ≠ new) : (({} : Renaming).renameClass old new).Proper := by
  have hclasses : ∀ n : String, (({} : Renaming).renameClass old new).classes[n]? =
      if old = n then some new else none := by
    -- The renaming has a single entry.
    intro n
    rw [renameClass, if_neg (by simpa using hne), Std.HashMap.getElem?_insert]
    simp
  have hmembers : ∀ m : Member, (({} : Renaming).renameClass old new).members[m]? = none := by
    intro m
    rw [renameClass, if_neg (by simpa using hne)]
    simp
  constructor
  · intro a b h
    rw [hclasses] at h
    split at h
    · next ha =>
      cases h
      exact ⟨ha ▸ hold, hnew⟩
    · cases h
  · intro a b h
    rw [hclasses] at h ⊢
    split at h
    · cases h
      rw [if_neg hne]
    · cases h
  · intro m target h
    rw [hmembers] at h
    cases h

/-- The method `values` of an enumeration, with the class that it calls `clone` on. -/
def valuesMethod (cloned : String) : Method :=
  { owner := "a", name := "values", descriptor := "()[La;", access := ⟨0x0009⟩
    body := some
      { listing :=
          { nodes := #[⟨.field .getstatic ⟨"a", "v", "[La;"⟩, none⟩,
              ⟨.invoke .invokevirtual ⟨cloned, "clone", "()Ljava/lang/Object;"⟩ false, none⟩,
              ⟨.ofClass .checkcast "[La;", none⟩, ⟨.plain ⟨0xb0⟩, none⟩]
            order := #[0, 1, 2, 3] } } }

/-- An enumeration. -/
def enumeration (cloned : String) : Codebase :=
  { classes :=
      [{ name := "a", superclass := some "java/lang/Enum", access := ⟨0x4031⟩
         fields := [⟨"a", "v", "[La;", ⟨0x001a⟩, none, [], []⟩]
         methods := [valuesMethod cloned] }] }

/-- The enumeration mentions its class, its superclass, its members and the array that it clones. -/
theorem spots_enumeration (cloned : String) :
    (enumeration cloned).spots =
      [.className "a", .className "java/lang/Enum", .declaration ⟨"a", "v", "[La;"⟩,
        .declaration ⟨"a", "values", "()[La;"⟩, .reference ⟨"a", "v", "[La;"⟩,
        .reference ⟨cloned, "clone", "()Ljava/lang/Object;"⟩, .operand "[La;"] := rfl

/-- The bodies of the enumeration list no handle twice. -/
theorem nodup_enumeration (cloned : String) :
    ∀ b ∈ (enumeration cloned).bodies, b.listing.handles.Nodup := by
  rintro b (- | ⟨_, hb⟩)
  · show [0, 1, 2, 3].Nodup
    decide
  · cases hb

/-- The array is of the class `a`. -/
theorem classNames_array : Descriptor.classNames "[La;" = ["a"] := by
  have hlast : Descriptor.segments [] = ([], []) :=
    Descriptor.segments_eq_nil (by simp [Text.cut])
  have hparts : Descriptor.AreParts [(['['], ['a'])] := by simp [Descriptor.AreParts]
  have hsegments : Descriptor.segments "[La;".toList = ([(['['], ['a'])], []) :=
    Descriptor.segments_join hparts hlast
  rw [Descriptor.classNames, hsegments]
  rfl

/-- The renaming of the enumeration. -/
def toClass1 : Renaming := ({} : Renaming).renameClass "a" "deob/class1"

/-- The renaming of one class is proper. -/
theorem proper_toClass1 : toClass1.Proper :=
  proper_renameClass ⟨rfl, by decide⟩ ⟨rfl, by decide⟩ (by decide)

/-- The class is renamed. -/
theorem isSome_toClass1 : (toClass1.classes["a"]?).isSome = true := by
  rw [toClass1, renameClass, if_neg (by decide), Std.HashMap.getElem?_insert_self]
  rfl

/-- If the call names a class outside the codebase, the enumeration is renamed completely. -/
theorem mem_mentioned_apply_enumeration :
    toClass1.Proper ∧ (toClass1.classes["a"]?).isSome = true ∧
      "a" ∉ (toClass1.apply (enumeration "java/lang/Object")).mentioned := by
  refine ⟨proper_toClass1, isSome_toClass1, ?_⟩
  rw [mem_mentioned_apply_iff proper_toClass1 (nodup_enumeration _) isSome_toClass1,
    spots_enumeration]
  rintro ⟨s, hs, hmem⟩
  fin_cases hs <;> revert hmem <;> simp [overlooked, isArrayType]

/-- A renaming misses the class in the array type that `clone` is called on. -/
theorem mentioned_apply_clone :
    toClass1.Proper ∧ (toClass1.classes["a"]?).isSome = true ∧
      "a" ∈ (toClass1.apply (enumeration "[La;")).mentioned := by
  refine ⟨proper_toClass1, isSome_toClass1, ?_⟩
  obtain ⟨new, hnew, hfollows⟩ := exists_of_mem_left
    (toClass1.follows_apply (nodup_enumeration "[La;"))
    (x := .reference ⟨"[La;", "clone", "()Ljava/lang/Object;"⟩) (by simp [spots_enumeration])
  refine List.mem_flatMap.2 ⟨new, hnew, ?_⟩
  rw [proper_toClass1.mem_names_iff isSome_toClass1 hfollows]
  simp [overlooked, isArrayType, classNames_array, toClass1, renameClass]

end Naming.Renaming

end Unscramble
