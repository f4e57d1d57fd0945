import Unscramble.Descriptor
import Unscramble.Proofs.Lists
import Unscramble.Proofs.Text

/-! # Class names in descriptors

A descriptor is the texts between its class names and these names, and nothing else. So a
replacement of names whose results are again names replaces each name where it stands and leaves
the rest alone.

Main statements: `segments_join`, `segments_spec`, `classNames_mapClasses`, `mapClasses_inj`. -/

namespace Unscramble.Descriptor

open Text (cut cut_eq_some_iff cut_eq_none_iff)

/-- The text of a descriptor that was cut at its class names. -/
def join (parts : List (List Char × List Char)) (last : List Char) : List Char :=
  (parts.flatMap fun part => part.1 ++ 'L' :: part.2 ++ [';']) ++ last

/-- Without names the text is what is left. -/
@[simp] theorem join_nil (last : List Char) : join [] last = last := rfl

/-- The first name stands behind the characters in front of it. -/
theorem join_cons (before name : List Char) (parts : List (List Char × List Char))
    (last : List Char) :
    join ((before, name) :: parts) last = before ++ 'L' :: (name ++ ';' :: join parts last) := by
  simp [join]

/-- Parts into which a descriptor can be cut: no text between names begins a name, and every name
ends at the first semicolon. -/
def AreParts (parts : List (List Char × List Char)) : Prop :=
  ∀ part ∈ parts, 'L' ∉ part.1 ∧ ';' ∉ part.2

/-- Cutting off the first name of a descriptor. -/
theorem segments_cons {before name rest : List Char} (hbefore : 'L' ∉ before)
    (hname : ';' ∉ name) :
    segments (before ++ 'L' :: (name ++ ';' :: rest)) =
      ((before, name) :: (segments rest).1, (segments rest).2) := by
  have hfirst : cut 'L' (before ++ 'L' :: (name ++ ';' :: rest)) =
      some (before, name ++ ';' :: rest) := cut_eq_some_iff.2 ⟨rfl, hbefore⟩
  have hsecond : cut ';' (name ++ ';' :: rest) = some (name, rest) :=
    cut_eq_some_iff.2 ⟨rfl, hname⟩
  rw [segments]
  split
  · next h => rw [hfirst] at h; cases h
  · next b r h =>
    rw [hfirst] at h
    cases h
    split
    · next h => rw [hsecond] at h; cases h
    · next n r h =>
      rw [hsecond] at h
      cases h
      rfl

/-- Cutting a text of parts gives the parts. -/
theorem segments_join {parts : List (List Char × List Char)} {last : List Char}
    (hparts : AreParts parts) (hlast : segments last = ([], last)) :
    segments (join parts last) = (parts, last) := by
  induction parts with
  | nil => exact hlast
  | cons part parts ih =>
    obtain ⟨before, name⟩ := part
    obtain ⟨hbefore, hname⟩ := hparts _ List.mem_cons_self
    have hrest := ih fun part hpart => hparts part (List.mem_cons_of_mem _ hpart)
    rw [join_cons, segments_cons hbefore hname, hrest]

/-- A descriptor without a name that ends is not cut. -/
theorem segments_eq_nil {cs : List Char}
    (h : ∀ before rest, cut 'L' cs = some (before, rest) → cut ';' rest = none) :
    segments cs = ([], cs) := by
  rw [segments]
  split
  · rfl
  · next before rest hfirst =>
    split
    · rfl
    · next name rest' hsecond =>
      rw [h before rest hfirst] at hsecond
      cases hsecond

/-- A descriptor consists of the parts it is cut into. -/
theorem segments_spec (cs : List Char) :
    join (segments cs).1 (segments cs).2 = cs ∧ AreParts (segments cs).1 ∧
      segments (segments cs).2 = ([], (segments cs).2) := by
  fun_induction segments cs with
  | case1 cs h => exact ⟨rfl, by simp [AreParts], segments_eq_nil (by simp [h])⟩
  | case2 cs before rest h h' => exact ⟨rfl, by simp [AreParts], segments_eq_nil (by simp_all)⟩
  | case3 cs before rest h name rest' h' more last hrest ih =>
    obtain ⟨rfl, hbefore⟩ := cut_eq_some_iff.1 h
    obtain ⟨rfl, hname⟩ := cut_eq_some_iff.1 h'
    rw [hrest] at ih
    obtain ⟨hjoin, hparts, hlast⟩ := ih
    refine ⟨?_, ?_, hlast⟩
    · rw [join_cons, hjoin]
    · intro part hpart
      rcases List.mem_cons.1 hpart with rfl | hpart
      · exact ⟨hbefore, hname⟩
      · exact hparts part hpart

/-! ### Replacing names -/

/-- A name that may stand in a descriptor. -/
def IsName (name : String) : Prop := ';' ∉ name.toList

instance : DecidablePred IsName := fun name => inferInstanceAs (Decidable (';' ∉ name.toList))

/-- The parts of a descriptor with other names. -/
def mapParts (f : String → Option String) (parts : List (List Char × List Char)) :
    List (List Char × List Char) :=
  parts.map fun part =>
    (part.1, ((f (String.ofList part.2)).getD (String.ofList part.2)).toList)

/-- The characters of a mapped descriptor are those of its parts. -/
theorem toList_mapClasses (f : String → Option String) (d : String) :
    (mapClasses f d).toList =
      join (mapParts f (segments d.toList).1) (segments d.toList).2 := by
  rw [mapClasses, String.toList_ofList, join, mapParts, List.flatMap_map]

/-- A name that stands in a descriptor may stand in one. -/
theorem isName_of_mem_classNames {d n : String} (h : n ∈ classNames d) : IsName n := by
  obtain ⟨part, hpart, rfl⟩ := List.mem_map.1 h
  rw [IsName, String.toList_ofList]
  exact ((segments_spec d.toList).2.1 part hpart).2

/-- The parts of a descriptor after a replacement. -/
theorem segments_mapClasses {f : String → Option String} {d : String}
    (hf : ∀ n ∈ classNames d, ∀ new, f n = some new → IsName new) :
    segments (mapClasses f d).toList =
      (mapParts f (segments d.toList).1, (segments d.toList).2) := by
  obtain ⟨-, hparts, hlast⟩ := segments_spec d.toList
  rw [toList_mapClasses]
  refine segments_join ?_ hlast
  intro part hpart
  obtain ⟨old, hold, rfl⟩ := List.mem_map.1 hpart
  refine ⟨(hparts old hold).1, ?_⟩
  cases hnew : f (String.ofList old.2) with
  | none => simpa using (hparts old hold).2
  | some new => exact hf _ (List.mem_map.2 ⟨old, hold, rfl⟩) new hnew

/-- A replacement replaces each name that a descriptor mentions, in order. -/
theorem classNames_mapClasses {f : String → Option String} {d : String}
    (hf : ∀ n ∈ classNames d, ∀ new, f n = some new → IsName new) :
    classNames (mapClasses f d) = (classNames d).map fun n => (f n).getD n := by
  rw [classNames, segments_mapClasses hf, classNames, mapParts, List.map_map, List.map_map]
  refine List.map_congr_left fun part _ => ?_
  simp

/-- A replacement of none of its names keeps a descriptor. -/
theorem mapClasses_eq_self {f : String → Option String} {d : String}
    (hf : ∀ n ∈ classNames d, f n = none) : mapClasses f d = d := by
  have hparts : mapParts f (segments d.toList).1 = (segments d.toList).1 := by
    refine (List.map_congr_left fun part hpart => ?_).trans (List.map_id' _)
    rw [hf _ (List.mem_map_of_mem hpart), Option.getD_none, String.toList_ofList]
  rw [← String.toList_inj, toList_mapClasses, hparts]
  exact (segments_spec d.toList).1

/-- A replacement that keeps the names of two descriptors apart keeps the descriptors apart. -/
theorem mapClasses_inj {f : String → Option String} {d e : String}
    (hd : ∀ n ∈ classNames d, ∀ new, f n = some new → IsName new)
    (he : ∀ n ∈ classNames e, ∀ new, f n = some new → IsName new)
    (hinj : ∀ m ∈ classNames d, ∀ n ∈ classNames e, (f m).getD m = (f n).getD n → m = n)
    (h : mapClasses f d = mapClasses f e) : d = e := by
  have hsegments := congrArg (fun s => segments s.toList) h
  simp only [segments_mapClasses hd, segments_mapClasses he, Prod.mk.injEq] at hsegments
  obtain ⟨hmapped, hlast⟩ := hsegments
  have hparts : (segments d.toList).1 = (segments e.toList).1 := by
    refine eq_of_map_eq_map ?_ hmapped
    intro a ha b hb hab
    obtain ⟨hbefore, hname⟩ := Prod.mk.inj hab
    have hsame := hinj _ (List.mem_map_of_mem ha) _ (List.mem_map_of_mem hb)
      (String.toList_inj.1 hname)
    exact Prod.ext hbefore (String.ofList_injective hsame)
  have hjoin := (segments_spec d.toList).1
  rw [hparts, hlast, (segments_spec e.toList).1] at hjoin
  exact String.toList_inj.1 hjoin.symm

/-- Replacing names does not change the first character of an array type. -/
theorem head?_mapClasses {f : String → Option String} {d : String}
    (h : d.toList.head? = some '[') : (mapClasses f d).toList.head? = some '[' := by
  have hjoin := (segments_spec d.toList).1
  rw [toList_mapClasses]
  rw [← hjoin] at h
  cases hparts : (segments d.toList).1 with
  | nil =>
    rw [hparts] at h
    exact h
  | cons part parts =>
    obtain ⟨before, name⟩ := part
    rw [hparts, join_cons] at h
    rw [mapParts, List.map_cons, join_cons]
    cases before with
    | nil => simp at h
    | cons c before => simpa using h

/-! ### The grammar of types -/

/-- A type of numbers or truth values. -/
inductive BaseType where
  | byte | char | double | float | int | long | short | boolean
deriving DecidableEq, Repr

/-- The letter of a base type. -/
def BaseType.letter : BaseType → Char
  | .byte => 'B'
  | .char => 'C'
  | .double => 'D'
  | .float => 'F'
  | .int => 'I'
  | .long => 'J'
  | .short => 'S'
  | .boolean => 'Z'

/-- The type of a field. -/
inductive FieldType where
  /-- A base type. -/
  | base (b : BaseType)
  /-- A class. -/
  | object (name : String)
  /-- An array. -/
  | array (element : FieldType)
deriving DecidableEq, Repr

/-- The descriptor that spells a field type. -/
def FieldType.text : FieldType → List Char
  | .base b => [b.letter]
  | .object name => 'L' :: name.toList ++ [';']
  | .array element => '[' :: element.text

/-- The classes of a field type. -/
def FieldType.classNames : FieldType → List String
  | .base _ => []
  | .object name => [name]
  | .array element => element.classNames

/-- The types of a method. -/
structure MethodType where
  /-- The types of the arguments. -/
  arguments : List FieldType
  /-- The type of the result; none if there is no result. -/
  result : Option FieldType
deriving DecidableEq, Repr

/-- The descriptor that spells the types of a method. -/
def MethodType.text (t : MethodType) : List Char :=
  '(' :: t.arguments.flatMap FieldType.text ++ ')' :: (t.result.map FieldType.text).getD ['V']

/-- The classes of the types of a method. -/
def MethodType.classNames (t : MethodType) : List String :=
  t.arguments.flatMap FieldType.classNames ++ t.result.toList.flatMap FieldType.classNames

/-- The characters of a descriptor that do not belong to class names. -/
def marks : List Char := "BCDFIJSZVL;[()".toList

/-- The characters of a field type are marks or belong to its classes. -/
theorem FieldType.mem_text {t : FieldType} {c : Char} (h : c ∈ t.text) :
    c ∈ marks ∨ ∃ n ∈ t.classNames, c ∈ n.toList := by
  induction t with
  | base b =>
    rw [List.mem_singleton.1 h]
    exact .inl (by cases b <;> decide)
  | object name =>
    rw [text, List.cons_append, List.mem_cons, List.mem_append, List.mem_singleton] at h
    rcases h with rfl | h | rfl
    · exact .inl (by decide)
    · exact .inr ⟨name, List.mem_singleton.2 rfl, h⟩
    · exact .inl (by decide)
  | array element ih =>
    rcases List.mem_cons.1 h with rfl | h
    · exact .inl (by decide)
    · exact ih h

/-- The characters of a method descriptor are marks or belong to its classes. -/
theorem MethodType.mem_text {t : MethodType} {c : Char} (h : c ∈ t.text) :
    c ∈ marks ∨ ∃ n ∈ t.classNames, c ∈ n.toList := by
  rw [text, List.cons_append, List.mem_cons, List.mem_append, List.mem_cons, List.mem_flatMap] at h
  rcases h with rfl | ⟨a, ha, h⟩ | rfl | h
  · exact .inl (by decide)
  · refine (FieldType.mem_text h).imp_right ?_
    rintro ⟨n, hn, hc⟩
    exact ⟨n, List.mem_append_left _ (List.mem_flatMap.2 ⟨a, ha, hn⟩), hc⟩
  · exact .inl (by decide)
  · cases hresult : t.result with
    | none =>
      rw [hresult] at h
      rw [List.mem_singleton.1 h]
      exact .inl (by decide)
    | some r =>
      rw [hresult] at h
      refine (FieldType.mem_text h).imp_right ?_
      rintro ⟨n, hn, hc⟩
      refine ⟨n, List.mem_append_right _ (List.mem_flatMap.2 ⟨r, ?_, hn⟩), hc⟩
      simp [hresult]

end Unscramble.Descriptor
