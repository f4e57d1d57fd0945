import Unscramble.Proofs.Descriptor
import Unscramble.Proofs.Naming.Keys

/-! # Descriptors as spellings of types

A method descriptor spells the types of a method, one after the other and without separators. Two
scanners take it apart on their own, one at its arguments and one at its class names. Both find
what was spelled, whatever letters the names contain, so a replacement of class names spells the
types with other classes, and the arguments stay what they were. A descriptor with no more than 32767
characters has arguments whose slots are counted in 16 bits, and one that spells types is cut behind
characters of one byte.

Main definitions: `IsClassName`, `FieldType.map`, `MethodType.map`, `MethodType.descriptor`. Main
statements: `argumentsFrom_text`, `mapText_text`, `argumentSlots_le`,
`MethodType.exists_getLast?_arguments`, `MethodType.scan_descriptor`. -/

namespace Unscramble.Descriptor

open Text (cut cut_eq_some_iff cut_eq_none_iff)

/-! ### Types and their spellings -/

/-- The names of classes in the grammar of descriptors. -/
def IsClassName (name : String) : Prop :=
  name ≠ "" ∧ ';' ∉ name.toList ∧ '(' ∉ name.toList ∧ ')' ∉ name.toList

instance : DecidablePred IsClassName := fun name =>
  inferInstanceAs
    (Decidable (name ≠ "" ∧ ';' ∉ name.toList ∧ '(' ∉ name.toList ∧ ')' ∉ name.toList))

namespace FieldType

/-- The descriptor of a field type. -/
def descriptor (t : FieldType) : String :=
  String.ofList t.text

/-- Whether a value of the type takes two slots. -/
def isWide : FieldType → Bool
  | .base .long | .base .double => true
  | _ => false

/-- The type with other classes. -/
def map (f : String → String) : FieldType → FieldType
  | .base b => .base b
  | .object name => .object (f name)
  | .array element => .array (element.map f)

/-- The characters of a descriptor are those of the type's text. -/
@[simp] theorem toList_descriptor (t : FieldType) : t.descriptor.toList = t.text :=
  String.toList_ofList

/-- Renaming classes keeps the width of a type. -/
@[simp] theorem isWide_map (f : String → String) (t : FieldType) : (t.map f).isWide = t.isWide := by
  cases t <;> rfl

/-- The classes of a renamed type are the renamed ones. -/
@[simp] theorem classNames_map (f : String → String) (t : FieldType) :
    (t.map f).classNames = t.classNames.map f := by
  induction t with
  | base b => rfl
  | object name => rfl
  | array element ih => exact ih

/-- Only the letters of the two wide base types are descriptors of wide types. -/
theorem isWide_descriptor (t : FieldType) : Descriptor.isWide t.descriptor = t.isWide := by
  have hne : ∀ {c : Char} {cs : List Char} {letter : Char}, c ≠ letter →
      (String.ofList (c :: cs) == String.ofList [letter]) = false := by
    intro c cs letter hc
    rw [beq_eq_false_iff_ne]
    intro heq
    exact hc (List.cons.inj (String.ofList_injective heq)).1
  have hmarks : ∀ {c : Char} {cs : List Char}, c ≠ 'J' → c ≠ 'D' →
      Descriptor.isWide (String.ofList (c :: cs)) = false := by
    intro c cs hlong hdouble
    exact Bool.or_eq_false_iff.2 ⟨hne hlong, hne hdouble⟩
  cases t with
  | base b => cases b <;> decide
  | object name => exact hmarks (by decide) (by decide)
  | array element => exact hmarks (by decide) (by decide)

/-- A type takes as many slots as its descriptor says. -/
theorem width_descriptor (t : FieldType) :
    width t.descriptor = 1 + if t.isWide then 1 else 0 := by
  rw [width, isWide_descriptor]
  split <;> rfl

/-- A mark that no name contains stands in no spelling, unless types are spelled with it. -/
theorem not_mem_text {t : FieldType} {mark : Char} (h : mark ∉ "BCDFIJSZL;[".toList)
    (hnames : ∀ n ∈ t.classNames, mark ∉ n.toList) : mark ∉ t.text := by
  induction t with
  | base b =>
    intro hmem
    rw [List.mem_singleton.1 hmem] at h
    exact h (by cases b <;> decide)
  | object name =>
    intro hmem
    rw [text, List.cons_append, List.mem_cons, List.mem_append, List.mem_singleton] at hmem
    rcases hmem with rfl | hmem | rfl
    · exact h (by decide)
    · exact hnames name (List.mem_singleton.2 rfl) hmem
    · exact h (by decide)
  | array element ih =>
    intro hmem
    rcases List.mem_cons.1 hmem with rfl | hmem
    · exact h (by decide)
    · exact ih hnames hmem

/-- A spelling ends with the letter of a base type or with a semicolon. -/
theorem exists_getLast?_text (t : FieldType) : ∃ c ∈ t.text.getLast?, c.toNat < 128 := by
  induction t with
  | base b => exact ⟨_, rfl, by cases b <;> decide⟩
  | object name =>
    rw [text, List.getLast?_concat]
    exact ⟨_, rfl, by decide⟩
  | array element ih =>
    obtain ⟨c, hc, hlt⟩ := ih
    exact ⟨c, List.mem_getLast?_cons hc, hlt⟩

end FieldType

namespace MethodType

/-- The descriptor of a method. -/
def descriptor (t : MethodType) : String :=
  String.ofList t.text

/-- The descriptor of the result of a method. -/
def resultDescriptor (t : MethodType) : String :=
  (t.result.map FieldType.descriptor).getD "V"

/-- The types with other classes. -/
def map (f : String → String) (t : MethodType) : MethodType where
  arguments := t.arguments.map (FieldType.map f)
  result := t.result.map (FieldType.map f)

/-- The characters of a method's descriptor are those of its text. -/
@[simp] theorem toList_descriptor (t : MethodType) : t.descriptor.toList = t.text :=
  String.toList_ofList

/-- The characters of the descriptor of a result are those of its type, or `V`. -/
theorem toList_resultDescriptor (t : MethodType) :
    t.resultDescriptor.toList = (t.result.map FieldType.text).getD ['V'] := by
  cases h : t.result with
  | none => simp [resultDescriptor, h]
  | some r => simp [resultDescriptor, h]

/-- The classes of a renamed method type are the renamed ones. -/
@[simp] theorem classNames_map (f : String → String) (t : MethodType) :
    (t.map f).classNames = t.classNames.map f := by
  simp only [classNames, map, List.map_append, List.map_flatMap, List.flatMap_map,
    FieldType.classNames_map]
  cases t.result <;> simp

end MethodType

/-! ### The scanner of arguments -/

/-- Every argument takes up a character. -/
theorem length_argumentsFrom_le (cs : List Char) : (argumentsFrom cs).length ≤ cs.length := by
  fun_induction argumentsFrom cs with
  | case1 | case2 | case3 => exact Nat.zero_le _
  | case4 cs _ _ c rest hdrop _ name rest' hcut ih =>
    have hrest := Text.length_dropWhile_le (· == '[') cs
    have hcut := Text.length_lt_of_cut hcut
    rw [hdrop] at hrest
    simp only [List.length_cons] at hrest ⊢
    omega
  | case5 cs _ _ c rest hdrop _ ih =>
    have hrest := Text.length_dropWhile_le (· == '[') cs
    rw [hdrop] at hrest
    simp only [List.length_cons] at hrest ⊢
    omega

/-- **The slots of the arguments are at most twice as many as the descriptor has characters,** so they
are counted in 16 bits if it has no more than 32767. -/
theorem argumentSlots_le (d : String) : argumentSlots d ≤ 2 * d.toList.length := by
  have hwidth : ∀ types : List String,
      types.foldr (fun type n => width type + n) 0 ≤ 2 * types.length := by
    intro types
    induction types with
    | nil => exact Nat.le_refl _
    | cons type types ih =>
      rw [List.foldr_cons, List.length_cons, width]
      split <;> omega
  refine (hwidth _).trans (Nat.mul_le_mul_left 2 ?_)
  rw [arguments]
  cases hcut : cut '(' d.toList with
  | none => exact Nat.zero_le _
  | some parts =>
    obtain ⟨before, rest⟩ := parts
    rw [List.length_map]
    exact (length_argumentsFrom_le rest).trans (Nat.le_of_lt (Text.length_lt_of_cut hcut))

/-- The first local slot of a method with such a descriptor has 16 bits, too. -/
theorem firstLocal_le {m : Method} (h : m.descriptor.toList.length ≤ 32767) :
    m.firstLocal ≤ 65535 := by
  have hslots := argumentSlots_le m.descriptor
  rw [Method.firstLocal]
  split <;> omega

/-- The arguments end where the parenthesis is closed. -/
theorem argumentsFrom_close (rest : List Char) : argumentsFrom (')' :: rest) = [] := by
  rw [argumentsFrom]
  rfl

/-- The brackets in front of an argument, and what is behind them. -/
theorem brackets_spec (n : Nat) {c : Char} (hbracket : c ≠ '[') (hclose : c ≠ ')')
    (rest : List Char) :
    ((List.replicate n '[' ++ c :: rest).head? == some ')') = false ∧
      (List.replicate n '[' ++ c :: rest).takeWhile (· == '[') = List.replicate n '[' ∧
      (List.replicate n '[' ++ c :: rest).dropWhile (· == '[') = c :: rest := by
  have hall : ∀ x ∈ List.replicate n '[', (x == '[') = true := by
    intro x hx
    rw [List.eq_of_mem_replicate hx]
    rfl
  have hstop : (c == '[') = false := beq_eq_false_iff_ne.2 hbracket
  refine ⟨?_, ?_, ?_⟩
  · cases n with
    | zero => simpa using hclose
    | succ n => rfl
  · rw [List.takeWhile_append_of_pos hall, List.takeWhile_cons, hstop]
    exact List.append_nil _
  · rw [List.dropWhile_append_of_pos hall, List.dropWhile_cons, hstop]
    rfl

/-- A letter with brackets in front of it is one argument. -/
theorem argumentsFrom_letter (n : Nat) {c : Char} (hc : c ∉ ['[', ')', 'L']) (rest : List Char) :
    argumentsFrom (List.replicate n '[' ++ c :: rest) =
      (List.replicate n '[' ++ [c]) :: argumentsFrom rest := by
  simp only [List.mem_cons, List.not_mem_nil, or_false, not_or] at hc
  obtain ⟨hhead, hdims, hbehind⟩ := brackets_spec n hc.1 hc.2.1 rest
  rw [argumentsFrom, if_neg (by rw [hhead]; exact Bool.false_ne_true)]
  split
  · next h =>
    rw [hbehind] at h
    cases h
  · next d rest' h =>
    rw [hbehind] at h
    cases h
    rw [if_neg (by simpa using hc.2.2), hdims]

/-- A class with brackets in front of it is one argument, which ends at the first semicolon. -/
theorem argumentsFrom_object (n : Nat) {name : List Char} (hname : ';' ∉ name)
    (rest : List Char) :
    argumentsFrom (List.replicate n '[' ++ 'L' :: (name ++ ';' :: rest)) =
      (List.replicate n '[' ++ 'L' :: name ++ [';']) :: argumentsFrom rest := by
  have hcut : cut ';' (name ++ ';' :: rest) = some (name, rest) := cut_eq_some_iff.2 ⟨rfl, hname⟩
  obtain ⟨hhead, hdims, hbehind⟩ :=
    brackets_spec n (c := 'L') (by decide) (by decide) (name ++ ';' :: rest)
  -- The brackets come first and then the letter, so of the branches of the scanner only the one for
  -- classes is left.
  rw [argumentsFrom, if_neg (by rw [hhead]; exact Bool.false_ne_true)]
  dsimp only
  split
  · next h =>
    rw [hbehind] at h
    cases h
  · next d rest' h =>
    rw [hbehind] at h
    cases h
    rw [if_pos (beq_self_eq_true 'L')]
    split
    · next hnone =>
      rw [hcut] at hnone
      cases hnone
    · next name' rest' hsome =>
      rw [hcut] at hsome
      cases hsome
      rw [hdims]

/-- A type is one argument, whatever follows it. The induction is on the type, with the brackets
that were read in front of it. -/
theorem argumentsFrom_text {t : FieldType} (ht : ∀ n ∈ t.classNames, IsName n) (n : Nat)
    (rest : List Char) :
    argumentsFrom (List.replicate n '[' ++ (t.text ++ rest)) =
      (List.replicate n '[' ++ t.text) :: argumentsFrom rest := by
  induction t generalizing n with
  | base b => exact argumentsFrom_letter n (by cases b <;> decide) rest
  | object name =>
    have hname : ';' ∉ name.toList := ht name (List.mem_singleton.2 rfl)
    simpa [FieldType.text] using argumentsFrom_object n hname rest
  | array element ih =>
    have hshift : ∀ cs : List Char,
        List.replicate n '[' ++ '[' :: cs = List.replicate (n + 1) '[' ++ cs := by
      intro cs
      rw [List.replicate_succ', List.append_assoc, List.singleton_append]
    rw [FieldType.text, List.cons_append, hshift, hshift]
    exact ih ht (n + 1)

/-- The arguments of a method are its argument types. -/
theorem argumentsFrom_flatMap {ts : List FieldType} (hts : ∀ t ∈ ts, ∀ n ∈ t.classNames, IsName n)
    (rest : List Char) :
    argumentsFrom (ts.flatMap FieldType.text ++ ')' :: rest) = ts.map FieldType.text := by
  induction ts with
  | nil => exact argumentsFrom_close rest
  | cons t ts ih =>
    obtain ⟨ht, hts⟩ := List.forall_mem_cons.1 hts
    rw [List.flatMap_cons, List.append_assoc, List.map_cons, ← ih hts]
    exact argumentsFrom_text ht 0 _

/-! ### The scanner of class names -/

/-- A replacement of class names on characters. -/
def mapText (f : String → Option String) (cs : List Char) : List Char :=
  join (mapParts f (segments cs).1) (segments cs).2

/-- The class names among some characters. -/
def namesIn (cs : List Char) : List String :=
  (segments cs).1.map fun part => String.ofList part.2

/-- The classes of a text are mapped in its characters. -/
theorem mapClasses_ofList (f : String → Option String) (cs : List Char) :
    mapClasses f (String.ofList cs) = String.ofList (mapText f cs) := by
  rw [← String.toList_inj, toList_mapClasses, String.toList_ofList, String.toList_ofList, mapText]

/-- The classes of a text are read in its characters. -/
theorem classNames_ofList (cs : List Char) : classNames (String.ofList cs) = namesIn cs := by
  rw [classNames, String.toList_ofList, namesIn]

/-- A character that begins no name belongs to the text in front of the first name. -/
theorem segments_cons_of_ne {c : Char} (hc : c ≠ 'L') (cs : List Char) :
    segments (c :: cs) = match segments cs with
      | ([], last) => ([], c :: last)
      | ((before, name) :: parts, last) => ((c :: before, name) :: parts, last) := by
  obtain ⟨hjoin, hparts, hlast⟩ := segments_spec cs
  rcases hsegments : segments cs with ⟨_ | ⟨⟨before, name⟩, parts⟩, last⟩
  · rw [hsegments] at hjoin
    rw [join_nil] at hjoin
    subst hjoin
    refine segments_eq_nil fun before rest hcut => cut_eq_none_iff.2 fun hmem => ?_
    -- a name that ends behind the character would end in the text behind it
    obtain ⟨heq, hbefore⟩ := cut_eq_some_iff.1 hcut
    obtain ⟨name, rest', rfl, hname⟩ := List.eq_append_cons_of_mem hmem
    cases before with
    | nil => exact hc (List.cons.inj heq).1
    | cons b before =>
      have hrest : last = before ++ 'L' :: (name ++ ';' :: rest') := (List.cons.inj heq).2
      rw [hrest, segments_cons (fun h => hbefore (List.mem_cons_of_mem _ h)) hname] at hsegments
      cases hsegments
  · rw [hsegments] at hjoin hparts hlast
    obtain ⟨⟨hbefore, hname⟩, hrest⟩ := List.forall_mem_cons.1 hparts
    have hparts' : AreParts ((c :: before, name) :: parts) :=
      List.forall_mem_cons.2 ⟨⟨by simpa using ⟨Ne.symm hc, hbefore⟩, hname⟩, hrest⟩
    rw [← hjoin]
    exact segments_join hparts' hlast

/-- A character that begins no class is kept. -/
theorem mapText_cons_of_ne (f : String → Option String) {c : Char} (hc : c ≠ 'L')
    (cs : List Char) : mapText f (c :: cs) = c :: mapText f cs := by
  rw [mapText, mapText, segments_cons_of_ne hc]
  rcases segments cs with ⟨_ | ⟨⟨before, name⟩, parts⟩, last⟩ <;> rfl

/-- No class is named by a character that begins none. -/
theorem namesIn_cons_of_ne {c : Char} (hc : c ≠ 'L') (cs : List Char) :
    namesIn (c :: cs) = namesIn cs := by
  rw [namesIn, namesIn, segments_cons_of_ne hc]
  rcases segments cs with ⟨_ | ⟨⟨before, name⟩, parts⟩, last⟩ <;> rfl

/-- A name goes up to the semicolon that ends it. -/
theorem segments_object {name : String} (hname : IsName name) (cs : List Char) :
    segments ('L' :: (name.toList ++ ';' :: cs)) =
      (([], name.toList) :: (segments cs).1, (segments cs).2) := by
  have hfirst : segments ([] ++ 'L' :: (name.toList ++ ';' :: cs)) = _ :=
    segments_cons List.not_mem_nil hname
  exact hfirst

/-- The name of a class is mapped, and then what follows it. -/
theorem mapText_object (f : String → Option String) {name : String} (hname : IsName name)
    (cs : List Char) :
    mapText f ('L' :: (name.toList ++ ';' :: cs)) =
      'L' :: (((f name).getD name).toList ++ ';' :: mapText f cs) := by
  rw [mapText, segments_object hname, mapParts, List.map_cons, join_cons, String.ofList_toList]
  rfl

/-- The name of a class is read, and then what follows it. -/
theorem namesIn_object {name : String} (hname : IsName name) (cs : List Char) :
    namesIn ('L' :: (name.toList ++ ';' :: cs)) = name :: namesIn cs := by
  rw [namesIn, segments_object hname, List.map_cons, String.ofList_toList]
  rfl

/-- The letters of base types begin no name. -/
theorem BaseType.letter_ne (b : BaseType) : b.letter ≠ 'L' := by
  cases b <;> decide

/-- In a type its classes are replaced, whatever follows it. -/
theorem mapText_text (f : String → Option String) {t : FieldType}
    (ht : ∀ n ∈ t.classNames, IsName n) (rest : List Char) :
    mapText f (t.text ++ rest) = (t.map fun n => (f n).getD n).text ++ mapText f rest := by
  induction t with
  | base b => exact mapText_cons_of_ne f b.letter_ne rest
  | object name =>
    simpa [FieldType.text, FieldType.map] using
      mapText_object f (ht name (List.mem_singleton.2 rfl)) rest
  | array element ih =>
    rw [FieldType.text, List.cons_append, mapText_cons_of_ne f (by decide), ih ht]
    rfl

/-- In a type its classes are found, whatever follows it. -/
theorem namesIn_text {t : FieldType} (ht : ∀ n ∈ t.classNames, IsName n) (rest : List Char) :
    namesIn (t.text ++ rest) = t.classNames ++ namesIn rest := by
  induction t with
  | base b => exact namesIn_cons_of_ne b.letter_ne rest
  | object name =>
    simpa [FieldType.text, FieldType.classNames] using
      namesIn_object (ht name (List.mem_singleton.2 rfl)) rest
  | array element ih =>
    rw [FieldType.text, List.cons_append, namesIn_cons_of_ne (by decide), ih ht]
    rfl

/-- Both scanners of class names go through a list of types. -/
theorem mapText_flatMap (f : String → Option String) {ts : List FieldType}
    (hts : ∀ t ∈ ts, ∀ n ∈ t.classNames, IsName n) (rest : List Char) :
    mapText f (ts.flatMap FieldType.text ++ rest) =
      (ts.map (FieldType.map fun n => (f n).getD n)).flatMap FieldType.text ++ mapText f rest := by
  induction ts with
  | nil => rfl
  | cons t ts ih =>
    obtain ⟨ht, hts⟩ := List.forall_mem_cons.1 hts
    rw [List.flatMap_cons, List.append_assoc, mapText_text f ht, ih hts, List.map_cons,
      List.flatMap_cons, List.append_assoc]

/-- The classes of types in a row are read one after the other. -/
theorem namesIn_flatMap {ts : List FieldType} (hts : ∀ t ∈ ts, ∀ n ∈ t.classNames, IsName n)
    (rest : List Char) :
    namesIn (ts.flatMap FieldType.text ++ rest) =
      ts.flatMap FieldType.classNames ++ namesIn rest := by
  induction ts with
  | nil => rfl
  | cons t ts ih =>
    obtain ⟨ht, hts⟩ := List.forall_mem_cons.1 hts
    rw [List.flatMap_cons, List.append_assoc, namesIn_text ht, ih hts, List.flatMap_cons,
      List.append_assoc]

/-- Without the letter that begins a name there is nothing to cut. -/
theorem segments_of_not_mem {cs : List Char} (h : 'L' ∉ cs) : segments cs = ([], cs) := by
  refine segments_eq_nil fun before rest hcut => ?_
  rw [cut_eq_none_iff.2 h] at hcut
  cases hcut

/-- Characters that begin no class are kept. -/
theorem mapText_of_not_mem (f : String → Option String) {cs : List Char} (h : 'L' ∉ cs) :
    mapText f cs = cs := by
  rw [mapText, segments_of_not_mem h]
  rfl

/-- Characters that begin no class name none. -/
theorem namesIn_of_not_mem {cs : List Char} (h : 'L' ∉ cs) : namesIn cs = [] := by
  rw [namesIn, segments_of_not_mem h]
  rfl

/-! ### Descriptors of methods -/

namespace FieldType

/-- The descriptor of a type with other classes. -/
theorem mapClasses_descriptor (f : String → Option String) {t : FieldType}
    (ht : ∀ n ∈ t.classNames, IsName n) :
    mapClasses f t.descriptor = (t.map fun n => (f n).getD n).descriptor := by
  have hspelled := mapText_text f ht []
  rw [List.append_nil, mapText_of_not_mem f List.not_mem_nil, List.append_nil] at hspelled
  rw [descriptor, mapClasses_ofList, hspelled, descriptor]

end FieldType

namespace MethodType

variable {t : MethodType}

/-- The names of a method type are those of its argument types and of its result type. -/
theorem forall_classNames_iff {p : String → Prop} :
    (∀ n ∈ t.classNames, p n) ↔
      (∀ a ∈ t.arguments, ∀ n ∈ a.classNames, p n) ∧
        ∀ r ∈ t.result, ∀ n ∈ r.classNames, p n := by
  simp only [classNames, List.mem_append, List.mem_flatMap, Option.mem_toList, or_imp, forall_and,
    forall_exists_index, and_imp]
  exact and_congr ⟨fun h a ha n hn => h n a ha hn, fun h n a ha hn => h a ha n hn⟩
    ⟨fun h r hr n hn => h n r hr hn, fun h n r hr hn => h r hr n hn⟩

/-- The arguments of a descriptor are those of its type. -/
theorem arguments_descriptor (h : ∀ n ∈ t.classNames, IsName n) :
    Descriptor.arguments t.descriptor = t.arguments.map FieldType.descriptor := by
  have hcut : cut '(' t.descriptor.toList = some ([], t.arguments.flatMap FieldType.text ++
      ')' :: (t.result.map FieldType.text).getD ['V']) := by
    rw [toList_descriptor]
    exact cut_eq_some_iff.2 ⟨rfl, List.not_mem_nil⟩
  rw [Descriptor.arguments, hcut]
  dsimp only
  rw [argumentsFrom_flatMap (forall_classNames_iff.1 h).1, List.map_map]
  rfl

/-- The result follows the last closing parenthesis, if its class has none in its name. -/
theorem returnType_descriptor (h : ∀ r ∈ t.result, ∀ n ∈ r.classNames, ')' ∉ n.toList) :
    returnType t.descriptor = t.resultDescriptor := by
  have hsplit : t.descriptor =
      String.ofList ('(' :: t.arguments.flatMap FieldType.text ++ [')']) ++ t.resultDescriptor := by
    rw [← String.toList_inj, toList_descriptor, String.toList_append, String.toList_ofList,
      toList_resultDescriptor, List.append_assoc]
    rfl
  have hback : ')' ∉ t.resultDescriptor.toList := by
    rw [toList_resultDescriptor]
    cases hresult : t.result with
    | none => decide
    | some r => exact FieldType.not_mem_text (by decide) (h r hresult)
  rw [returnType, hsplit]
  refine Text.afterLast_append (fun c hc => ?_) hback
  rw [String.toList_ofList, List.getLast?_concat] at hc
  exact (Option.mem_some_iff.1 hc).symm

/-- The slots of some types: one for each, and one more for each wide one. -/
theorem foldr_width (ts : List FieldType) :
    (ts.map FieldType.descriptor).foldr (fun type n => width type + n) 0 =
      ts.length + ts.countP FieldType.isWide := by
  induction ts with
  | nil => rfl
  | cons t ts ih =>
    rw [List.map_cons, List.foldr_cons, ih, FieldType.width_descriptor, List.length_cons,
      List.countP_cons]
    omega

/-- Every argument takes a slot, and a wide one takes a second. -/
theorem argumentSlots_descriptor (h : ∀ n ∈ t.classNames, IsName n) :
    argumentSlots t.descriptor = t.arguments.length + t.arguments.countP FieldType.isWide := by
  rw [argumentSlots, arguments_descriptor h, foldr_width]

/-- The classes of a descriptor are those of its type. -/
theorem classNames_descriptor (h : ∀ n ∈ t.classNames, IsName n) :
    Descriptor.classNames t.descriptor = t.classNames := by
  obtain ⟨harguments, hresult⟩ := forall_classNames_iff.1 h
  have hback : namesIn ((t.result.map FieldType.text).getD ['V']) =
      t.result.toList.flatMap FieldType.classNames := by
    cases hr : t.result with
    | none => exact namesIn_of_not_mem (by decide)
    | some r =>
      have hfound := namesIn_text (hresult r hr) []
      rw [List.append_nil, namesIn_of_not_mem List.not_mem_nil, List.append_nil] at hfound
      simpa using hfound
  rw [descriptor, classNames_ofList, text, List.cons_append, namesIn_cons_of_ne (by decide),
    namesIn_flatMap harguments, namesIn_cons_of_ne (by decide), hback, classNames]

/-- Mapping the classes of a descriptor gives the descriptor of the mapped type. -/
theorem mapClasses_descriptor (f : String → Option String) (h : ∀ n ∈ t.classNames, IsName n) :
    mapClasses f t.descriptor = (t.map fun n => (f n).getD n).descriptor := by
  obtain ⟨harguments, hresult⟩ := forall_classNames_iff.1 h
  have hback : mapText f ((t.result.map FieldType.text).getD ['V']) =
      ((t.map fun n => (f n).getD n).result.map FieldType.text).getD ['V'] := by
    rw [map]
    cases hr : t.result with
    | none => exact mapText_of_not_mem f (by decide)
    | some r =>
      have hmapped := mapText_text f (hresult r hr) []
      rw [List.append_nil, mapText_of_not_mem f List.not_mem_nil, List.append_nil] at hmapped
      simpa using hmapped
  rw [descriptor, mapClasses_ofList, descriptor, text, text, List.cons_append,
    mapText_cons_of_ne f (by decide), mapText_flatMap f harguments,
    mapText_cons_of_ne f (by decide), hback]
  rfl

/-- **The descriptor of a method is cut behind characters of one byte only,** whatever the names of its
classes consist of: each argument ends with the letter of a base type or with a semicolon. -/
theorem exists_getLast?_arguments (h : ∀ n ∈ t.classNames, IsName n) :
    ∀ type ∈ Descriptor.arguments t.descriptor, ∃ c ∈ type.toList.getLast?, c.toNat < 128 := by
  rw [arguments_descriptor h]
  rintro type htype
  obtain ⟨a, -, rfl⟩ := List.mem_map.1 htype
  rw [FieldType.toList_descriptor]
  exact a.exists_getLast?_text

/-- What the scanners find in a text is what a method type consists of. -/
structure Scans (t : MethodType) (d : String) : Prop where
  /-- The arguments are the spellings of the argument types. -/
  arguments : Descriptor.arguments d = t.arguments.map FieldType.descriptor
  /-- The rest is the spelling of the result. -/
  result : returnType d = t.resultDescriptor
  /-- Each argument takes a slot, a long or a double one more. -/
  slots : argumentSlots d = t.arguments.length + t.arguments.countP FieldType.isWide
  /-- The class names are those of the types, in order. -/
  names : Descriptor.classNames d = t.classNames

/-- The descriptor of a method type is read as that type. -/
theorem scans_descriptor (h : ∀ n ∈ t.classNames, IsClassName n) : Scans t t.descriptor := by
  have hname : ∀ n ∈ t.classNames, IsName n := fun n hn => (h n hn).2.1
  exact ⟨arguments_descriptor hname,
    returnType_descriptor fun r hr n hn =>
      ((forall_classNames_iff.1 h).2 r hr n hn).2.2.2,
    argumentSlots_descriptor hname, classNames_descriptor hname⟩

/-- A renaming of the classes keeps which arguments are wide. -/
theorem countP_isWide_map (f : String → String) (t : MethodType) :
    (t.map f).arguments.countP FieldType.isWide = t.arguments.countP FieldType.isWide := by
  rw [map, List.countP_map]
  exact List.countP_congr fun a _ => by rw [Function.comp_apply, FieldType.isWide_map]

/-- The descriptor of a method is read as the types that it spells, by both scanners. Renaming its
classes, by names that may stand in descriptors, gives the descriptor of the same types with the
other classes. That is read as these types, so its arguments are the renamed arguments, as many as
before and in as many slots. -/
theorem scan_descriptor (t : MethodType) (h : ∀ n ∈ t.classNames, IsClassName n) :
    Scans t t.descriptor ∧
      ∀ f : String → Option String,
        (∀ n ∈ t.classNames, ∀ new, f n = some new → IsClassName new) →
          mapClasses f t.descriptor = (t.map fun n => (f n).getD n).descriptor ∧
          Scans (t.map fun n => (f n).getD n) (mapClasses f t.descriptor) ∧
          Descriptor.arguments (mapClasses f t.descriptor) =
            (Descriptor.arguments t.descriptor).map (mapClasses f) ∧
          (Descriptor.arguments (mapClasses f t.descriptor)).length =
            (Descriptor.arguments t.descriptor).length ∧
          argumentSlots (mapClasses f t.descriptor) = argumentSlots t.descriptor := by
  have hname : ∀ n ∈ t.classNames, IsName n := fun n hn => (h n hn).2.1
  have hscans := scans_descriptor h
  refine ⟨hscans, fun f hf => ?_⟩
  have hmapped := mapClasses_descriptor f hname
  -- The renamed types satisfy the hypothesis again, which makes the first part hold of them too.
  have hnew : ∀ n ∈ (t.map fun n => (f n).getD n).classNames, IsClassName n := by
    rw [classNames_map, List.forall_mem_map]
    intro n hn
    cases hnew : f n with
    | none => exact h n hn
    | some new => exact hf n hn new hnew
  have hscans' := scans_descriptor hnew
  rw [← hmapped] at hscans'
  have hcommutes : Descriptor.arguments (mapClasses f t.descriptor) =
      (Descriptor.arguments t.descriptor).map (mapClasses f) := by
    rw [hscans'.arguments, hscans.arguments, map, List.map_map, List.map_map]
    refine List.map_congr_left fun a ha => ?_
    exact (FieldType.mapClasses_descriptor f ((forall_classNames_iff.1 hname).1 a ha)).symm
  refine ⟨hmapped, hscans', hcommutes, ?_, ?_⟩
  · rw [hcommutes, List.length_map]
  · rw [hscans'.slots, hscans.slots, countP_isWide_map, map, List.length_map]

/-- Types whose classes have letters of types for names. -/
def misleading : MethodType where
  arguments := [.object "LJ", .array (.array (.base .double)), .base .long, .array (.object "a/V")]
  result := some (.object "D")

/-- A renaming of one of these classes. -/
def renamedLJ (name : String) : Option String :=
  if name = "LJ" then some "deob/class1" else none

/-- Neither scanner is misled by such names. -/
theorem scan_descriptor_misleading :
    misleading.descriptor = "(LLJ;[[DJ[La/V;)LD;" ∧
      (∀ n ∈ misleading.classNames, IsClassName n) ∧
      (∀ n ∈ misleading.classNames, ∀ new, renamedLJ n = some new → IsClassName new) ∧
      Descriptor.arguments misleading.descriptor = ["LLJ;", "[[D", "J", "[La/V;"] ∧
      returnType misleading.descriptor = "LD;" ∧
      argumentSlots misleading.descriptor = 5 ∧
      Descriptor.classNames misleading.descriptor = ["LJ", "a/V", "D"] ∧
      mapClasses renamedLJ misleading.descriptor = "(Ldeob/class1;[[DJ[La/V;)LD;" ∧
      Descriptor.arguments (mapClasses renamedLJ misleading.descriptor) =
        ["Ldeob/class1;", "[[D", "J", "[La/V;"] := by
  have hnames : ∀ n ∈ misleading.classNames, IsClassName n := by decide
  have hnew : ∀ n ∈ misleading.classNames, ∀ new,
      renamedLJ n = some new → IsClassName new := by
    intro n _ new h
    obtain rfl := Option.some.inj (Option.ite_none_right_eq_some.1 h).2
    decide
  obtain ⟨hscans, hmap⟩ := scan_descriptor misleading hnames
  obtain ⟨hmapped, hscans', -⟩ := hmap renamedLJ hnew
  -- Each reading of the descriptor is the one of its types, and these are evaluated.
  refine ⟨by decide, hnames, hnew, ?_, ?_, ?_, ?_, ?_, ?_⟩
  · rw [hscans.arguments]
    decide
  · rw [hscans.result]
    decide
  · rw [hscans.slots]
    decide
  · rw [hscans.names]
    decide
  · rw [hmapped]
    decide
  · rw [hscans'.arguments]
    decide

end MethodType

end Unscramble.Descriptor
