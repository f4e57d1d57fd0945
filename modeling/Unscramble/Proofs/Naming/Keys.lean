import Unscramble.Naming.Assignment
import Unscramble.Proofs.Descriptor
import Unscramble.Proofs.Naming.Assignment
import Unscramble.Proofs.Naming.Table

/-! # Keys and generated names

What the key of a class or member tells about it. The key of a class has no dot and that of a member
has one, and the name of a member ends in its key where the colon or the descriptor begins. So the
key alone decides whether a name is to be replaced, and plain names give keys and generated names
that a line of a table can hold.

A renaming numbers the names it generates, so no two entries of the table that it fills have the
same generated name, and a generated name is told from every other one by its stem and its digits.

Main definitions: `IsPlain`, `Codebase.Plain`, `Assignment.Issued`, `Assignment.Numbered`. Main
statements: `mem_candidates_iff`, `obfuscated_eq_of_key_eq`, `legible_rename`, `isGenerated_numbered`,
`simpleName_numbered`, `Assignment.Numbered.put`. -/

namespace Unscramble.Naming

/-! ### Plain names -/

/-- The characters that mean something in a name table. -/
def reserved : List Char := ['.', ':', '(', '#', '=', ',']

/-- A character without a meaning in name tables. -/
def IsPlainChar (c : Char) : Prop :=
  c ∉ reserved ∧ Text.isBlank c = false

instance : DecidablePred IsPlainChar := fun c =>
  inferInstanceAs (Decidable (c ∉ reserved ∧ Text.isBlank c = false))

/-- A name all of whose characters are plain. -/
def IsPlain (name : String) : Prop :=
  name ≠ "" ∧ ∀ c ∈ name.toList, IsPlainChar c

instance : DecidablePred IsPlain := fun name =>
  decidable_of_iff (name ≠ "" ∧ name.toList.all (fun c => decide (IsPlainChar c)) = true)
    (by simp [IsPlain])

/-- A plain name has no reserved character. -/
theorem IsPlain.not_mem {name : String} (h : IsPlain name) {c : Char} (hc : c ∈ reserved) :
    c ∉ name.toList :=
  fun hmem => (h.2 c hmem).1 hc

/-- A digit is a plain character. -/
theorem isPlainChar_of_isDigit {c : Char} (h : c.isDigit = true) : IsPlainChar c := by
  have hrange : 48 ≤ c.toNat ∧ c.toNat ≤ 57 := by
    simpa [Char.isDigit, UInt32.le_iff_toNat_le] using h
  constructor
  · intro hc
    simp only [reserved, List.mem_cons, List.not_mem_nil, or_false] at hc
    rcases hc with rfl | rfl | rfl | rfl | rfl | rfl <;> revert h <;> decide
  · rw [Text.isBlank]
    simp only [Bool.or_eq_false_iff, Bool.and_eq_false_iff, decide_eq_false_iff_not,
      beq_eq_false_iff_ne]
    omega

/-- A stem of plain characters with a number. -/
theorem isPlain_numbered {stem : String}
    (h : stem.toList.all (fun c => decide (IsPlainChar c)) = true) (n : Nat) :
    IsPlain (stem ++ toString n) := by
  constructor
  · simp
  · intro c hc
    rw [String.toList_append, List.mem_append] at hc
    rcases hc with hc | hc
    · simpa using List.all_eq_true.1 h c hc
    · rw [Nat.toString_eq_ofList_toDigits, String.toList_ofList] at hc
      exact isPlainChar_of_isDigit (Nat.isDigit_of_mem_toDigits (by decide) (by decide) hc)

/-- The generated name of a class in the package of a plain name. -/
theorem isPlain_fresh {name : String} (h : IsPlain name) (n : Nat) :
    IsPlain (Text.throughLast '/' name ++ "class" ++ toString n) := by
  refine isPlain_numbered ?_ n
  rw [String.toList_append, List.all_append, Bool.and_eq_true]
  refine ⟨List.all_eq_true.2 fun c hc => ?_, by decide⟩
  rw [Text.throughLast, String.toList_ofList, List.mem_reverse] at hc
  simpa using h.2 c (List.mem_reverse.1 ((List.dropWhile_sublist _).subset hc))

/-! ### Cells of a table -/

/-- A text without blanks and separators can stand in a table. -/
theorem isCell_of_forall {cs : List Char} (hne : cs ≠ [])
    (h : ∀ c ∈ cs, c ≠ '#' ∧ c ≠ '=' ∧ Text.isBlank c = false) : Table.IsCell cs where
  ne_nil := hne
  trimmed := Text.trimChars_of_forall fun c hc => (h c hc).2.2
  comment := fun hc => (h _ hc).1 rfl
  equals := fun hc => (h _ hc).2.1 rfl
  lineFeed := fun hc => absurd (h _ hc).2.2 (by decide)

/-- A plain character begins no comment, divides no entry and is no blank. -/
theorem IsPlainChar.solid {c : Char} (h : IsPlainChar c) :
    c ≠ '#' ∧ c ≠ '=' ∧ Text.isBlank c = false := by
  refine ⟨?_, ?_, h.2⟩
  · rintro rfl
    exact h.1 (by decide)
  · rintro rfl
    exact h.1 (by decide)

/-- A plain name may stand in a table. -/
theorem IsPlain.isCell {name : String} (h : IsPlain name) : Table.IsCell name.toList :=
  isCell_of_forall (by simpa using h.1) fun c hc => (h.2 c hc).solid

/-- A plain key and a plain new name make a legible entry. -/
theorem legible_rename {key new : String} (hkey : Table.IsCell key.toList) (hnew : IsPlain new) :
    Table.Legible key (.rename new) :=
  ⟨hkey, hnew.isCell, hnew.not_mem (by decide), fun _ => hnew.not_mem (by decide)⟩

end Unscramble.Naming

namespace Unscramble

open Naming

/-- The name that a field had in the obfuscated build. -/
def Field.buildName (f : Field) : String :=
  (recordedName? f.annotations).getD f.name

/-- The name that a method had in the obfuscated build. -/
def Method.buildName (m : Method) : String :=
  (recordedName? m.annotations).getD m.name

/-- A plain name, and so is the one that annotations record from the obfuscated build. -/
def PlainNames (name : String) (annotations : List Annotation) : Prop :=
  IsPlain name ∧ ∀ n, recordedName? annotations = some n → IsPlain n

/-- A codebase whose names can stand in a name table: the classes, the members, what annotations
record of them from the obfuscated build, and the classes of the descriptors of members. -/
structure Codebase.Plain (p : Codebase) : Prop where
  /-- The classes have plain names. -/
  className : ∀ c ∈ p.classes, PlainNames c.name c.annotations
  /-- The fields have plain names. -/
  fieldName : ∀ c ∈ p.classes, ∀ f ∈ c.fields, PlainNames f.name f.annotations
  /-- The methods have plain names. -/
  methodName : ∀ c ∈ p.classes, ∀ m ∈ c.methods, PlainNames m.name m.annotations
  /-- The descriptors of fields spell types of plain classes. -/
  fieldType : ∀ c ∈ p.classes, ∀ f ∈ c.fields, ∃ t : Descriptor.FieldType,
    f.descriptor.toList = t.text ∧ ∀ n ∈ t.classNames, IsPlain n
  /-- The descriptors of methods spell types of plain classes. -/
  methodType : ∀ c ∈ p.classes, ∀ m ∈ c.methods, ∃ t : Descriptor.MethodType,
    m.descriptor.toList = t.text ∧ ∀ n ∈ t.classNames, IsPlain n

end Unscramble

namespace Unscramble.Naming

/-! ### Candidates -/

/-- A field as a candidate. -/
def fieldCandidate (policy : Policy) (owner : String) (f : Field) : Candidate :=
  ⟨f.key, owner ++ "." ++ f.buildName ++ ":" ++ f.descriptor, policy.ofField f.buildName⟩

/-- A method as a candidate. -/
def methodCandidate (policy : Policy) (owner : String) (m : Method) : Candidate :=
  ⟨m.key, owner ++ "." ++ m.buildName ++ m.descriptor, policy.ofMethod m.buildName⟩

/-- The candidates of a class are its fields and its methods other than initializers. -/
theorem mem_candidates_iff {policy : Policy} {owner : String} {c : Class} {x : Candidate} :
    x ∈ candidates policy owner c ↔
      (∃ f ∈ c.fields, fieldCandidate policy owner f = x) ∨
      ∃ m ∈ c.methods, (m.isConstructor = false ∧ m.isInitializer = false) ∧
        methodCandidate policy owner m = x := by
  rw [candidates, List.mem_append, List.mem_map, List.mem_map]
  simp only [List.mem_filter, Bool.and_eq_true, Bool.not_eq_true', and_assoc]
  rfl

/-- The key of a field, taken apart. -/
theorem toList_key_field (policy : Policy) (owner : String) (f : Field) :
    (fieldCandidate policy owner f).key.toList =
      owner.toList ++ '.' :: (f.buildName.toList ++ ':' :: f.descriptor.toList) := by
  simp [fieldCandidate]

/-- The key of a method, taken apart. -/
theorem toList_key_method (policy : Policy) (owner : String) (m : Method) :
    (methodCandidate policy owner m).key.toList =
      owner.toList ++ '.' :: (m.buildName.toList ++ m.descriptor.toList) := by
  simp [methodCandidate]

/-- Every key of a member has a dot. -/
theorem dot_mem_key {policy : Policy} {owner : String} {c : Class} {x : Candidate}
    (h : x ∈ candidates policy owner c) : '.' ∈ x.key.toList := by
  rcases mem_candidates_iff.1 h with ⟨f, -, rfl⟩ | ⟨m, -, -, rfl⟩
  · simp [toList_key_field]
  · simp [toList_key_method]

section Plain

variable {p : Codebase} {c c' : Class} {f : Field} {m : Method} {policy : Policy}
  {owner owner' : String} {x x' : Candidate}

/-- A recorded name that is plain is plain, or else the name itself. -/
theorem isPlain_getD {name : String} {recorded : Option String}
    (h : IsPlain name ∧ ∀ n, recorded = some n → IsPlain n) : IsPlain (recorded.getD name) := by
  cases recorded with
  | none => exact h.1
  | some n => exact h.2 n rfl

/-- The key of a class is plain. -/
theorem isPlain_classKey (hp : p.Plain) (hc : c ∈ p.classes) : IsPlain (classKey c) :=
  isPlain_getD (hp.className c hc)

/-- The name of a field for its build is plain. -/
theorem isPlain_buildName_field (hp : p.Plain) (hc : c ∈ p.classes) (hf : f ∈ c.fields) :
    IsPlain f.buildName :=
  isPlain_getD (hp.fieldName c hc f hf)

/-- The name of a method for its build is plain. -/
theorem isPlain_buildName_method (hp : p.Plain) (hc : c ∈ p.classes) (hm : m ∈ c.methods) :
    IsPlain m.buildName :=
  isPlain_getD (hp.methodName c hc m hm)

/-- The descriptor of a method opens a parenthesis. -/
theorem exists_descriptor_method (hp : p.Plain) (hc : c ∈ p.classes) (hm : m ∈ c.methods) :
    ∃ rest, m.descriptor.toList = '(' :: rest := by
  obtain ⟨t, ht, -⟩ := hp.methodType c hc m hm
  exact ⟨_, ht⟩

/-- The characters of the descriptors of a plain codebase can stand in a table. -/
theorem solid_of_marks {ns : List String} (hns : ∀ n ∈ ns, IsPlain n) {ch : Char}
    (h : ch ∈ Descriptor.marks ∨ ∃ n ∈ ns, ch ∈ n.toList) :
    ch ≠ '#' ∧ ch ≠ '=' ∧ Text.isBlank ch = false := by
  rcases h with h | ⟨n, hn, h⟩
  · have hmarks : Descriptor.marks.all
        (fun ch => decide (ch ≠ '#' ∧ ch ≠ '=' ∧ Text.isBlank ch = false)) = true := by decide
    simpa using List.all_eq_true.1 hmarks ch h
  · exact ((hns n hn).2 ch h).solid

/-- The key of a member of a plain codebase can stand in a table. -/
theorem isCell_key (hp : p.Plain) (hc : c ∈ p.classes) (howner : IsPlain owner)
    (h : x ∈ candidates policy owner c) : Table.IsCell x.key.toList := by
  have hne : x.key.toList ≠ [] := List.ne_nil_of_mem (dot_mem_key h)
  refine isCell_of_forall hne ?_
  intro ch hch
  rcases mem_candidates_iff.1 h with ⟨f, hf, rfl⟩ | ⟨m, hm, -, rfl⟩
  · obtain ⟨t, ht, hns⟩ := hp.fieldType c hc f hf
    rw [toList_key_field, ht] at hch
    simp only [List.mem_append, List.mem_cons] at hch
    rcases hch with hch | rfl | hch | rfl | hch
    · exact (howner.2 ch hch).solid
    · decide
    · exact ((isPlain_buildName_field hp hc hf).2 ch hch).solid
    · decide
    · exact solid_of_marks hns (Descriptor.FieldType.mem_text hch)
  · obtain ⟨t, ht, hns⟩ := hp.methodType c hc m hm
    rw [toList_key_method, ht] at hch
    simp only [List.mem_append, List.mem_cons] at hch
    rcases hch with hch | rfl | hch | hch
    · exact (howner.2 ch hch).solid
    · decide
    · exact ((isPlain_buildName_method hp hc hm).2 ch hch).solid
    · exact solid_of_marks hns (Descriptor.MethodType.mem_text hch)

/-- The key of a member tells its name and its kind, and so whether the name is to be replaced. -/
theorem obfuscated_eq_of_key_eq (hp : p.Plain) (hc : c ∈ p.classes) (hc' : c' ∈ p.classes)
    (howner : IsPlain owner) (howner' : IsPlain owner') (h : x ∈ candidates policy owner c)
    (h' : x' ∈ candidates policy owner' c') (hkey : x.key = x'.key) :
    x.obfuscated = x'.obfuscated := by
  have hdot : '.' ∉ owner.toList := howner.not_mem (by decide)
  have hdot' : '.' ∉ owner'.toList := howner'.not_mem (by decide)
  have hkeys := congrArg String.toList hkey
  -- Fields and methods have different keys, since the descriptor of a method starts with a bracket.
  rcases mem_candidates_iff.1 h with ⟨f, hf, rfl⟩ | ⟨m, hm, -, rfl⟩ <;>
    rcases mem_candidates_iff.1 h' with ⟨f', hf', rfl⟩ | ⟨m', hm', -, rfl⟩
  · have hname := isPlain_buildName_field hp hc hf
    have hname' := isPlain_buildName_field hp hc' hf'
    rw [toList_key_field, toList_key_field, Text.append_cons_inj hdot' hdot,
      Text.append_cons_inj (hname'.not_mem (by decide)) (hname.not_mem (by decide))] at hkeys
    rw [fieldCandidate, fieldCandidate, String.toList_inj.1 hkeys.2.2.1]
  · have hname := isPlain_buildName_field hp hc hf
    have hname' := isPlain_buildName_method hp hc' hm'
    obtain ⟨rest, hrest⟩ := exists_descriptor_method hp hc' hm'
    rw [toList_key_field, toList_key_method, Text.append_cons_inj hdot' hdot, hrest,
      Text.append_cons_inj (hname'.not_mem (by decide)) (hname.not_mem (by decide))] at hkeys
    exact absurd hkeys.2.2.2.1 (by decide)
  · have hname := isPlain_buildName_method hp hc hm
    have hname' := isPlain_buildName_field hp hc' hf'
    obtain ⟨rest, hrest⟩ := exists_descriptor_method hp hc hm
    rw [toList_key_field, toList_key_method, Text.append_cons_inj hdot' hdot, hrest,
      Text.append_cons_inj (hname'.not_mem (by decide)) (hname.not_mem (by decide))] at hkeys
    exact absurd hkeys.2.2.2.1 (by decide)
  · have hname := isPlain_buildName_method hp hc hm
    have hname' := isPlain_buildName_method hp hc' hm'
    obtain ⟨rest, hrest⟩ := exists_descriptor_method hp hc hm
    obtain ⟨rest', hrest'⟩ := exists_descriptor_method hp hc' hm'
    rw [toList_key_method, toList_key_method, Text.append_cons_inj hdot' hdot, hrest, hrest',
      Text.append_cons_inj (hname'.not_mem (by decide)) (hname.not_mem (by decide))] at hkeys
    rw [methodCandidate, methodCandidate, String.toList_inj.1 hkeys.2.2.1]

end Plain

end Unscramble.Naming

namespace Unscramble

namespace Text

/-- What follows a text that is empty or ends in the separator is the part behind the last one. -/
theorem afterLast_append {stop : Char} {front back : String}
    (hfront : ∀ c ∈ front.toList.getLast?, c = stop) (hback : stop ∉ back.toList) :
    afterLast stop (front ++ back) = back := by
  have hall : ∀ c ∈ back.toList.reverse, (c != stop) = true := by
    intro c hc
    rw [bne_iff_ne]
    rintro rfl
    exact hback (List.mem_reverse.1 hc)
  have hnone : front.toList.reverse.takeWhile (· != stop) = [] := by
    rw [List.takeWhile_eq_nil_iff]
    intro hlt
    have hlast := hfront (front.toList.reverse[0])
    rw [← List.head?_reverse, List.head?_eq_getElem?, List.getElem?_eq_getElem hlt] at hlast
    simpa using hlast rfl
  rw [afterLast, String.toList_append, List.reverse_append, List.takeWhile_append_of_pos hall, hnone,
    List.append_nil, List.reverse_reverse, String.ofList_toList]

/-- The part through the last separator is empty or ends in it. -/
theorem getLast?_throughLast {stop : Char} {s : String} :
    ∀ c ∈ (throughLast stop s).toList.getLast?, c = stop := by
  intro c hc
  rw [throughLast, String.toList_ofList, List.getLast?_reverse] at hc
  simpa using head?_dropWhile c hc

/-- A number is written in digits. -/
theorem isDigit_of_mem_toString {n : Nat} {c : Char} (hc : c ∈ (toString n).toList) :
    c.isDigit = true := by
  rw [Nat.toString_eq_ofList_toDigits, String.toList_ofList] at hc
  exact Nat.isDigit_of_mem_toDigits (by decide) (by decide) hc

end Text

namespace Naming

/-! ### Stems and numbers -/

/-- A number is told by its digits. -/
theorem numbered_inj {stem : String} {n n' : Nat} :
    stem ++ toString n = stem ++ toString n' ↔ n = n' := by
  simp [Nat.repr_inj]

/-- What generated names begin with. -/
def stems : List String := ["class", "field", "method"]

/-- A generated name tells its stem and its number. -/
theorem numbered_eq_iff {stem stem' : String} (h : stem ∈ stems) (h' : stem' ∈ stems) {n n' : Nat} :
    stem ++ toString n = stem' ++ toString n' ↔ stem = stem' ∧ n = n' := by
  constructor
  · intro heq
    by_cases hstem : stem = stem'
    · subst hstem
      exact ⟨rfl, numbered_inj.1 heq⟩
    · -- the stems begin with different letters
      have hne : ∀ s ∈ stems, s ≠ "" := by decide
      have hheads : ∀ s ∈ stems, ∀ t ∈ stems, s ≠ t → s.toList.head? ≠ t.toList.head? := by decide
      have hhead := congrArg (fun s => s.toList.head?) heq
      simp only [String.toList_append] at hhead
      rw [List.head?_append_of_ne_nil _ (by simpa using hne stem h),
        List.head?_append_of_ne_nil _ (by simpa using hne stem' h')] at hhead
      exact absurd hhead (hheads stem h stem' h' hstem)
  · rintro ⟨rfl, rfl⟩
    rfl

/-- A stem and a number make a generated name. -/
theorem isGenerated_numbered (stem : String) (n : Nat) :
    isGenerated stem (stem ++ toString n) = true := by
  have hprefix : stem.toList.isPrefixOf (stem ++ toString n).toList = true := by
    simp
  have hdigits : ∀ c ∈ (toString n).toList, c.isDigit = true :=
    fun c hc => Text.isDigit_of_mem_toString hc
  have hdrop : String.ofList ((stem ++ toString n).toList.drop stem.length) = toString n := by
    rw [String.toList_append, List.drop_left' String.length_toList, String.ofList_toList]
  rw [isGenerated, Text.stripStart?, if_pos hprefix, hdrop]
  simpa using hdigits

/-- The simple name of a generated name of a class. -/
theorem simpleName_numbered {package stem : String} (hpackage : ∀ c ∈ package.toList.getLast?, c = '/')
    (hstem : '/' ∉ stem.toList) (n : Nat) :
    simpleName (package ++ stem ++ toString n) = stem ++ toString n := by
  have hdigits : '/' ∉ (toString n).toList := by
    intro hc
    exact absurd (Text.isDigit_of_mem_toString hc) (by decide)
  rw [String.append_assoc]
  exact Text.afterLast_append hpackage (by rw [String.toList_append, List.mem_append]; tauto)

/-- A generated name without a package is simple. -/
theorem simpleName_stem {stem : String} (hstem : '/' ∉ stem.toList) (n : Nat) :
    simpleName (stem ++ toString n) = stem ++ toString n := by
  have hempty : ∀ c ∈ "".toList.getLast?, c = '/' := by simp
  simpa using simpleName_numbered hempty hstem n

/-! ### Issued names -/

/-- The names that have been generated so far, each with the kind of key it can stand under. -/
inductive Assignment.Issued (a : Assignment) (key : String) : String → Prop
  /-- The name of a class. -/
  | ofClass {package : String} {n : Nat} (hkey : '.' ∉ key.toList)
    (hpackage : ∀ c ∈ package.toList.getLast?, c = '/') (hn : n ≤ a.classCounter) :
    a.Issued key (package ++ "class" ++ toString n)
  /-- The name of a field. -/
  | ofField {n : Nat} (hkey : '.' ∈ key.toList) (hn : n ≤ a.fieldCounter) :
    a.Issued key ("field" ++ toString n)
  /-- The name of a method. -/
  | ofMethod {n : Nat} (hkey : '.' ∈ key.toList) (hn : n ≤ a.methodCounter) :
    a.Issued key ("method" ++ toString n)

/-- Every entry of the table has a name of its own that was generated. -/
structure Assignment.Numbered (a : Assignment) : Prop where
  /-- The names were generated. -/
  issued : ∀ key mapping, a.table.get? key = some mapping →
    ∃ name, mapping = .rename name ∧ a.Issued key name
  /-- No two entries have the same simple name. -/
  distinct : ∀ key key' mapping mapping', a.table.get? key = some mapping →
    a.table.get? key' = some mapping' → simpleName mapping.name = simpleName mapping'.name →
    key = key'

namespace Assignment

variable {a b : Assignment} {key name : String}

/-- The stems with the last number that each was given. -/
def counters (a : Assignment) : List (String × Nat) :=
  [("class", a.classCounter), ("field", a.fieldCounter), ("method", a.methodCounter)]

/-- A counter counts names of a known stem. -/
theorem stem_mem_of_counters {stem : String} {k : Nat} (h : (stem, k) ∈ a.counters) :
    stem ∈ stems := by
  have hfst := List.mem_map_of_mem (f := Prod.fst) h
  exact hfst

/-- Each stem is counted once. -/
theorem counters_unique {stem : String} {k k' : Nat} (h : (stem, k) ∈ a.counters)
    (h' : (stem, k') ∈ a.counters) : k = k' := by
  have hnodup : (a.counters.map Prod.fst).Nodup := by
    show stems.Nodup
    decide
  have heq := List.inj_on_of_nodup_map hnodup h h' rfl
  exact (Prod.mk.inj heq).2

/-- The simple name of an issued name is a stem and a number that was given. -/
theorem Issued.exists_simpleName (h : a.Issued key name) :
    ∃ stem k n, (stem, k) ∈ a.counters ∧ n ≤ k ∧ simpleName name = stem ++ toString n := by
  cases h with
  | ofClass _ hpackage hn =>
    exact ⟨"class", _, _, by simp [counters], hn, simpleName_numbered hpackage (by decide) _⟩
  | ofField _ hn => exact ⟨"field", _, _, by simp [counters], hn, simpleName_stem (by decide) _⟩
  | ofMethod _ hn => exact ⟨"method", _, _, by simp [counters], hn, simpleName_stem (by decide) _⟩

/-- The next number of a stem has not been given. -/
theorem Issued.simpleName_ne (h : a.Issued key name) {stem : String} {k : Nat}
    (hk : (stem, k) ∈ a.counters) : simpleName name ≠ stem ++ toString (k + 1) := by
  obtain ⟨stem', k', n, hk', hn, hname⟩ := h.exists_simpleName
  rw [hname, Ne, numbered_eq_iff (stem_mem_of_counters hk') (stem_mem_of_counters hk)]
  rintro ⟨rfl, rfl⟩
  have hcounter := counters_unique hk hk'
  omega

/-- What was given stays given. -/
theorem Issued.mono (h : a.Issued key name) (hclass : a.classCounter ≤ b.classCounter)
    (hfield : a.fieldCounter ≤ b.fieldCounter) (hmethod : a.methodCounter ≤ b.methodCounter) :
    b.Issued key name := by
  cases h with
  | ofClass hkey hpackage hn => exact .ofClass hkey hpackage (hn.trans hclass)
  | ofField hkey hn => exact .ofField hkey (hn.trans hfield)
  | ofMethod hkey hn => exact .ofMethod hkey (hn.trans hmethod)

/-- An entry with a number that has not been given. -/
theorem Numbered.put (ha : a.Numbered)
    (htable : b.table = a.table.put key (.rename name))
    (hissued : ∀ key name, a.Issued key name → b.Issued key name) (hnew : b.Issued key name)
    (hfresh : ∀ key' name', a.Issued key' name' → simpleName name' ≠ simpleName name) :
    b.Numbered where
  issued k mapping hget := by
    rw [htable, Table.get?_put] at hget
    split at hget
    · next hk =>
      cases hget
      exact ⟨name, rfl, hk ▸ hnew⟩
    · obtain ⟨old, rfl, hold⟩ := ha.issued k mapping hget
      exact ⟨old, rfl, hissued k old hold⟩
  distinct k k' mapping mapping' hget hget' hname := by
    -- The new entry has a number that no entry had.
    have hold : ∀ k mapping, a.table.get? k = some mapping → simpleName mapping.name ≠ simpleName name := by
      intro k mapping hget
      obtain ⟨old, rfl, hold⟩ := ha.issued k mapping hget
      exact hfresh k old hold
    rw [htable, Table.get?_put] at hget hget'
    split at hget <;> split at hget'
    · next hk hk' => rw [hk, hk']
    · cases hget
      exact absurd hname.symm (hold k' mapping' hget')
    · cases hget'
      exact absurd hname (hold k mapping hget)
    · exact ha.distinct k k' mapping mapping' hget hget' hname

end Assignment

end Naming

end Unscramble
