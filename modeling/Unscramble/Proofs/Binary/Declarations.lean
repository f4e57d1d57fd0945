import Unscramble.Binary.ClassFile
import Unscramble.Proofs.Binary.Annotations
import Unscramble.Proofs.Binary.Body

/-! # Declarations are read back

Fields and methods are read back with the same values, exceptions, parts and bodies. What several
parts of a declaration say is added up, so a declaration is read back if each of its parts is.

Main definitions: `FieldFits`, `MethodFits`, `rereadField`, `SameMethod`. Main statements:
`writes_fieldBytes`, `writes_methodBytes`. -/

namespace Unscramble.Binary.ClassFile

open Reader

variable {base : Pool}

/-! ### Parts of a declaration -/

/-- What several parts say is added up. -/
theorem foldlM_parts {α β : Type} (step : α → Attribute → Except Malformation α)
    (add : α → List β → α) (hnil : ∀ a, add a [] = a)
    (hadd : ∀ a xs ys, add (add a xs) ys = add a (xs ++ ys)) {parts : List Attribute}
    {lists : List (List β)}
    (h : List.Forall₂ (fun part list => ∀ a, step a part = .ok (add a list)) parts lists) (a : α) :
    parts.foldlM step a = .ok (add a lists.flatten) := by
  induction h generalizing a with
  | nil =>
    rw [List.flatten_nil, hnil]
    rfl
  | @cons part list parts lists hfirst _ ih =>
    rw [List.foldlM_cons, hfirst a]
    refine (ih (add a list)).trans ?_
    rw [hadd, List.flatten_cons]

/-- Parts that hold annotations add them. -/
theorem foldlM_annotations {α : Type} {q : Pool} (step : α → Attribute → Except Malformation α)
    (add : α → List Annotation → α) (hnil : ∀ a, add a [] = a)
    (hadd : ∀ a xs ys, add (add a xs) ys = add a (xs ++ ys)) {parts : List Attribute}
    {annotations : List Annotation} (h : Annotates q parts annotations)
    (hstep : ∀ a part list, holdsAnnotations part = true → annotationsOf q part = .ok list →
      step a part = .ok (add a list)) (a : α) :
    parts.foldlM step a = .ok (add a annotations) := by
  obtain ⟨lists, rfl, hlists⟩ := h
  refine foldlM_parts step add hnil hadd (hlists.imp ?_) a
  rintro part list ⟨hname, hlist⟩ a
  refine hstep a part list ?_ hlist
  rcases hname with hname | hname <;> simp [holdsAnnotations, hname]

/-- Parts that are not understood are carried along. -/
theorem foldlM_carried {α : Type} (step : α → Attribute → Except Malformation α)
    (add : α → List Attribute → α) (hnil : ∀ a, add a [] = a)
    (hadd : ∀ a xs ys, add (add a xs) ys = add a (xs ++ ys)) {attributes : List Attribute}
    (hstep : ∀ part ∈ attributes, ∀ a, step a part = .ok (add a [part])) (a : α) :
    attributes.foldlM step a = .ok (add a attributes) := by
  have hlists : List.Forall₂ (fun part list => ∀ a, step a part = .ok (add a list)) attributes
      (attributes.map fun part => [part]) := by
    rw [List.forall₂_map_right_iff, List.forall₂_same]
    exact hstep
  have hflatten : (attributes.map fun part => [part]).flatten = attributes := by
    rw [← List.flatMap_def, List.flatMap_singleton']
  have hfold := foldlM_parts step add hnil hadd hlists a
  rw [hflatten] at hfold
  exact hfold

/-- The names of the parts with annotations. -/
def annotationNames : List String := [visibleAnnotations, invisibleAnnotations]

/-- A declaration is read as its flags, its name, its descriptor and its parts. -/
theorem reads_declaration {α : Type} {q : Pool} {make : UInt16 → String → String → α}
    {step : α → Attribute → Except Malformation α} {r : Reader α}
    (hr : r = do
      let access ← u16
      let name ← indexed q.utf8At
      let descriptor ← indexed q.utf8At
      let parts ← readAttributes q
      require (parts.foldlM step (make access name descriptor)))
    {access i j : UInt16} {name descriptor : String} {chunks : List Bytes}
    {parts : List Attribute} {a : α} (hname : q.utf8At i = .ok name)
    (hdescriptor : q.utf8At j = .ok descriptor) (hchunks : List.Forall₂ (Carries q) chunks parts)
    (hn : parts.length ≤ 65535) (hshort : Short (partTable chunks))
    (ha : parts.foldlM step (make access name descriptor) = .ok a) :
    Reads r (word16 access ++ word16 i ++ word16 j ++ partTable chunks) a := by
  rw [hr, List.append_assoc, List.append_assoc]
  refine (reads_u16 access).bind ((reads_indexed hname).bind ((reads_indexed hdescriptor).bind ?_))
  exact (reads_partTable hchunks hn hshort).bind_nil (reads_require ha)

/-! ### Fields -/

/-- How many parts a field is written with. -/
def fieldPartCount (f : Field) : Nat :=
  f.value.toList.length + annotationPartCount f.annotations + f.attributes.length

/-- A field that can be written. -/
structure FieldFits (f : Field) : Prop where
  /-- The value can be written. -/
  value : ∀ c ∈ f.value, Pool.FitsHandle c
  /-- The annotations can be written. -/
  annotations : AnnotationsFit f.annotations
  /-- The count of the parts has 16 bits. -/
  parts : fieldPartCount f ≤ 65535
  /-- The parts that are carried along are not those that a reader understands. -/
  names : ∀ a ∈ f.attributes, a.name ∉ "ConstantValue" :: annotationNames

/-- A field as it is read back: visible annotations come first. -/
def rereadField (owner : String) (f : Field) : Field :=
  { f with owner, annotations := (visibleFirst f.annotations).map Annotation.shown }

/-- A part that is carried along holds no annotations. -/
theorem holdsAnnotations_eq_false {a : Attribute} (h : a.name ∉ annotationNames) :
    holdsAnnotations a = false := by
  simpa [annotationNames, holdsAnnotations] using h

/-- The part with the value of a field, if it has one. -/
def valuePart : Option Constant → PoolM (List Bytes)
  | none => pure []
  | some c => part "ConstantValue" (word16 <$> Pool.constant c)

/-- A field is written as its flags, its name, its descriptor and its attributes. -/
theorem fieldBytes_eq (f : Field) : fieldBytes f = do
    let name ← Pool.utf8 f.name
    let descriptor ← Pool.utf8 f.descriptor
    let value ← valuePart f.value
    let annotations ← annotationParts f.annotations
    let carried ← carriedParts f.attributes
    return word16 f.access.bits ++ word16 name ++ word16 descriptor ++
      partTable (value ++ annotations ++ carried) := by
  rw [fieldBytes]
  cases f.value <;> rfl

/-- The value of a field is read back. -/
theorem yields_valuePart {value : Option Constant} (h : ∀ c ∈ value, Pool.FitsHandle c) :
    Yields base (valuePart value) fun chunks q => ∃ parts,
      List.Forall₂ (Carries q) chunks parts ∧ parts.length = value.toList.length ∧
        ∀ f : Field, f.value = none →
          parts.foldlM (addFieldPart q) f = .ok { f with value := value } := by
  cases value with
  | none =>
    refine yields_pure fun q => ⟨[], .nil, rfl, fun f hf => ?_⟩
    rw [← hf]
    rfl
  | some c =>
    have hdata : Yields base (word16 <$> Pool.constant c) fun data q =>
        (indexed q.constantAt).on data = .ok c := by
      refine (Pool.yields_constant (h c rfl)).map ?_
      intro i q hi
      exact on_eq_ok_of_reads (reads_indexed hi.2)
    refine (yields_part hdata "ConstantValue").mono ?_
    rintro chunks q ⟨data, hread, hchunks⟩
    refine ⟨_, hchunks, rfl, fun f _ => ?_⟩
    have hstep : addFieldPart q f ⟨"ConstantValue", data⟩ = .ok { f with value := some c } := by
      rw [addFieldPart, if_pos (beq_self_eq_true _)]
      exact exceptBind_eq_ok_iff.2 ⟨c, hread, rfl⟩
    rw [List.foldlM_cons, hstep]
    rfl

/-- Annotations are added to those of a field. -/
theorem addFieldPart_annotations {q : Pool} {f : Field} {part : Attribute}
    {list : List Annotation} (hpart : holdsAnnotations part = true)
    (hlist : annotationsOf q part = .ok list) :
    addFieldPart q f part = .ok { f with annotations := f.annotations ++ list } := by
  have hname : ¬(part.name == "ConstantValue") = true := by
    intro hname
    rw [holdsAnnotations, beq_iff_eq.1 hname] at hpart
    exact absurd hpart (by decide)
  rw [addFieldPart, if_neg hname, if_pos hpart]
  exact exceptBind_eq_ok_iff.2 ⟨list, hlist, rfl⟩

/-- A part that is not understood is carried along by a field. -/
theorem addFieldPart_carried {q : Pool} {f : Field} {part : Attribute}
    (h : part.name ∉ "ConstantValue" :: annotationNames) :
    addFieldPart q f part = .ok { f with attributes := f.attributes ++ [part] } := by
  rw [List.mem_cons, not_or] at h
  rw [addFieldPart, if_neg (by simpa using h.1), holdsAnnotations_eq_false h.2]
  rfl

/-- A field is read back. -/
theorem writes_fieldBytes {f : Field} (h : FieldFits f) (owner : String) :
    Writes base (fieldBytes f) (fun q => readField q owner) (· = rereadField owner f) := by
  rw [fieldBytes_eq]
  refine (Pool.yields_utf8 f.name).bind fun i => (Pool.yields_utf8 f.descriptor).bind fun j => ?_
  refine (yields_valuePart h.value).bind fun valueChunks => ?_
  refine (yields_annotationParts h.annotations).bind fun annotationChunks => ?_
  refine (yields_carriedParts f.attributes).bind_pure ?_
  rintro carried q hcarried ⟨annotated, hannotated, hcount, hannotates⟩
    ⟨valued, hvalued, hcount', hvalue⟩ hj hi hshort
  refine ⟨_, rfl, reads_declaration rfl hi.2 hj.2
    (List.rel_append (List.rel_append hvalued hannotated) hcarried) ?_ hshort.right ?_⟩
  · have hparts := h.parts
    rw [fieldPartCount] at hparts
    rw [List.length_append, List.length_append, hcount, hcount']
    exact hparts
  · rw [List.foldlM_append, List.foldlM_append, hvalue _ rfl]
    refine exceptBind_eq_ok_iff.2 ⟨_, foldlM_annotations (addFieldPart q)
      (fun (f : Field) xs => { f with annotations := f.annotations ++ xs }) (by simp) (by simp)
      hannotates (fun f part list => addFieldPart_annotations) _, ?_⟩
    exact foldlM_carried (addFieldPart q)
      (fun (f : Field) xs => { f with attributes := f.attributes ++ xs }) (by simp) (by simp)
      (fun part hpart f => addFieldPart_carried (h.names part hpart)) _

/-! ### Lists of a declaration -/

/-- The part with a list, if it is not empty. -/
def listPart {α : Type} (name : String) (items : List α) (encode : α → PoolM Bytes) :
    PoolM (List Bytes) :=
  if items.isEmpty then pure [] else part name (countedBytes items encode)

/-- How many parts a list takes. -/
def listPartCount {α : Type} (items : List α) : Nat :=
  if items.isEmpty then 0 else 1

/-- The contents of parts are short if all of them together are. -/
theorem short_data {q : Pool} {chunks : List Bytes} {parts : List Attribute}
    (h : List.Forall₂ (Carries q) chunks parts) (hshort : Short chunks.flatten) :
    ∀ part ∈ parts, Short part.data := by
  intro part hpart
  obtain ⟨chunk, hchunk, i, -, rfl⟩ := exists_of_mem_right h hpart
  exact (hshort.of_mem_flatten hchunk).right

/-- A list is read back from its part. -/
theorem yields_listPart {α β : Type} {items : List α} {encode : α → PoolM Bytes}
    {read : Pool → Reader β} {good : α → β → Prop} (name : String)
    (h : ∀ a ∈ items, Writes base (encode a) read (good a)) (hn : items.length ≤ 65535) :
    Yields base (listPart name items encode) fun chunks q => ∃ parts,
      List.Forall₂ (Carries q) chunks parts ∧ parts.length = listPartCount items ∧
        ((∀ part ∈ parts, Short part.data) → ∃ lists, List.Forall₂ good items lists.flatten ∧
          List.Forall₂ (fun (part : Attribute) list => part.name = name ∧
            (counted (read q)).on part.data = .ok list) parts lists) := by
  rw [listPart, listPartCount]
  split
  · next hempty =>
    rw [List.isEmpty_iff.1 hempty]
    exact yields_pure fun q => ⟨[], .nil, rfl, fun _ => ⟨[], .nil, .nil⟩⟩
  · refine (yields_part (Writes.counted h hn) name).mono ?_
    rintro chunks q ⟨data, hread, hchunks⟩
    refine ⟨_, hchunks, rfl, fun hshort => ?_⟩
    obtain ⟨values, hgood, hvalues⟩ := hread (hshort _ List.mem_cons_self)
    refine ⟨[values], ?_, .cons ⟨rfl, on_eq_ok_of_reads hvalues⟩ .nil⟩
    simpa using hgood

/-! ### Methods -/

/-- How many parts a method is written with. -/
def methodPartCount (m : Method) : Nat :=
  m.body.toList.length + listPartCount m.exceptions + annotationPartCount m.annotations +
    m.attributes.length

/-- A method that can be written above a given pool. -/
structure MethodFits (base : Pool) (m : Method) : Prop where
  /-- The body can be written. -/
  body : ∀ b ∈ m.body, BodyFits base b
  /-- The count of the exceptions has 16 bits. -/
  exceptions : m.exceptions.length ≤ 65535
  /-- The annotations can be written. -/
  annotations : AnnotationsFit m.annotations
  /-- The count of the parts has 16 bits. -/
  parts : methodPartCount m ≤ 65535
  /-- The parts that are carried along are not those that a reader understands. -/
  names : ∀ a ∈ m.attributes, a.name ∉ "Code" :: "Exceptions" :: annotationNames

/-- A method says the same as another one, with visible annotations first. -/
structure SameMethod (owner : String) (m m' : Method) : Prop where
  /-- The class that declares it is the one it was found in. -/
  owner : m'.owner = owner
  /-- The name is the same. -/
  name : m'.name = m.name
  /-- The types are the same. -/
  descriptor : m'.descriptor = m.descriptor
  /-- The flags are the same. -/
  access : m'.access = m.access
  /-- The body says the same. -/
  body : Option.Rel SameBody m.body m'.body
  /-- The declared exceptions are the same. -/
  exceptions : m'.exceptions = m.exceptions
  /-- The annotations are the same. -/
  annotations : m'.annotations = (visibleFirst m.annotations).map Annotation.shown
  /-- The same parts are carried along. -/
  attributes : m'.attributes = m.attributes

/-- The part with the body of a method, if it has one. -/
def codePart (method : String) : Option Body → PoolM (List Bytes)
  | none => pure []
  | some b => part "Code" (bodyBytes method b)

/-- A method is written as its flags, its name, its descriptor and its attributes. -/
theorem methodBytes_eq (m : Method) : methodBytes m = do
    let name ← Pool.utf8 m.name
    let descriptor ← Pool.utf8 m.descriptor
    let code ← codePart m.text m.body
    let exceptions ← listPart "Exceptions" m.exceptions fun e => word16 <$> Pool.ofClass e
    let annotations ← annotationParts m.annotations
    let carried ← carriedParts m.attributes
    return word16 m.access.bits ++ word16 name ++ word16 descriptor ++
      partTable (code ++ exceptions ++ annotations ++ carried) := by
  rw [methodBytes]
  cases m.body <;> cases m.exceptions <;> rfl

/-- The body of a method is read back. -/
theorem yields_codePart {body : Option Body} (h : ∀ b ∈ body, BodyFits base b) (method : String) :
    Yields base (codePart method body) fun chunks q => ∃ parts,
      List.Forall₂ (Carries q) chunks parts ∧ parts.length = body.toList.length ∧
        ((∀ part ∈ parts, Short part.data) → ∃ body', Option.Rel SameBody body body' ∧
          ∀ m : Method, m.body = none →
            parts.foldlM (addMethodPart q) m = .ok { m with body := body' }) := by
  cases body with
  | none =>
    refine yields_pure fun q => ⟨[], .nil, rfl, fun _ => ⟨none, .none, fun m hm => ?_⟩⟩
    rw [← hm]
    rfl
  | some b =>
    refine (yields_part (writes_bodyBytes (h b rfl) method) "Code").mono ?_
    rintro chunks q ⟨data, hread, hchunks⟩
    refine ⟨_, hchunks, rfl, fun hshort => ?_⟩
    obtain ⟨b', hsame, hb'⟩ := hread (hshort _ List.mem_cons_self)
    refine ⟨some b', .some hsame, fun m _ => ?_⟩
    have hstep : addMethodPart q m ⟨"Code", data⟩ = .ok { m with body := some b' } := by
      rw [addMethodPart, if_pos (beq_self_eq_true _)]
      exact exceptBind_eq_ok_iff.2 ⟨b', on_eq_ok_of_reads hb', rfl⟩
    rw [List.foldlM_cons, hstep]
    rfl

/-- Exceptions are added to those of a method. -/
theorem addMethodPart_exceptions {q : Pool} {m : Method} {part : Attribute} {list : List String}
    (hname : part.name = "Exceptions")
    (hlist : (counted (indexed q.classAt)).on part.data = .ok list) :
    addMethodPart q m part = .ok { m with exceptions := m.exceptions ++ list } := by
  rw [addMethodPart, hname]
  exact exceptBind_eq_ok_iff.2 ⟨list, hlist, rfl⟩

/-- Annotations are added to those of a method. -/
theorem addMethodPart_annotations {q : Pool} {m : Method} {part : Attribute}
    {list : List Annotation} (hpart : holdsAnnotations part = true)
    (hlist : annotationsOf q part = .ok list) :
    addMethodPart q m part = .ok { m with annotations := m.annotations ++ list } := by
  have hcode : ¬(part.name == "Code") = true := by
    intro hname
    rw [holdsAnnotations, beq_iff_eq.1 hname] at hpart
    exact absurd hpart (by decide)
  have hexceptions : ¬(part.name == "Exceptions") = true := by
    intro hname
    rw [holdsAnnotations, beq_iff_eq.1 hname] at hpart
    exact absurd hpart (by decide)
  rw [addMethodPart, if_neg hcode, if_neg hexceptions, if_pos hpart]
  exact exceptBind_eq_ok_iff.2 ⟨list, hlist, rfl⟩

/-- A part that is not understood is carried along by a method. -/
theorem addMethodPart_carried {q : Pool} {m : Method} {part : Attribute}
    (h : part.name ∉ "Code" :: "Exceptions" :: annotationNames) :
    addMethodPart q m part = .ok { m with attributes := m.attributes ++ [part] } := by
  rw [List.mem_cons, not_or, List.mem_cons, not_or] at h
  rw [addMethodPart, if_neg (by simpa using h.1), if_neg (by simpa using h.2.1),
    holdsAnnotations_eq_false h.2.2]
  rfl

/-- A method is read back. -/
theorem writes_methodBytes {m : Method} (h : MethodFits base m) (owner : String) :
    Writes base (methodBytes m) (fun q => readMethod q owner) (SameMethod owner m) := by
  rw [methodBytes_eq]
  refine (Pool.yields_utf8 m.name).bind fun i => (Pool.yields_utf8 m.descriptor).bind fun j => ?_
  refine (yields_codePart h.body m.text).bind fun codeChunks => ?_
  refine (yields_listPart "Exceptions" (fun e _ => writes_index (Pool.yields_ofClass e))
    h.exceptions).bind fun exceptionChunks => ?_
  refine (yields_annotationParts h.annotations).bind fun annotationChunks => ?_
  refine (yields_carriedParts m.attributes).bind_pure ?_
  -- The parts come back in reverse, the last group written first.
  rintro carried q hcarried ⟨annotated, hannotated, hcount, hannotates⟩
    ⟨thrown, hthrown, hcount', hexceptions⟩ ⟨coded, hcoded, hcount'', hbody⟩ hj hi hshort
  have hflatten : Short (codeChunks ++ exceptionChunks ++ annotationChunks ++ carried).flatten :=
    hshort.right.right
  rw [List.flatten_append, List.flatten_append, List.flatten_append] at hflatten
  obtain ⟨body', hsame, hfoldBody⟩ := hbody (short_data hcoded hflatten.left.left.left)
  obtain ⟨lists, hlists, hparts⟩ := hexceptions (short_data hthrown hflatten.left.left.right)
  have hthrows := eq_of_forall₂ hlists
  refine ⟨⟨owner, m.name, m.descriptor, m.access, body', m.exceptions,
    (visibleFirst m.annotations).map Annotation.shown, m.attributes⟩,
    ⟨rfl, rfl, rfl, rfl, hsame, rfl, rfl, rfl⟩, reads_declaration rfl hi.2 hj.2
      (List.rel_append (List.rel_append (List.rel_append hcoded hthrown) hannotated) hcarried)
      ?_ hshort.right ?_⟩
  · have hpartCount := h.parts
    rw [methodPartCount] at hpartCount
    rw [List.length_append, List.length_append, List.length_append, hcount, hcount', hcount'']
    exact hpartCount
  -- Each group fills its own field of the method: the body, the exceptions, the annotations and the
  -- rest.
  · rw [List.foldlM_append, List.foldlM_append, List.foldlM_append, hfoldBody _ rfl]
    have hfoldExceptions := foldlM_parts (addMethodPart q)
      (fun (m : Method) xs => { m with exceptions := m.exceptions ++ xs }) (by simp) (by simp)
      (hparts.imp fun part list hpart m => addMethodPart_exceptions hpart.1 hpart.2)
    have hfoldAnnotations := foldlM_annotations (addMethodPart q)
      (fun (m : Method) xs => { m with annotations := m.annotations ++ xs }) (by simp) (by simp)
      hannotates fun m part list => addMethodPart_annotations
    have hfoldCarried := foldlM_carried (addMethodPart q)
      (fun (m : Method) xs => { m with attributes := m.attributes ++ xs }) (by simp) (by simp)
      fun part hpart m => addMethodPart_carried (h.names part hpart)
    rw [← hthrows]
    exact exceptBind_eq_ok_iff.2 ⟨_, exceptBind_eq_ok_iff.2 ⟨_, hfoldExceptions _,
      hfoldAnnotations _⟩, hfoldCarried _⟩

end Unscramble.Binary.ClassFile
