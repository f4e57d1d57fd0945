import Unscramble.Binary.Annotations
import Unscramble.Proofs.Binary.Writing

/-! # Annotations are read back

The annotations of a declaration are read back with the visible ones first. Whether a nested
annotation can be seen is not written: it is read back as visible as the one around it.

Main definitions: `Element.shown`, `Annotation.shown`, `Element.Encodable`, `visibleFirst`. Main
statements: `yields_elementBytes`, `yields_annotationParts`. -/

namespace Unscramble

mutual

/-- A value with every annotation inside it as visible as told. -/
def Element.shown (visible : Bool) : Element → Element
  | .const tag value => .const tag value
  | .enum typeName constName => .enum typeName constName
  | .ofClass descriptor => .ofClass descriptor
  | .nested descriptor _ values => .nested descriptor visible (Element.namedShown visible values)
  | .array values => .array (Element.allShown visible values)

/-- Values with every annotation inside them as visible as told. -/
def Element.allShown (visible : Bool) : List Element → List Element
  | [] => []
  | e :: rest => e.shown visible :: Element.allShown visible rest

/-- Named values with every annotation inside them as visible as told. -/
def Element.namedShown (visible : Bool) : List (String × Element) → List (String × Element)
  | [] => []
  | v :: rest => (v.1, v.2.shown visible) :: Element.namedShown visible rest

end

/-- The elements of an array are shown one by one. -/
theorem Element.allShown_eq_map (visible : Bool) (values : List Element) :
    Element.allShown visible values = values.map (Element.shown visible) := by
  induction values with
  | nil => rfl
  | cons e rest ih => rw [Element.allShown, ih, List.map_cons]

/-- The named elements of an annotation are shown one by one. -/
theorem Element.namedShown_eq_map (visible : Bool) (values : List (String × Element)) :
    Element.namedShown visible values = values.map fun v => (v.1, v.2.shown visible) := by
  induction values with
  | nil => rfl
  | cons v rest ih => rw [Element.namedShown, ih, List.map_cons]

/-- An annotation with every annotation inside it as visible as itself. -/
def Annotation.shown (a : Annotation) : Annotation :=
  { a with values := Element.namedShown a.visible a.values }

/-- A tag describes a constant: a text has a tag of its own. -/
def Binary.TagFits (tag : UInt8) (value : Constant) : Prop :=
  (tag = 's'.toUInt8 ∧ ∃ text, value = .string text) ∨
    Char.ofNat tag.toNat ∈ primitiveTags ∧ Pool.FitsHandle value

/-- A value whose tags fit and whose counts have 16 bits. -/
inductive Element.Encodable : Element → Prop
  /-- A constant behind its tag. -/
  | const {tag : UInt8} {value : Constant} (h : Binary.TagFits tag value) :
      Element.Encodable (.const tag value)
  /-- A constant of an enumeration. -/
  | enum (typeName constName : String) : Element.Encodable (.enum typeName constName)
  /-- A class. -/
  | ofClass (descriptor : String) : Element.Encodable (.ofClass descriptor)
  /-- An annotation with values that can be written. -/
  | nested {descriptor : String} {visible : Bool} {values : List (String × Element)}
      (hn : values.length ≤ 65535) (h : ∀ v ∈ values, Element.Encodable v.2) :
      Element.Encodable (.nested descriptor visible values)
  /-- A list of values that can be written. -/
  | array {values : List Element} (hn : values.length ≤ 65535)
      (h : ∀ v ∈ values, Element.Encodable v) : Element.Encodable (.array values)

/-- An annotation with values that can be written. -/
structure Annotation.Encodable (a : Annotation) : Prop where
  /-- The count of the values has 16 bits. -/
  length : a.values.length ≤ 65535
  /-- The values can be written. -/
  values : ∀ v ∈ a.values, v.2.Encodable

namespace Binary

open Reader

variable {base : Pool}

/-! ### Values -/

/-- Values one after the other are written one by one. -/
theorem elementsBytes_eq (values : List Element) :
    elementsBytes values = do return (← values.mapM elementBytes).flatten := by
  induction values with
  | nil => simp [elementsBytes]
  | cons e rest ih => simp [elementsBytes, ih]

/-- The bytes of a name and its value. -/
def namedElementBytes (v : String × Element) : PoolM Bytes := do
  let i ← Pool.utf8 v.1
  return word16 i ++ (← elementBytes v.2)

/-- Named values one after the other are written one by one. -/
theorem namedBytes_eq (values : List (String × Element)) :
    namedBytes values = do return (← values.mapM namedElementBytes).flatten := by
  induction values with
  | nil => simp [namedBytes]
  | cons v rest ih => simp [namedBytes, namedElementBytes, ih]

/-- Some bytes are read as a value whenever the nesting that is allowed for is not less than the
bytes are many. -/
def ElementReads (q : Pool) (e : Element) (bs : Bytes) : Prop :=
  ∀ visible depth, bs.length ≤ depth → Reads (readElement q visible depth) bs (e.shown visible)

/-- Items are read one after the other as what they are turned into. -/
theorem forall₂_reads_map {α β : Type} {items : List α} {chunks : List Bytes} {read : Reader β}
    {f : α → β} {limit : Nat}
    (h : List.Forall₂ (fun a bs => bs.length ≤ limit → Reads read bs (f a)) items chunks)
    (hlimit : chunks.flatten.length ≤ limit) :
    List.Forall₂ (Reads read) chunks (items.map f) := by
  induction h with
  | nil => exact .nil
  | cons hfirst _ ih =>
    rw [List.flatten_cons, List.length_append] at hlimit
    exact .cons (hfirst (by omega)) (ih (by omega))

/-- A value is read back from behind its tag. -/
theorem elementReads_of_tag {q : Pool} {e : Element} {tag : UInt8} {bs : Bytes}
    (h : ∀ visible depth, bs.length ≤ depth → ∃ behind : UInt8 → Reader Element,
      readElement q visible (depth + 1) = (do behind (← u8)) ∧
        Reads (behind tag) bs (e.shown visible)) :
    ElementReads q e (byte tag ++ bs) := by
  intro visible depth hdepth
  cases depth with
  | zero => simp [byte] at hdepth
  | succ depth =>
    have hlength : bs.length ≤ depth := by simpa [byte] using hdepth
    obtain ⟨behind, heq, hread⟩ := h visible depth hlength
    rw [heq]
    exact (reads_u8 tag).bind hread

/-- A constant with a primitive tag is read back. -/
theorem elementReads_primitive {q : Pool} {tag : UInt8} {value : Constant} {i : UInt16}
    (htag : Char.ofNat tag.toNat ∈ primitiveTags) (hi : q.constantAt i = .ok value) :
    ElementReads q (.const tag value) (byte tag ++ word16 i) := by
  refine elementReads_of_tag fun visible depth _ => ⟨_, rfl, ?_⟩
  split
  · next h => rw [h] at htag; exact absurd htag (by decide)
  · next h => rw [h] at htag; exact absurd htag (by decide)
  · next h => rw [h] at htag; exact absurd htag (by decide)
  · next h => rw [h] at htag; exact absurd htag (by decide)
  · next h => rw [h] at htag; exact absurd htag (by decide)
  · rw [if_pos (List.contains_iff_mem.2 htag)]
    exact (reads_indexed hi).bind_pure fun c => Element.const tag c

/-- Named values behind their count are read back. -/
theorem reads_named {q : Pool} {values : List (String × Element)} {chunks : List Bytes}
    (h : List.Forall₂ (fun v bs => ∀ visible depth, bs.length ≤ depth →
      Reads (readNamed q (readElement q visible depth)) bs (v.1, v.2.shown visible)) values chunks)
    (hn : values.length ≤ 65535) (visible : Bool) {depth : Nat}
    (hdepth : chunks.flatten.length ≤ depth) :
    Reads (counted (readNamed q (readElement q visible depth)))
      (count16 values.length ++ chunks.flatten) (Element.namedShown visible values) := by
  have heach := forall₂_reads_map (h.imp fun v bs hv => hv visible depth) hdepth
  have hread := reads_counted heach (by rw [List.length_map]; exact hn)
  rw [List.length_map] at hread
  rw [Element.namedShown_eq_map]
  exact hread

/-- A name with its value is read back if the value is. -/
theorem yields_namedElementBytes {v : String × Element}
    (h : Yields base (elementBytes v.2) fun bs q => ElementReads q v.2 bs) :
    Yields base (namedElementBytes v) fun bs q => ∀ visible depth, bs.length ≤ depth →
      Reads (readNamed q (readElement q visible depth)) bs (v.1, v.2.shown visible) := by
  refine (Pool.yields_utf8 v.1).bind fun i => h.bind_pure ?_
  intro bs q hvalue hi visible depth hdepth
  have hlength : bs.length ≤ depth := by
    rw [List.length_append] at hdepth
    omega
  exact (reads_indexed hi.2).bind ((hvalue visible depth hlength).bind_pure (Prod.mk v.1))

/-- A value that is written is read back. -/
theorem yields_elementBytes {e : Element} (h : e.Encodable) :
    Yields base (elementBytes e) fun bs q => ElementReads q e bs := by
  induction h with
  | @const tag value hfits =>
    rcases hfits with ⟨rfl, text, rfl⟩ | ⟨htag, hvalue⟩
    · refine (Pool.yields_utf8 text).bind_pure ?_
      intro i q hi
      refine elementReads_of_tag fun visible depth _ => ⟨_, rfl, ?_⟩
      exact (reads_indexed hi.2).bind_pure fun s => Element.const 's'.toUInt8 (.string s)
    · -- A text is not handled apart here, because its tag would not be a primitive one.
      have hconstant : elementBytes (.const tag value) = do
          return byte tag ++ word16 (← Pool.constant value) := by
        rw [elementBytes.eq_def]
        cases value with
        | string text =>
          dsimp only
          rw [if_neg]
          intro hs
          rw [hs] at htag
          exact absurd htag (by decide)
        | _ => rfl
      rw [hconstant]
      refine (Pool.yields_constant hvalue).bind_pure ?_
      intro i q hi
      exact elementReads_primitive htag hi.2
  | enum typeName constName =>
    refine (Pool.yields_utf8 typeName).bind fun i => (Pool.yields_utf8 constName).bind_pure ?_
    intro j q hj hi
    rw [List.append_assoc]
    refine elementReads_of_tag fun visible depth _ => ⟨_, rfl, ?_⟩
    exact (reads_indexed hi.2).bind ((reads_indexed hj.2).bind_pure (Element.enum typeName))
  | ofClass descriptor =>
    refine (Pool.yields_utf8 descriptor).bind_pure ?_
    intro i q hi
    refine elementReads_of_tag fun visible depth _ => ⟨_, rfl, ?_⟩
    exact (reads_indexed hi.2).bind_pure Element.ofClass
  | @nested descriptor visible₀ values hn _ ih =>
    rw [elementBytes, namedBytes_eq]
    refine (Pool.yields_utf8 descriptor).bind fun i => ?_
    rw [bind_assoc]
    refine (yields_mapM fun v hv => yields_namedElementBytes (ih v hv)).bind_pure ?_
    intro chunks q hchunks hi
    rw [List.append_assoc, List.append_assoc]
    refine elementReads_of_tag fun visible depth hdepth => ⟨_, rfl, ?_⟩
    have hlength : chunks.flatten.length ≤ depth := by
      simp only [List.length_append] at hdepth
      omega
    refine (reads_indexed hi.2).bind ?_
    exact (reads_named hchunks hn visible hlength).bind_pure (Element.nested descriptor visible)
  | @array values hn _ ih =>
    rw [elementBytes, elementsBytes_eq, bind_assoc]
    refine (yields_mapM ih).bind_pure ?_
    intro chunks q hchunks
    rw [List.append_assoc]
    refine elementReads_of_tag fun visible depth hdepth => ⟨_, rfl, ?_⟩
    have hlength : chunks.flatten.length ≤ depth := by
      simp only [List.length_append] at hdepth
      omega
    have heach := forall₂_reads_map (hchunks.imp fun v bs hv => hv visible depth) hlength
    have hread := reads_counted heach (by rw [List.length_map]; exact hn)
    rw [List.length_map] at hread
    rw [Element.shown, Element.allShown_eq_map]
    exact hread.bind_pure Element.array

/-! ### Annotations -/

/-- An annotation that is written is read back. -/
theorem yields_annotationBytes {a : Annotation} (h : a.Encodable) :
    Yields base (annotationBytes a) fun bs q => ∀ depth, bs.length ≤ depth →
      Reads (annotationReader q a.visible depth) bs a.shown := by
  rw [annotationBytes, namedBytes_eq]
  refine (Pool.yields_utf8 a.descriptor).bind fun i => ?_
  rw [bind_assoc]
  refine (yields_mapM fun v hv =>
    yields_namedElementBytes (yields_elementBytes (h.values v hv))).bind_pure ?_
  intro chunks q hchunks hi depth hdepth
  rw [List.append_assoc] at hdepth ⊢
  have hlength : chunks.flatten.length ≤ depth := by
    simp only [List.length_append] at hdepth
    omega
  refine (reads_indexed hi.2).bind ?_
  exact (reads_named hchunks h.length a.visible hlength).bind_pure
    fun values => (⟨a.descriptor, a.visible, values⟩ : Annotation)

/-- The annotations of one kind are read back from the contents of their part. -/
theorem yields_countedAnnotations {group : List Annotation} {visible : Bool}
    (hvisible : ∀ a ∈ group, a.visible = visible) (h : ∀ a ∈ group, a.Encodable)
    (hn : group.length ≤ 65535) :
    Yields base (countedBytes group annotationBytes) fun data q =>
      readAnnotations q visible data = .ok (group.map Annotation.shown) := by
  have heach : ∀ a ∈ group, Yields base (annotationBytes a) fun bs q => ∀ depth,
      bs.length ≤ depth → Reads (annotationReader q visible depth) bs a.shown := by
    intro a ha
    rw [← hvisible a ha]
    exact yields_annotationBytes (h a ha)
  refine (yields_countedBytes heach).mono ?_
  rintro data q ⟨chunks, rfl, hchunks⟩
  have hlimit : chunks.flatten.length ≤ (count16 group.length ++ chunks.flatten).length + 1 := by
    rw [List.length_append]
    omega
  have hreads := forall₂_reads_map (hchunks.imp fun a bs ha => ha _) hlimit
  have hread := reads_counted hreads (by rw [List.length_map]; exact hn)
  rw [List.length_map] at hread
  exact on_eq_ok_of_reads hread

/-- Some parts hold annotations. -/
def Annotates (q : Pool) (parts : List Attribute) (annotations : List Annotation) : Prop :=
  ∃ lists, annotations = List.flatten lists ∧ List.Forall₂ (fun (part : Attribute) list =>
    (part.name = visibleAnnotations ∨ part.name = invisibleAnnotations) ∧
      annotationsOf q part = .ok list) parts lists

/-- Parts with annotations side by side hold the annotations of both. -/
theorem Annotates.append {q : Pool} {parts parts' : List Attribute}
    {annotations annotations' : List Annotation} (h : Annotates q parts annotations)
    (h' : Annotates q parts' annotations') :
    Annotates q (parts ++ parts') (annotations ++ annotations') := by
  obtain ⟨lists, rfl, hlists⟩ := h
  obtain ⟨lists', rfl, hlists'⟩ := h'
  exact ⟨lists ++ lists', by simp, List.rel_append hlists hlists'⟩

/-- How many parts the annotations of one kind take. -/
def partsOf (group : List Annotation) : Nat :=
  if group.isEmpty then 0 else 1

/-- The part with the annotations of one kind. -/
theorem yields_annotationPart {group : List Annotation} {name : String} (visible : Bool)
    (hname : name = if visible then visibleAnnotations else invisibleAnnotations)
    (hvisible : ∀ a ∈ group, a.visible = visible) (h : ∀ a ∈ group, a.Encodable)
    (hn : group.length ≤ 65535) :
    Yields base (annotationPart name group) fun chunks q => ∃ parts,
      List.Forall₂ (Carries q) chunks parts ∧ parts.length = partsOf group ∧
        Annotates q parts (group.map Annotation.shown) := by
  rw [annotationPart, partsOf]
  split
  · next hempty =>
    rw [List.isEmpty_iff.1 hempty]
    exact yields_pure fun q => ⟨[], .nil, rfl, [], rfl, .nil⟩
  · refine (yields_part (yields_countedAnnotations hvisible h hn) name).mono ?_
    rintro chunks q ⟨data, hdata, hchunks⟩
    refine ⟨_, hchunks, rfl, [group.map Annotation.shown], by simp, .cons ⟨?_, ?_⟩ .nil⟩
    · rw [hname]
      cases visible <;> simp
    · rw [annotationsOf, hname, ← hdata]
      cases visible <;> rfl

/-- The annotations of a declaration in the order in which they are written. -/
def visibleFirst (annotations : List Annotation) : List Annotation :=
  annotations.filter (·.visible) ++ annotations.filter fun a => !a.visible

/-- Annotations that can be written. -/
structure AnnotationsFit (annotations : List Annotation) : Prop where
  /-- Each of them can be written. -/
  encodable : ∀ a ∈ annotations, a.Encodable
  /-- The count of the visible ones has 16 bits. -/
  visible : (annotations.filter (·.visible)).length ≤ 65535
  /-- The count of the others has 16 bits. -/
  others : (annotations.filter fun a => !a.visible).length ≤ 65535

/-- How many parts the annotations of a declaration take. -/
def annotationPartCount (annotations : List Annotation) : Nat :=
  partsOf (annotations.filter (·.visible)) + partsOf (annotations.filter fun a => !a.visible)

/-- The annotations of a declaration are read back, the visible ones first. -/
theorem yields_annotationParts {annotations : List Annotation} (h : AnnotationsFit annotations) :
    Yields base (annotationParts annotations) fun chunks q => ∃ parts,
      List.Forall₂ (Carries q) chunks parts ∧ parts.length = annotationPartCount annotations ∧
        Annotates q parts ((visibleFirst annotations).map Annotation.shown) := by
  refine (yields_annotationPart true rfl (by simp) ?_ h.visible).bind fun first => ?_
  · intro a ha
    exact h.encodable a (List.mem_of_mem_filter ha)
  refine (yields_annotationPart false rfl (by simp) ?_ h.others).bind_pure ?_
  · intro a ha
    exact h.encodable a (List.mem_of_mem_filter ha)
  rintro second q ⟨parts', hchunks', hlength', hparts'⟩ ⟨parts, hchunks, hlength, hparts⟩
  refine ⟨parts ++ parts', List.rel_append hchunks hchunks', ?_, ?_⟩
  · rw [List.length_append, hlength, hlength', annotationPartCount]
  · rw [visibleFirst, List.map_append]
    exact hparts.append hparts'

end Binary

end Unscramble
