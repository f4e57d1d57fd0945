import Unscramble.Proofs.Binary.Declarations
import Unscramble.Proofs.Binary.PoolFormat
import Unscramble.Proofs.Binary.Taking

/-! # Classes are read back

Decoding undoes encoding: a class that can be written is read back with the same declarations and
the same bodies. Only what a class file does not hold is lost: which class a member says it belongs
to, whether a nested annotation can be seen by itself, and ranges that protect nothing.

Main definitions: `ClassFits`, `SameClass`. Main statement: `decode_of_encode`. -/

namespace Unscramble.Binary.ClassFile

open Reader

variable {base : Pool}

/-! ### Parts of a class -/

/-- How many parts a class is written with. -/
def classPartCount (c : Class) : Nat :=
  c.sourceFile.toList.length + listPartCount c.innerClasses + annotationPartCount c.annotations +
    c.attributes.length

/-- A class that can be written. -/
structure ClassFits (c : Class) : Prop where
  /-- The pool was read from a class file, if there is one. -/
  pool : ∀ p ∈ c.pool, ∃ bs d, decode bs = .ok d ∧ d.pool = some p
  /-- The count of the interfaces has 16 bits. -/
  interfaces : c.interfaces.length ≤ 65535
  /-- The count of the fields has 16 bits. -/
  fieldCount : c.fields.length ≤ 65535
  /-- The fields can be written. -/
  fields : ∀ f ∈ c.fields, FieldFits f
  /-- The count of the methods has 16 bits. -/
  methodCount : c.methods.length ≤ 65535
  /-- The methods can be written. -/
  methods : ∀ m ∈ c.methods, MethodFits (c.pool.getD .empty) m
  /-- The annotations can be written. -/
  annotations : AnnotationsFit c.annotations
  /-- The count of the nested classes has 16 bits. -/
  innerClasses : c.innerClasses.length ≤ 65535
  /-- The count of the parts has 16 bits. -/
  parts : classPartCount c ≤ 65535
  /-- The parts that are carried along are not those that a reader understands. -/
  names : ∀ a ∈ c.attributes, a.name ∉ "SourceFile" :: "InnerClasses" :: annotationNames

/-- A class says the same as another one, with visible annotations first. -/
structure SameClass (c c' : Class) : Prop where
  /-- The minor version is the same. -/
  minorVersion : c'.minorVersion = c.minorVersion
  /-- The major version is the same. -/
  majorVersion : c'.majorVersion = c.majorVersion
  /-- The flags are the same. -/
  access : c'.access = c.access
  /-- The name is the same. -/
  name : c'.name = c.name
  /-- The superclass is the same. -/
  superclass : c'.superclass = c.superclass
  /-- The interfaces are the same. -/
  interfaces : c'.interfaces = c.interfaces
  /-- The source file is the same. -/
  sourceFile : c'.sourceFile = c.sourceFile
  /-- The nested classes are the same. -/
  innerClasses : c'.innerClasses = c.innerClasses
  /-- The fields are the same. -/
  fields : c'.fields = c.fields.map (rereadField c.name)
  /-- The methods say the same. -/
  methods : List.Forall₂ (SameMethod c.name) c.methods c'.methods
  /-- The annotations are the same. -/
  annotations : c'.annotations = (visibleFirst c.annotations).map Annotation.shown
  /-- The same parts are carried along. -/
  attributes : c'.attributes = c.attributes

/-- The part with the name of the source file, if it is known. -/
def sourcePart : Option String → PoolM (List Bytes)
  | none => pure []
  | some name => part "SourceFile" (word16 <$> Pool.utf8 name)

/-- The attributes of a class are those that are known, and then those that are carried along. -/
theorem classParts_eq (c : Class) : classParts c = do
    let source ← sourcePart c.sourceFile
    let inner ← listPart "InnerClasses" c.innerClasses innerClassBytes
    let annotations ← annotationParts c.annotations
    let carried ← carriedParts c.attributes
    return source ++ inner ++ annotations ++ carried := by
  rw [classParts]
  cases c.sourceFile <;> cases c.innerClasses <;> rfl

/-- The name of the source file is read back. -/
theorem yields_sourcePart (sourceFile : Option String) :
    Yields base (sourcePart sourceFile) fun chunks q => ∃ parts,
      List.Forall₂ (Carries q) chunks parts ∧ parts.length = sourceFile.toList.length ∧
        ∀ c : Class, c.sourceFile = none →
          parts.foldlM (addClassPart q) c = .ok { c with sourceFile := sourceFile } := by
  cases sourceFile with
  | none =>
    refine yields_pure fun q => ⟨[], .nil, rfl, fun c hc => ?_⟩
    rw [← hc]
    rfl
  | some name =>
    have hdata : Yields base (word16 <$> Pool.utf8 name) fun data q =>
        (indexed q.utf8At).on data = .ok name := by
      refine (Pool.yields_utf8 name).map ?_
      intro i q hi
      exact on_eq_ok_of_reads (reads_indexed hi.2)
    -- The part holds the index of a name, and the pool that is read answers the name there.
    refine (yields_part hdata "SourceFile").mono ?_
    rintro chunks q ⟨data, hread, hchunks⟩
    refine ⟨_, hchunks, rfl, fun c _ => ?_⟩
    have hstep : addClassPart q c ⟨"SourceFile", data⟩ =
        .ok { c with sourceFile := some name } := by
      rw [addClassPart, if_pos (beq_self_eq_true _)]
      exact exceptBind_eq_ok_iff.2 ⟨name, hread, rfl⟩
    rw [List.foldlM_cons, hstep]
    rfl

/-- What is recorded of a nested class is read back. -/
theorem writes_innerClassBytes (i : InnerClass) :
    Writes base (innerClassBytes i) readInnerClass (· = i) := by
  refine (Pool.yields_ofClass i.inner).bind fun inner => ?_
  refine (yields_indexOrZero Pool.yields_ofClass i.outer).bind fun outer => ?_
  refine (yields_indexOrZero Pool.yields_utf8 i.name).bind_pure ?_
  intro name q hname houter hinner _
  refine ⟨i, rfl, ?_⟩
  rw [List.append_assoc, List.append_assoc]
  refine (reads_indexed hinner.2).bind (houter.bind (hname.bind ?_))
  exact (reads_u16 i.access.bits).bind_pure fun bits =>
    (⟨i.inner, i.outer, i.name, ⟨bits⟩⟩ : InnerClass)

/-- Nested classes are added to those of a class. -/
theorem addClassPart_innerClasses {q : Pool} {c : Class} {part : Attribute}
    {list : List InnerClass} (hname : part.name = "InnerClasses")
    (hlist : (counted (readInnerClass q)).on part.data = .ok list) :
    addClassPart q c part = .ok { c with innerClasses := c.innerClasses ++ list } := by
  rw [addClassPart, hname]
  exact exceptBind_eq_ok_iff.2 ⟨list, hlist, rfl⟩

/-- Annotations are added to those of a class. -/
theorem addClassPart_annotations {q : Pool} {c : Class} {part : Attribute}
    {list : List Annotation} (hpart : holdsAnnotations part = true)
    (hlist : annotationsOf q part = .ok list) :
    addClassPart q c part = .ok { c with annotations := c.annotations ++ list } := by
  have hsource : ¬(part.name == "SourceFile") = true := by
    intro hname
    rw [holdsAnnotations, beq_iff_eq.1 hname] at hpart
    exact absurd hpart (by decide)
  have hinner : ¬(part.name == "InnerClasses") = true := by
    intro hname
    rw [holdsAnnotations, beq_iff_eq.1 hname] at hpart
    exact absurd hpart (by decide)
  rw [addClassPart, if_neg hsource, if_neg hinner, if_pos hpart]
  exact exceptBind_eq_ok_iff.2 ⟨list, hlist, rfl⟩

/-- A part that is not understood is carried along by a class. -/
theorem addClassPart_carried {q : Pool} {c : Class} {part : Attribute}
    (h : part.name ∉ "SourceFile" :: "InnerClasses" :: annotationNames) :
    addClassPart q c part = .ok { c with attributes := c.attributes ++ [part] } := by
  rw [List.mem_cons, not_or, List.mem_cons, not_or] at h
  rw [addClassPart, if_neg (by simpa using h.1), if_neg (by simpa using h.2.1),
    holdsAnnotations_eq_false h.2.2]
  rfl

/-- A class that is read up to its parts. -/
def IsBare (c : Class) : Prop :=
  c.sourceFile = none ∧ c.innerClasses = [] ∧ c.annotations = [] ∧ c.attributes = []

/-- The parts of a class are read back. -/
theorem yields_classParts {c : Class} (h : ClassFits c) :
    Yields base (classParts c) fun chunks q => ∃ parts,
      List.Forall₂ (Carries q) chunks parts ∧ parts.length = classPartCount c ∧
        (Short chunks.flatten → ∀ d, IsBare d → parts.foldlM (addClassPart q) d =
          .ok { d with
            sourceFile := c.sourceFile
            innerClasses := c.innerClasses
            annotations := (visibleFirst c.annotations).map Annotation.shown
            attributes := c.attributes }) := by
  rw [classParts_eq]
  refine (yields_sourcePart c.sourceFile).bind fun sourceChunks => ?_
  refine (yields_listPart "InnerClasses" (fun i _ => writes_innerClassBytes i)
    h.innerClasses).bind fun innerChunks => ?_
  refine (yields_annotationParts h.annotations).bind fun annotationChunks => ?_
  refine (yields_carriedParts c.attributes).bind_pure ?_
  -- The hypotheses of the four groups of parts stand in reverse, the last one written first.
  rintro carried q hcarried ⟨annotated, hannotated, hcount, hannotates⟩
    ⟨nested, hnested, hcount', hinner⟩ ⟨sourced, hsourced, hcount'', hsource⟩
  refine ⟨_, List.rel_append (List.rel_append (List.rel_append hsourced hnested) hannotated)
    hcarried, ?_, ?_⟩
  · rw [List.length_append, List.length_append, List.length_append, hcount, hcount', hcount'',
      classPartCount]
  -- Reading folds over the parts; each group fills its own field of the class and leaves the
  -- others.
  · rintro hshort d ⟨hd₁, hd₂, hd₃, hd₄⟩
    rw [List.flatten_append, List.flatten_append, List.flatten_append] at hshort
    obtain ⟨lists, hlists, hparts⟩ := hinner (short_data hnested hshort.left.left.right)
    have hrecorded := eq_of_forall₂ hlists
    have hfoldInner := foldlM_parts (addClassPart q)
      (fun (c : Class) xs => { c with innerClasses := c.innerClasses ++ xs }) (by simp) (by simp)
      (hparts.imp fun part list hpart c => addClassPart_innerClasses hpart.1 hpart.2)
    have hfoldAnnotations := foldlM_annotations (addClassPart q)
      (fun (c : Class) xs => { c with annotations := c.annotations ++ xs }) (by simp) (by simp)
      hannotates fun c part list => addClassPart_annotations
    have hfoldCarried := foldlM_carried (addClassPart q)
      (fun (c : Class) xs => { c with attributes := c.attributes ++ xs }) (by simp) (by simp)
      fun part hpart c => addClassPart_carried (h.names part hpart)
    rw [List.foldlM_append, List.foldlM_append, List.foldlM_append, hsource d hd₁]
    refine exceptBind_eq_ok_iff.2 ⟨_, exceptBind_eq_ok_iff.2 ⟨_, hfoldInner _,
      hfoldAnnotations _⟩, (hfoldCarried _).trans ?_⟩
    rw [← hrecorded]
    dsimp only
    rw [hd₂, hd₃, hd₄]
    rfl

/-! ### Whole classes -/

/-- What follows the name of a class is read as the rest of it. -/
theorem reads_readRest {q : Pool} {c : Class} {superclass : UInt16} {methods : List Method}
    {interfaceBytes fieldBytes methodBytes : Bytes} {chunks : List Bytes} {parts : List Attribute}
    (hsuperclass : Reads (indexed? q.classAt) (word16 superclass) c.superclass)
    (hinterfaces : Reads (counted (indexed q.classAt)) interfaceBytes c.interfaces)
    (hfields : Reads (counted (readField q c.name)) fieldBytes
      (c.fields.map (rereadField c.name)))
    (hmethods : Reads (counted (readMethod q c.name)) methodBytes methods)
    (hchunks : List.Forall₂ (Carries q) chunks parts) (hn : parts.length ≤ 65535)
    (hshort : Short (partTable chunks)) {d : Class}
    (hparts : parts.foldlM (addClassPart q)
      { name := c.name, superclass := c.superclass, interfaces := c.interfaces, access := c.access
        fields := c.fields.map (rereadField c.name), methods
        minorVersion := c.minorVersion, majorVersion := c.majorVersion, pool := some q } = .ok d) :
    Reads (readRest ⟨c.minorVersion, c.majorVersion, q, c.access, c.name⟩)
      (word16 superclass ++ interfaceBytes ++ fieldBytes ++ methodBytes ++ partTable chunks) d := by
  simp only [List.append_assoc]
  refine hsuperclass.bind (hinterfaces.bind (hfields.bind (hmethods.bind ?_)))
  exact (reads_partTable hchunks hn hshort).bind_nil (reads_require hparts)

/-- The bytes behind the pool of a class are read back. -/
theorem yields_classBytes {c : Class} (h : ClassFits c) :
    Yields (c.pool.getD .empty) (classBytes c) fun bs q => Short bs → ∃ i rest c',
      bs = word16 c.access.bits ++ word16 i ++ rest ∧ q.classAt i = .ok c.name ∧
        Reads (readRest ⟨c.minorVersion, c.majorVersion, q, c.access, c.name⟩) rest c' ∧
        SameClass c c' := by
  refine (Pool.yields_ofClass c.name).bind fun i => ?_
  refine (yields_indexOrZero Pool.yields_ofClass c.superclass).bind fun superclass => ?_
  refine (Writes.counted (fun e _ => writes_index (Pool.yields_ofClass e)) h.interfaces).bind
    fun interfaceBytes => ?_
  refine (Writes.counted (fun f hf => writes_fieldBytes (h.fields f hf) c.name) h.fieldCount).bind
    fun fieldBytes => ?_
  refine (Writes.counted (fun m hm => writes_methodBytes (h.methods m hm) c.name)
    h.methodCount).bind fun methodBytes => ?_
  refine (yields_classParts h).bind_pure ?_
  -- From here on the pool is the one that is read, and each piece of the bytes gives back its own
  -- field.
  rintro chunks q ⟨parts, hchunks, hcount, hparts⟩ hmethods hfields hinterfaces hsuperclass hi hshort
  obtain ⟨methods, hsame, hreadMethods⟩ := hmethods hshort.left.right
  obtain ⟨fields, hfieldsEq, hreadFields⟩ := hfields hshort.left.left.right
  obtain ⟨interfaces, hinterfacesEq, hreadInterfaces⟩ := hinterfaces hshort.left.left.left.right
  rw [eq_map_of_forall₂ hfieldsEq] at hreadFields
  rw [eq_of_forall₂ hinterfacesEq] at hreadInterfaces
  have hfold := hparts hshort.right.right
    { name := c.name, superclass := c.superclass, interfaces := c.interfaces, access := c.access
      fields := c.fields.map (rereadField c.name), methods
      minorVersion := c.minorVersion, majorVersion := c.majorVersion, pool := some q }
    ⟨rfl, rfl, rfl, rfl⟩
  refine ⟨i, _, _, ?_, hi.2, reads_readRest hsuperclass hreadInterfaces hreadFields hreadMethods
    hchunks (by rw [hcount]; exact h.parts) hshort.right hfold, ?_⟩
  · simp only [List.append_assoc]
  · exact ⟨rfl, rfl, rfl, rfl, rfl, rfl, rfl, rfl, rfl, hsame, rfl, rfl⟩

/-- What stands in a class file up to the name of the class is read back. -/
theorem reads_readHeader {p q : Pool} (hpool : Reads Pool.read p.bytes q) {i : UInt16}
    {name : String} (hname : q.classAt i = .ok name) (minor major access : UInt16) :
    Reads readHeader (word32 magic ++ word16 minor ++ word16 major ++ p.bytes ++
      (word16 access ++ word16 i)) ⟨minor, major, q, ⟨access⟩, name⟩ := by
  simp only [List.append_assoc]
  refine (reads_u32 magic).bind ((reads_u16 minor).bind ((reads_u16 major).bind ?_))
  exact hpool.bind ((reads_u16 access).bind ((reads_indexed hname).bind_pure fun name =>
    (⟨minor, major, q, ⟨access⟩, name⟩ : Header)))

/-- Decoding reads a header and then the rest. -/
theorem decode_eq_ok_iff {bs : Bytes} {c : Class} :
    decode bs = .ok c ↔ ∃ h cursor cursor', readHeader ⟨bs, 0⟩ = .ok (h, cursor) ∧
      readRest h cursor = .ok (c, cursor') := by
  rw [decode]
  constructor
  · intro h
    split at h
    · cases h
    · next header cursor hheader =>
      split at h
      · cases h
      · next c' cursor' hrest =>
        cases h
        exact ⟨header, cursor, cursor', hheader, hrest⟩
  · rintro ⟨header, cursor, cursor', hheader, hrest⟩
    have hheaderRun : readHeader.run ⟨bs, 0⟩ = .ok (header, cursor) := hheader
    have hrestRun : (readRest header).run cursor = .ok (c, cursor') := hrest
    rw [hheaderRun]
    dsimp only
    rw [hrestRun]

/-- A class file with a pool of given entries is read as what follows the pool is read. -/
theorem decode_ofEntries {entries : List Entry} (hsound : ∀ e ∈ entries, Pool.isWritable e = true)
    (hnarrow : ∀ e ∈ entries, e.isWide = false) (hsize : entries.length < 65535) {i : UInt16}
    {name : String} (hname : (Pool.ofEntries entries).classAt i = .ok name)
    {minor major access : UInt16} {rest : Bytes} {c : Class}
    (hrest : ∀ n, ∃ cursor, readRest ⟨minor, major, Pool.ofEntries entries, ⟨access⟩, name⟩
      ⟨rest, n⟩ = .ok (c, cursor)) :
    decode (word32 magic ++ word16 minor ++ word16 major ++ (Pool.ofEntries entries).bytes ++
      (word16 access ++ word16 i ++ rest)) = .ok c := by
  have hheader := reads_readHeader (Pool.reads_read_ofEntries hsound hnarrow hsize) hname minor
    major access rest 0
  rw [List.append_assoc] at hheader
  obtain ⟨cursor, hcursor⟩ := hrest _
  exact decode_eq_ok_iff.2 ⟨_, _, _, hheader, hcursor⟩

/-- A part of a class changes neither its pool nor its members. -/
theorem members_of_addClassPart {q : Pool} {c c' : Class} {part : Attribute}
    (h : addClassPart q c part = .ok c') :
    c'.pool = c.pool ∧ c'.interfaces = c.interfaces ∧ c'.fields = c.fields ∧
      c'.methods = c.methods := by
  rw [addClassPart] at h
  split at h
  · obtain ⟨name, -, h⟩ := exceptBind_eq_ok_iff.1 h
    cases h
    exact ⟨rfl, rfl, rfl, rfl⟩
  · split at h
    · obtain ⟨list, -, h⟩ := exceptBind_eq_ok_iff.1 h
      cases h
      exact ⟨rfl, rfl, rfl, rfl⟩
    · split at h
      · obtain ⟨list, -, h⟩ := exceptBind_eq_ok_iff.1 h
        cases h
        exact ⟨rfl, rfl, rfl, rfl⟩
      · cases h
        exact ⟨rfl, rfl, rfl, rfl⟩

/-- Reading attributes leaves pool, interfaces and members. -/
theorem members_of_foldlM_addClassPart {q : Pool} {c c' : Class} {parts : List Attribute}
    (h : parts.foldlM (addClassPart q) c = .ok c') :
    c'.pool = c.pool ∧ c'.interfaces = c.interfaces ∧ c'.fields = c.fields ∧
      c'.methods = c.methods := by
  induction parts generalizing c with
  | nil =>
    cases h
    exact ⟨rfl, rfl, rfl, rfl⟩
  | cons part parts ih =>
    rw [List.foldlM_cons] at h
    obtain ⟨c₁, hfirst, h⟩ := exceptBind_eq_ok_iff.1 h
    obtain ⟨hpool, hinterfaces, hfields, hmethods⟩ := ih h
    rw [hpool, hinterfaces, hfields, hmethods]
    exact members_of_addClassPart hfirst

/-- The pool of a class that is read is valid. -/
theorem valid_of_decode {bs : Bytes} {c : Class} {p : Pool} (h : decode bs = .ok c)
    (hp : c.pool = some p) : p.Valid := by
  obtain ⟨header, c₁, c₂, hheader, hrest⟩ := decode_eq_ok_iff.1 h
  have hpool : c.pool = some header.pool := by
    obtain ⟨superclass, c₃, -, hrest⟩ := bind_eq_ok_iff.1 hrest
    obtain ⟨interfaces, c₄, -, hrest⟩ := bind_eq_ok_iff.1 hrest
    obtain ⟨fields, c₅, -, hrest⟩ := bind_eq_ok_iff.1 hrest
    obtain ⟨methods, c₆, -, hrest⟩ := bind_eq_ok_iff.1 hrest
    obtain ⟨parts, c₇, -, hrest⟩ := bind_eq_ok_iff.1 hrest
    exact (members_of_foldlM_addClassPart (require_eq_ok_iff.1 hrest).1).1
  rw [hpool] at hp
  cases hp
  obtain ⟨word, c₃, -, hheader⟩ := bind_eq_ok_iff.1 hheader
  split at hheader
  · cases hheader
  · obtain ⟨minor, c₄, -, hheader⟩ := bind_eq_ok_iff.1 hheader
    obtain ⟨major, c₅, -, hheader⟩ := bind_eq_ok_iff.1 hheader
    obtain ⟨pool, c₆, hread, hheader⟩ := bind_eq_ok_iff.1 hheader
    obtain ⟨access, c₇, -, hheader⟩ := bind_eq_ok_iff.1 hheader
    obtain ⟨name, c₈, -, hheader⟩ := bind_eq_ok_iff.1 hheader
    cases hheader
    exact Pool.valid_of_read hread

/-- The pool that a writer starts with is valid. -/
theorem valid_pool {c : Class} (h : ClassFits c) : (c.pool.getD .empty).Valid := by
  cases hpool : c.pool with
  | none => exact Pool.valid_empty
  | some p =>
    obtain ⟨bs, d, hd, hdp⟩ := h.pool p hpool
    exact valid_of_decode hd hdp

/-- A class file is its pool between a header and the bytes of the class. -/
theorem encode_eq_ok_iff {c : Class} {bs : Bytes} :
    encode c = .ok bs ↔ ∃ body pool, classBytes c (c.pool.getD .empty) = (.ok body, pool) ∧
      bs = word32 magic ++ word16 c.minorVersion ++ word16 c.majorVersion ++ pool.bytes ++ body := by
  rcases hrun : classBytes c (c.pool.getD .empty) with ⟨answer, pool⟩
  have hencode : (classBytes c).run.run (c.pool.getD .empty) = (answer, pool) := hrun
  rw [encode, hencode]
  constructor
  · intro h
    cases answer with
    | error cause => cases h
    | ok body =>
      cases h
      exact ⟨body, pool, rfl, rfl⟩
  · rintro ⟨body, pool', hanswer, rfl⟩
    cases hanswer
    rfl

/-- What a writer makes of a class is read back. -/
theorem decode_of_run {c : Class} (h : ClassFits c) {body : Bytes} {pool : Pool}
    (hrun : classBytes c (c.pool.getD .empty) = (.ok body, pool))
    (hshort : Short body) :
    ∃ c', decode (word32 magic ++ word16 c.minorVersion ++ word16 c.majorVersion ++ pool.bytes ++
      body) = .ok c' ∧ SameClass c c' := by
  obtain ⟨hvalid, -, hpost⟩ := yields_classBytes h _ _ _ (valid_pool h) (Pool.Below.refl _) hrun
  obtain ⟨q, hslots, hreadPool⟩ := Pool.reads_read hvalid
  have hbelow : pool.Below q := by
    rw [Pool.Below, hslots]
  obtain ⟨i, rest, c', rfl, hname, hreadRest, hsame⟩ := hpost q hbelow hshort
  refine ⟨c', ?_, hsame⟩
  have hheader := reads_readHeader hreadPool hname c.minorVersion c.majorVersion c.access.bits
  have hrestRun := hreadRest [] (0 + (word32 magic ++ word16 c.minorVersion ++
    word16 c.majorVersion ++ pool.bytes ++ (word16 c.access.bits ++ word16 i)).length)
  rw [List.append_nil] at hrestRun
  have hheaderRun := hheader rest 0
  rw [List.append_assoc] at hheaderRun
  exact decode_eq_ok_iff.2 ⟨_, _, _, hheaderRun, hrestRun⟩

/-- Decoding undoes encoding. -/
theorem decode_of_encode {c : Class} (h : ClassFits c) {bs : Bytes} (hbs : encode c = .ok bs)
    (hshort : Short bs) : ∃ c', decode bs = .ok c' ∧ SameClass c c' := by
  obtain ⟨body, pool, hrun, rfl⟩ := encode_eq_ok_iff.1 hbs
  exact decode_of_run h hrun hshort.right

/-! ### A class with a loop -/

/-- A body that does nothing for ever. -/
def spin : Body :=
  { listing := ⟨#[⟨.label, none⟩, ⟨.plain .nop, none⟩, ⟨.jump .goto 0, none⟩], #[0, 1, 2]⟩ }

/-- A class with a loop and with a hidden annotation inside a visible one. -/
def spinner : Class :=
  { name := "Spinner", superclass := none, access := ⟨33⟩
    methods := [{ owner := "Spinner", name := "spin", descriptor := "()V", access := ⟨9⟩
                  body := some spin }]
    annotations := [⟨"LMarked;", true, [("by", .nested "LAuthor;" false [])]⟩] }

/-- The entries that the class adds to a pool. -/
def spinnerEntries : List Entry :=
  [.utf8 "Spinner", .ofClass 1, .utf8 "spin", .utf8 "()V", .utf8 "Code", .utf8 "LMarked;",
    .utf8 "by", .utf8 "LAuthor;", .utf8 visibleAnnotations]

/-- The bytes that the class is written with behind its pool. -/
def spinnerBytes : Bytes :=
  [0, 33, 0, 2, 0, 0, 0, 0, 0, 0, 0, 1, 0, 9, 0, 3, 0, 4, 0, 1, 0, 5, 0, 0, 0, 16, 0, 0, 0, 0, 0, 0,
    0, 4, 0, 167, 255, 255, 0, 0, 0, 0, 0, 1, 0, 9, 0, 0, 0, 13, 0, 1, 0, 6, 0, 1, 0, 7, 64, 0, 8,
    0, 0]

/-- The body is a jump to itself. -/
theorem bodyBytes_spin (p : Pool) (method : String) :
    bodyBytes method spin p =
      (.ok [0, 0, 0, 0, 0, 0, 0, 4, 0, 167, 255, 255, 0, 0, 0, 0], p) := by
  have hsettle : Layout.settle spin.listing.positions method
      [.fixed [], .fixed [0], .jump .goto 0 false] =
        .ok (Layout.of spin.listing.positions [.fixed [], .fixed [0], .jump .goto 0 false]) := by
    rw [Layout.settle]
    rfl
  have hforms : (spin.listing.handles.mapM fun h =>
      Form.choose (spin.listing.get h) (spin.listing.rawForm? h)) p =
        (.ok [.fixed [], .fixed [0], .jump .goto 0 false], p) := rfl
  refine poolBind_of_eq_ok hforms ?_
  rw [hsettle]
  rfl

/-- The method is written with its body, and adds its texts to the pool. -/
theorem methodBytes_spin :
    methodBytes ⟨"Spinner", "spin", "()V", ⟨9⟩, some spin, [], [], []⟩
        (Pool.ofEntries (spinnerEntries.take 2)) =
      (.ok ([0, 9, 0, 3, 0, 4, 0, 1, 0, 5, 0, 0, 0, 16] ++
        [0, 0, 0, 0, 0, 0, 0, 4, 0, 167, 255, 255, 0, 0, 0, 0]),
        Pool.ofEntries (spinnerEntries.take 5)) := by
  rw [methodBytes_eq]
  refine poolBind_of_eq_ok (Pool.utf8_next 2 (by decide) (by decide)) ?_
  refine poolBind_of_eq_ok (Pool.utf8_next 3 (by decide) (by decide)) ?_
  exact poolBind_of_eq_ok (poolBind_of_eq_ok (bodyBytes_spin _ _)
    (poolBind_of_eq_ok (Pool.utf8_next 4 (by decide) (by decide)) rfl)) rfl

/-- The annotation is written, and adds the rest of the pool. -/
theorem annotationParts_spinner :
    annotationParts spinner.annotations (Pool.ofEntries (spinnerEntries.take 5)) =
      (.ok [[0, 9, 0, 0, 0, 13, 0, 1, 0, 6, 0, 1, 0, 7, 64, 0, 8, 0, 0]],
        Pool.ofEntries spinnerEntries) := by
  -- The pool grows by one entry at a step, so each layer starts where the one inside it has left
  -- off.
  have hnested : elementBytes (.nested "LAuthor;" false [])
      (Pool.ofEntries (spinnerEntries.take 7)) =
        (.ok [64, 0, 8, 0, 0], Pool.ofEntries (spinnerEntries.take 8)) := by
    rw [elementBytes]
    exact poolBind_of_eq_ok (Pool.utf8_next 7 (by decide) (by decide)) rfl
  have hnamed : namedBytes [("by", .nested "LAuthor;" false [])]
      (Pool.ofEntries (spinnerEntries.take 6)) =
        (.ok [0, 7, 64, 0, 8, 0, 0], Pool.ofEntries (spinnerEntries.take 8)) := by
    rw [namedBytes]
    exact poolBind_of_eq_ok (Pool.utf8_next 6 (by decide) (by decide))
      (poolBind_of_eq_ok hnested rfl)
  have hannotation : annotationBytes ⟨"LMarked;", true, [("by", .nested "LAuthor;" false [])]⟩
      (Pool.ofEntries (spinnerEntries.take 5)) =
        (.ok [0, 6, 0, 1, 0, 7, 64, 0, 8, 0, 0], Pool.ofEntries (spinnerEntries.take 8)) :=
    poolBind_of_eq_ok (Pool.utf8_next 5 (by decide) (by decide)) (poolBind_of_eq_ok hnamed rfl)
  have hcounted : countedBytes spinner.annotations annotationBytes
      (Pool.ofEntries (spinnerEntries.take 5)) =
        (.ok [0, 1, 0, 6, 0, 1, 0, 7, 64, 0, 8, 0, 0], Pool.ofEntries (spinnerEntries.take 8)) :=
    poolBind_of_eq_ok (poolBind_of_eq_ok hannotation rfl) rfl
  exact poolBind_of_eq_ok (poolBind_of_eq_ok hcounted
    (poolBind_of_eq_ok (Pool.utf8_next 8 (by decide) (by decide)) rfl)) rfl

/-- The class is written behind the pool of its entries. -/
theorem classBytes_spinner :
    classBytes spinner .empty = (.ok spinnerBytes, Pool.ofEntries spinnerEntries) := by
  have hname : Pool.ofClass "Spinner" (Pool.ofEntries (spinnerEntries.take 0)) =
      (.ok 2, Pool.ofEntries (spinnerEntries.take 2)) :=
    poolBind_of_eq_ok (Pool.utf8_next 0 (by decide) (by decide))
      (Pool.intern_next 1 (by decide))
  have hmethods : countedBytes spinner.methods methodBytes
      (Pool.ofEntries (spinnerEntries.take 2)) =
        (.ok (count16 1 ++ ([0, 9, 0, 3, 0, 4, 0, 1, 0, 5, 0, 0, 0, 16] ++
          [0, 0, 0, 0, 0, 0, 0, 4, 0, 167, 255, 255, 0, 0, 0, 0])),
          Pool.ofEntries (spinnerEntries.take 5)) :=
    poolBind_of_eq_ok (poolBind_of_eq_ok methodBytes_spin rfl) rfl
  have hparts : classParts spinner (Pool.ofEntries (spinnerEntries.take 5)) =
      (.ok [[0, 9, 0, 0, 0, 13, 0, 1, 0, 6, 0, 1, 0, 7, 64, 0, 8, 0, 0]],
        Pool.ofEntries spinnerEntries) := by
    rw [classParts_eq]
    refine poolBind_of_eq_ok rfl (poolBind_of_eq_ok rfl ?_)
    exact poolBind_of_eq_ok annotationParts_spinner rfl
  refine poolBind_of_eq_ok hname (poolBind_of_eq_ok rfl (poolBind_of_eq_ok rfl
    (poolBind_of_eq_ok rfl ?_)))
  exact poolBind_of_eq_ok hmethods (poolBind_of_eq_ok hparts rfl)

/-- The body fits what can be written. -/
theorem bodyFits_spin : BodyFits .empty spin where
  listing := ⟨by decide, by decide⟩
  legal := by
    intro h hh
    have hcases : h = 0 ∨ h = 1 ∨ h = 2 := by
      simpa [spin, Listing.handles] using hh
    rcases hcases with rfl | rfl | rfl
    · trivial
    · exact (rfl : isPlain .nop = true)
    · refine ⟨rfl, ?_⟩
      intro r hr
      cases hr
  guards := by decide
  lines := by decide
  parts := by decide
  names := by decide

/-- The class fits what can be written. -/
theorem classFits_spinner : ClassFits spinner where
  pool := by simp [spinner]
  interfaces := by decide
  fieldCount := by decide
  fields := by simp [spinner]
  methodCount := by decide
  methods := by
    intro m hm
    rw [List.mem_singleton.1 hm]
    refine ⟨?_, by decide, ⟨by simp, by decide, by decide⟩, by decide, by decide⟩
    intro b hb
    cases hb
    exact bodyFits_spin
  annotations := by
    refine ⟨?_, by decide, by decide⟩
    intro a ha
    rw [List.mem_singleton.1 ha]
    refine ⟨by decide, ?_⟩
    intro v hv
    rw [List.mem_singleton.1 hv]
    exact .nested (by decide) (by simp)
  innerClasses := by decide
  parts := by decide
  names := by decide

/-- The class is read back from what it is encoded to. -/
theorem decode_of_encode_spinner : ∃ bs c', ClassFits spinner ∧ encode spinner = .ok bs ∧
    Short bs ∧ decode bs = .ok c' ∧ SameClass spinner c' := by
  have hencode := encode_eq_ok_iff.2 ⟨_, _, classBytes_spinner, rfl⟩
  have hshort : Short (word32 magic ++ word16 0 ++ word16 52 ++
      (Pool.ofEntries spinnerEntries).bytes ++ spinnerBytes) := by
    decide +kernel
  obtain ⟨c', hdecode, hsame⟩ := decode_of_encode classFits_spinner hencode hshort
  exact ⟨_, c', classFits_spinner, hencode, hshort, hdecode, hsame⟩

/-- The annotation inside the other one is read back as visible, although it was hidden. -/
theorem annotations_of_decode_spinner : ∃ bs c', ClassFits spinner ∧ encode spinner = .ok bs ∧
    Short bs ∧ decode bs = .ok c' ∧ c'.annotations ≠ visibleFirst spinner.annotations := by
  have hencode := encode_eq_ok_iff.2 ⟨_, _, classBytes_spinner, rfl⟩
  obtain ⟨c', hdecode, hsame⟩ :=
    decode_of_run classFits_spinner classBytes_spinner (by decide +kernel)
  refine ⟨_, c', classFits_spinner, hencode, by decide +kernel, hdecode, ?_⟩
  rw [hsame.annotations]
  intro heq
  cases heq

end Unscramble.Binary.ClassFile
