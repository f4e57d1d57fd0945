import Unscramble.Binary.ClassFile
import Unscramble.Proofs.Binary.Body
import Unscramble.Proofs.Binary.Methods
import Unscramble.Proofs.Binary.Recovery

/-! # Code arrays are written as they were read

Whatever is written, and whether or not it can be read back, the pool that it leaves is valid and
holds what the pool before held. A class that is decoded and encoded again has the code arrays that
it was read with, byte for byte, in every body whose instructions are regular. Neither entries that
stand several times in the pool nor the form that an instruction was read in make a difference.

Main definitions: `Grows`, `WritesParts`, `Kept`. Main statements: `grows_choose`,
`grows_bodyBytes`, `grows_annotationBytes`, `codeArrays_encode`. -/

namespace Unscramble.Binary

/-- A computation that keeps a pool above a given one valid and lets it grow. -/
def Grows {α : Type} (base : Pool) (m : PoolM α) : Prop :=
  Yields base m fun _ _ => True

section Grows

variable {α β : Type} {base : Pool}

/-- What yields something lets the pool grow. -/
theorem Yields.grows {m : PoolM α} {post : α → Pool → Prop} (h : Yields base m post) :
    Grows base m :=
  h.mono fun _ _ _ => trivial

/-- An answer without a computation lets the pool grow. -/
theorem grows_pure (a : α) : Grows base (pure a : PoolM α) :=
  yields_pure fun _ => trivial

/-- Two computations in sequence let the pool grow. -/
theorem Grows.bind {m : PoolM α} {f : α → PoolM β} (h : Grows base m)
    (hf : ∀ a, Grows base (f a)) : Grows base (m >>= f) :=
  Yields.bind h fun a => (hf a).mono fun _ _ _ _ => trivial

/-- A computation whose answer is returned at once. -/
theorem Grows.bind_pure {m : PoolM α} (h : Grows base m) (f : α → β) :
    Grows base (do return f (← m)) :=
  h.bind fun a => grows_pure (f a)

/-- Changing the answer lets the pool grow. -/
theorem Grows.map {m : PoolM α} (h : Grows base m) (f : α → β) : Grows base (f <$> m) :=
  Yields.map h fun _ _ _ => trivial

/-- A computation for each item lets the pool grow. -/
theorem grows_mapM {items : List α} {f : α → PoolM β} (h : ∀ a ∈ items, Grows base (f a)) :
    Grows base (items.mapM f) :=
  (yields_mapM h).grows

/-- Writing items with their number lets the pool grow. -/
theorem grows_countedBytes {items : List α} {encode : α → PoolM Bytes}
    (h : ∀ a ∈ items, Grows base (encode a)) : Grows base (countedBytes items encode) :=
  (yields_countedBytes h).grows

/-! ### Constants and instructions -/

/-- Adding a constant lets the pool grow. -/
theorem grows_constant (c : Constant) : Grows base (Pool.constant c) := by
  have hintern : ∀ e : Entry, (∀ text, e ≠ .utf8 text) → e ≠ .unusable →
      Grows base (Pool.intern e) := fun e hutf8 husable =>
    (Pool.yields_intern (Pool.sound_of_not_utf8 husable hutf8)).grows
  cases c with
  | int v => exact hintern _ (by simp) (by simp)
  | float bits => exact hintern _ (by simp) (by simp)
  | long v => exact hintern _ (by simp) (by simp)
  | double bits => exact hintern _ (by simp) (by simp)
  | string s => exact (Pool.yields_utf8 s).grows.bind fun i => hintern _ (by simp) (by simp)
  | ofClass name => exact (Pool.yields_ofClass name).grows
  | methodType d => exact (Pool.yields_utf8 d).grows.bind fun i => hintern _ (by simp) (by simp)
  | methodHandle kind m viaInterface =>
    exact (Pool.yields_member m _).grows.bind fun i => hintern _ (by simp) (by simp)
  | dynamic bootstrap name d =>
    exact (Pool.yields_nameAndType name d).grows.bind fun i => hintern _ (by simp) (by simp)

/-- Using an index again or adding one lets the pool grow. -/
theorem grows_reuse (raw : Option RawForm) (holds : Pool → UInt16 → Bool) {add : PoolM UInt16}
    (h : Grows base add) : Grows base (reuse raw holds add) :=
  yields_reuse h fun _ _ _ _ _ _ _ => trivial

/-- Choosing the form of an instruction only adds to the pool. -/
theorem grows_choose (insn : Instruction Label) (raw : Option RawForm) :
    Grows base (Form.choose insn raw) := by
  cases insn with
  | push c =>
    refine Grows.bind ?_ fun bs => grows_pure _
    refine (grows_reuse raw _ (grows_constant c)).bind fun i => ?_
    split
    · exact grows_pure _
    · split
      · exact grows_pure _
      · exact grows_pure _
  | ofClass op name => exact (yields_classIndex raw name).grows.bind_pure _
  | field op m => exact (yields_memberIndex raw m .field).grows.bind_pure _
  | invoke op m viaInterface =>
    refine Grows.bind ?_ fun bs => grows_pure _
    refine (yields_memberIndex raw m _).grows.bind fun i => ?_
    split
    · exact grows_pure _
    · exact grows_pure _
  | invokeDynamic call =>
    exact (grows_reuse raw _ (Pool.yields_invokeDynamic call).grows).bind_pure _
  | newArrays name dims => exact (yields_classIndex raw name).grows.bind_pure _
  | _ => exact grows_pure _

/-! ### Bodies -/

/-- Writing an attribute lets the pool grow. -/
theorem grows_part {contents : PoolM Bytes} (h : Grows base contents) (name : String) :
    Grows base (part name contents) :=
  (yields_part h name).grows

/-- Writing a table of line numbers lets the pool grow. -/
theorem grows_linePart (lines : List (Nat × UInt16)) : Grows base (linePart lines) := by
  rw [linePart]
  split
  · exact grows_pure []
  · exact grows_part (grows_countedBytes fun line _ => grows_pure _) lineTable

/-- Writing a body lets the pool grow. -/
theorem grows_bodyBytes (method : String) (b : Body) : Grows base (bodyBytes method b) := by
  rw [bodyBytes]
  refine (grows_mapM fun h _ => grows_choose _ _).bind fun forms => ?_
  refine yields_settled.grows.bind fun l => ?_
  split
  · exact yields_throw
  · refine yields_settled.grows.bind fun code => ?_
    refine (grows_mapM fun g _ => (yields_guardBytes l g).grows).bind fun guards => ?_
    refine (grows_linePart _).bind fun lines => ?_
    exact (yields_carriedParts b.attributes).grows.bind_pure _

/-! ### Annotations -/

mutual

/-- Writing an annotation value only adds to the pool. -/
theorem grows_elementBytes : ∀ e : Element, Grows base (elementBytes e)
  | .const tag value => by
    rw [elementBytes.eq_def]
    cases value with
    | string text =>
      dsimp only
      split
      · exact (Pool.yields_utf8 text).grows.bind_pure _
      · exact (grows_constant _).bind_pure _
    | _ => exact (grows_constant _).bind_pure _
  | .enum typeName constName => by
    rw [elementBytes]
    exact (Pool.yields_utf8 typeName).grows.bind fun i =>
      (Pool.yields_utf8 constName).grows.bind_pure _
  | .ofClass descriptor => by
    rw [elementBytes]
    exact (Pool.yields_utf8 descriptor).grows.bind_pure _
  | .nested descriptor _ values => by
    rw [elementBytes]
    exact (Pool.yields_utf8 descriptor).grows.bind fun i => (grows_namedBytes values).bind_pure _
  | .array values => by
    rw [elementBytes]
    exact (grows_elementsBytes values).bind_pure _

/-- Writing annotation values only adds to the pool. -/
theorem grows_elementsBytes : ∀ es : List Element, Grows base (elementsBytes es)
  | [] => by
    rw [elementsBytes]
    exact grows_pure _
  | e :: rest => by
    rw [elementsBytes]
    exact (grows_elementBytes e).bind fun bs => (grows_elementsBytes rest).bind_pure _

/-- Writing named annotation values only adds to the pool. -/
theorem grows_namedBytes : ∀ vs : List (String × Element), Grows base (namedBytes vs)
  | [] => by
    rw [namedBytes]
    exact grows_pure _
  | (name, e) :: rest => by
    rw [namedBytes]
    exact (Pool.yields_utf8 name).grows.bind fun i => (grows_elementBytes e).bind fun bs =>
      (grows_namedBytes rest).bind_pure _

end

/-- Writing an annotation lets the pool grow. -/
theorem grows_annotationBytes (a : Annotation) : Grows base (annotationBytes a) :=
  (Pool.yields_utf8 a.descriptor).grows.bind fun _ => (grows_namedBytes a.values).bind_pure _

end Grows

end Unscramble.Binary

/-! ### Code arrays -/

namespace Unscramble.Binary.ClassFile

open Reader

/-! ### Bodies that are written -/

/-- The bytes of a body hold the code array that its layout spells. -/
theorem bodyBytes_eq_ok {method : String} {b : Body} {p p' : Pool} {bs : Bytes}
    (h : bodyBytes method b p = (.ok bs, p')) :
    ∃ forms p₁ l code, (b.listing.handles.mapM fun h =>
        Form.choose (b.listing.get h) (b.listing.rawForm? h)) p = (.ok forms, p₁) ∧
      Layout.settle b.listing.positions method forms = .ok l ∧ l.length ≤ 65535 ∧
      l.bytes = .ok code ∧ readCode.on bs = .ok code := by
  have hsettled : ∀ {α : Type} {answer : Except Malformation α} {a : α} {p p' : Pool},
      settled answer p = (.ok a, p') → answer = .ok a := by
    intro α answer a p p' h
    cases answer with
    | error e => cases h
    | ok b =>
      cases h
      rfl
  obtain ⟨forms, p₁, hforms, h⟩ := poolBind_eq_ok h
  obtain ⟨l, p₂, hl, h⟩ := poolBind_eq_ok h
  have hl := hsettled hl
  -- A layout over the limit is thrown out, so the length of what is written is bounded.
  split at h
  · cases h
  next hlength =>
  obtain ⟨code, p₃, hcode, h⟩ := poolBind_eq_ok h
  have hcode := hsettled hcode
  obtain ⟨guards, p₄, -, h⟩ := poolBind_eq_ok h
  obtain ⟨lines, p₅, -, h⟩ := poolBind_eq_ok h
  obtain ⟨parts, p₆, -, h⟩ := poolBind_eq_ok h
  cases h
  -- The count of the code array takes 32 bits, and the limit on the layout is far below.
  have hsmall : code.length < 4294967296 := by
    obtain ⟨forms', rfl, -, -⟩ := settle_eq_ok hl
    obtain ⟨chunks, rfl, hchunks⟩ := bytes_of_eq_ok hcode
    have hend := length_flatten_chunks hchunks
    rw [Layout.length_of] at hlength
    omega
  refine ⟨forms, p₁, l, code, hforms, hl, Nat.not_lt.1 hlength, hcode, ?_⟩
  have hread : Reads readCode (word16 b.maxStack ++ (word16 b.maxLocals ++
      (count32 code.length ++ code))) code := by
    refine (reads_u16 b.maxStack).bind ((reads_u16 b.maxLocals).bind ?_)
    refine (reads_u32 code.length.toUInt32).bind ?_
    have hcount : code.length.toUInt32.toNat = code.length := Nat.mod_eq_of_lt hsmall
    rw [hcount]
    exact reads_bytes rfl
  have hrun := hread (partTable guards.flatten ++ partTable (lines ++ parts)) 0
  rw [List.append_assoc, List.append_assoc, List.append_assoc, List.append_assoc]
  simp only [List.append_assoc] at hrun
  exact on_eq_ok_iff.2 ⟨_, hrun⟩

/-- A body that was read from regular instructions is written with its code array. -/
theorem code_of_bodyBytes {pool : Pool} {b : Body} {code : Bytes} (hread : BodyRead pool b code)
    {method : String} {p p' : Pool} {bs : Bytes} (hp : pool.Below p)
    (h : bodyBytes method b p = (.ok bs, p')) :
    ∃ code', readCode.on bs = .ok code' ∧ (RegularCode pool code → code' = code) := by
  obtain ⟨forms, p₁, l, code', hforms, hsettle, -, hbytes, hcode'⟩ := bodyBytes_eq_ok h
  refine ⟨code', hcode', fun hregular => ?_⟩
  obtain ⟨located, guards, label?, placed, chunks, hlocated, hassembled, rfl, hsequence, hordered, -,
    -⟩ := hread.exists_assembled
  obtain ⟨forms', hlaid⟩ := hassembled.exists_laid hsequence rfl (hregular located hlocated)
  have hfaithful := hlaid.faithful (hassembled.wellFormed hordered)
    fun o k hk => hassembled.mem_handles hordered hk
  rw [mapM_choose hlaid.chosen hp] at hforms
  cases hforms
  rw [hlaid.settle hfaithful method] at hsettle
  cases hsettle
  rw [hlaid.bytes hfaithful] at hbytes
  cases hbytes
  rfl

/-! ### Declarations that are written -/

variable {base : Pool}

/-- A computation writes a number of parts, all of which satisfy a condition. -/
def WritesParts (base : Pool) (m : PoolM (List Bytes)) (n : Nat) (good : Attribute → Prop) : Prop :=
  Yields base m fun chunks q => ∃ parts, List.Forall₂ (Carries q) chunks parts ∧
    parts.length = n ∧ ∀ a ∈ parts, good a

/-- What is said of the parts that are written may be said with less. -/
theorem WritesParts.mono {m : PoolM (List Bytes)} {n : Nat} {good good' : Attribute → Prop}
    (h : WritesParts base m n good) (himp : ∀ a, good a → good' a) :
    WritesParts base m n good' := by
  refine Yields.mono h ?_
  rintro chunks q ⟨parts, hchunks, hlength, hparts⟩
  exact ⟨parts, hchunks, hlength, fun a ha => himp a (hparts a ha)⟩

/-- No part is written. -/
theorem writesParts_nil {good : Attribute → Prop} : WritesParts base (pure []) 0 good :=
  yields_pure fun _ => ⟨[], .nil, rfl, by simp⟩

/-- One part is written under its name. -/
theorem writesParts_part {contents : PoolM Bytes} (h : Grows base contents) (name : String) :
    WritesParts base (part name contents) 1 (·.name = name) := by
  refine (yields_part h name).mono ?_
  rintro chunks q ⟨data, -, hchunks⟩
  exact ⟨_, hchunks, rfl, by simp⟩

/-- A list takes one part, or none if it is empty. -/
theorem writesParts_listPart {α : Type} (name : String) {items : List α} {encode : α → PoolM Bytes}
    (h : ∀ a ∈ items, Grows base (encode a)) :
    WritesParts base (listPart name items encode) (listPartCount items) (·.name = name) := by
  rw [listPart, listPartCount]
  split
  · exact writesParts_nil
  · exact writesParts_part (grows_countedBytes h) name

/-- Parts are written for the groups of annotations that there are. -/
theorem writesParts_annotationParts (annotations : List Annotation) :
    WritesParts base (annotationParts annotations) (annotationPartCount annotations)
      (·.name ∈ annotationNames) := by
  have hgroup : ∀ name ∈ annotationNames, ∀ group, WritesParts base (annotationPart name group)
      (partsOf group) (·.name ∈ annotationNames) := by
    intro name hname group
    have hpart : WritesParts base (listPart name group annotationBytes) (listPartCount group)
        (·.name = name) := writesParts_listPart name fun a _ => grows_annotationBytes a
    exact hpart.mono fun a ha => ha ▸ hname
  refine (hgroup visibleAnnotations (by decide) _).bind fun visibleChunks => ?_
  refine (hgroup invisibleAnnotations (by decide) _).bind_pure ?_
  rintro hiddenChunks q ⟨hidden, hhidden, hcount, hnames⟩ ⟨visible, hvisible, hcount', hnames'⟩
  refine ⟨_, List.rel_append hvisible hhidden, ?_, ?_⟩
  · rw [List.length_append, hcount, hcount', annotationPartCount]
  · intro a ha
    exact (List.mem_append.1 ha).elim (hnames' a) (hnames a)

/-- A part is written for the value of a constant, if there is one. -/
theorem writesParts_valuePart (value : Option Constant) :
    WritesParts base (valuePart value) value.toList.length (·.name = "ConstantValue") := by
  cases value with
  | none => exact writesParts_nil
  | some c => exact writesParts_part ((grows_constant c).map word16) "ConstantValue"

/-- A declaration is read up to its parts. -/
theorem reads_readParts {q : Pool} {chunks : List Bytes} {parts : List Attribute}
    (h : List.Forall₂ (Carries q) chunks parts) (hn : parts.length ≤ 65535) {access i j : UInt16}
    (hshort : Short (partTable chunks)) :
    Reads (readParts q) (word16 access ++ word16 i ++ word16 j ++ partTable chunks) parts := by
  rw [List.append_assoc, List.append_assoc]
  exact (reads_u16 access).bind ((reads_u16 i).bind ((reads_u16 j).bind
    (reads_partTable h hn hshort)))

/-- The parts of a field are found in what it is written with. -/
theorem writes_fieldParts {f : Field} (h : fieldPartCount f ≤ 65535) :
    Writes base (fieldBytes f) readParts fun _ => True := by
  rw [fieldBytes_eq]
  refine (Pool.yields_utf8 f.name).bind fun i => (Pool.yields_utf8 f.descriptor).bind fun j => ?_
  refine (writesParts_valuePart f.value).bind fun valueChunks => ?_
  refine (writesParts_annotationParts f.annotations).bind fun annotationChunks => ?_
  refine (yields_carriedParts f.attributes).bind_pure ?_
  rintro carried q hcarried ⟨annotated, hannotated, hcount, -⟩ ⟨valued, hvalued, hcount', -⟩ - -
    hshort
  refine ⟨_, trivial, reads_readParts (List.rel_append (List.rel_append hvalued hannotated) hcarried)
    ?_ hshort.right⟩
  rw [List.length_append, List.length_append, hcount, hcount']
  exact h

/-- A code array that is the same as before, if there were only regular instructions in it. -/
def Kept (pool : Pool) (code code' : Option Bytes) : Prop :=
  (∀ x ∈ code, RegularCode pool x) → code' = code

/-- The code array of a body that was read is written again. -/
theorem yields_code {pool : Pool} {body : Option Body} {code : Option Bytes}
    (h : Option.Rel (BodyRead pool) body code) (method : String) :
    Yields pool (codePart method body) fun chunks q => ∃ parts,
      List.Forall₂ (Carries q) chunks parts ∧ parts.length = body.toList.length ∧
        ∃ code', codeAmong parts = .ok code' ∧ Kept pool code code' := by
  cases h with
  | none => exact yields_pure fun q => ⟨[], .nil, rfl, none, rfl, fun _ => rfl⟩
  | @some b code hread =>
    have hdata : Yields pool (bodyBytes method b) fun data _ =>
        ∃ code', readCode.on data = .ok code' ∧ (RegularCode pool code → code' = code) := by
      intro p data p' hp hbase hrun
      obtain ⟨hvalid, hbelow, -⟩ := grows_bodyBytes method b p data p' hp hbase hrun
      exact ⟨hvalid, hbelow, fun _ _ => code_of_bodyBytes hread hbase hrun⟩
    refine (yields_part hdata "Code").mono ?_
    rintro chunks q ⟨data, ⟨code', hcode', hkept⟩, hchunks⟩
    refine ⟨_, hchunks, rfl, some code', ?_, fun hregular => congrArg some (hkept ?_)⟩
    · have hfound : codeAmong [⟨"Code", data⟩] = some <$> readCode.on data :=
        codeAmong_concat rfl []
      rw [hfound, hcode']
      rfl
    · exact hregular code rfl

/-- Attributes of other names are no code arrays. -/
theorem codeAmong_append_of_ne {others : List Attribute} (h : ∀ a ∈ others, a.name ≠ "Code")
    (parts : List Attribute) : codeAmong (parts ++ others) = codeAmong parts := by
  have hnone : others.filter (·.name == "Code") = [] :=
    List.filter_eq_nil_iff.2 fun a ha => by simpa using h a ha
  rw [codeAmong, codeAmong, List.filter_append, hnone, List.append_nil]

/-- Writing the attributes of a class lets the pool grow. -/
theorem grows_classParts (c : Class) : Grows base (classParts c) := by
  have hinner : ∀ i : InnerClass, Grows base (innerClassBytes i) := by
    intro i
    exact (writes_innerClassBytes i).grows
  rw [classParts_eq]
  refine Grows.bind ?_ fun source => ?_
  · cases c.sourceFile with
    | none => exact grows_pure []
    | some name => exact grows_part ((Pool.yields_utf8 name).grows.map word16) "SourceFile"
  refine (writesParts_listPart "InnerClasses" fun i _ => hinner i).grows.bind fun inner => ?_
  refine (writesParts_annotationParts c.annotations).grows.bind fun annotations => ?_
  exact (yields_carriedParts c.attributes).grows.bind_pure _

/-- The code array of a method that was read is found again in what it is written with. -/
theorem writes_methodCode {pool : Pool} {m : Method} {code : Option Bytes}
    (h : MethodRead pool m code) :
    Writes pool (methodBytes m) readMethodCode (Kept pool code) := by
  rw [methodBytes_eq]
  refine (Pool.yields_utf8 m.name).bind fun i => (Pool.yields_utf8 m.descriptor).bind fun j => ?_
  refine (yields_code h.body m.text).bind fun codeChunks => ?_
  refine (writesParts_listPart "Exceptions" fun e _ => (Pool.yields_ofClass e).grows.map word16).bind
    fun exceptionChunks => ?_
  refine (writesParts_annotationParts m.annotations).bind fun annotationChunks => ?_
  refine (yields_carriedParts m.attributes).bind_pure ?_
  -- The parts come back in reverse, the last group written first.
  rintro carried q hcarried ⟨annotated, hannotated, hcount, hnames⟩ ⟨thrown, hthrown, hcount', hnames'⟩
    ⟨coded, hcoded, hcount'', code', hcode', hkept⟩ - - hshort
  refine ⟨code', hkept, Reads.bind_nil (reads_readParts (List.rel_append (List.rel_append
    (List.rel_append hcoded hthrown) hannotated) hcarried) ?_ hshort.right) (reads_require ?_)⟩
  · have hparts := h.parts
    rw [methodPartCount] at hparts
    rw [List.length_append, List.length_append, List.length_append, hcount, hcount', hcount'']
    exact hparts
  -- No other group has a part with the name of the code, so the code is found in its own group.
  · have hexceptions : ∀ a ∈ thrown, a.name ≠ "Code" := by
      intro a ha
      rw [hnames' a ha]
      decide
    have hannotations : ∀ a ∈ annotated, a.name ≠ "Code" := by
      intro a ha hname
      have hmem : a.name ∈ annotationNames := hnames a ha
      rw [hname] at hmem
      exact absurd hmem (by decide)
    rw [codeAmong_append_of_ne h.names, codeAmong_append_of_ne hannotations,
      codeAmong_append_of_ne hexceptions]
    exact hcode'

/-! ### Classes that are written -/

/-- Items behind their count are read back, each as what goes with it. -/
theorem writes_counted_forall₂ {α β γ : Type} {items : List α} {values : List β}
    {encode : α → PoolM Bytes} {read : Pool → Reader γ} {good : β → γ → Prop}
    (h : List.Forall₂ (fun a b => Writes base (encode a) read (good b)) items values)
    (hn : items.length ≤ 65535) :
    Writes base (countedBytes items encode) (fun q => counted (read q))
      (List.Forall₂ good values) := by
  have hlength := h.length_eq
  have hitems : (items.zip values).map Prod.fst = items := List.map_fst_zip hlength.le
  have hvalues : (items.zip values).map Prod.snd = values := List.map_snd_zip hlength.ge
  have hpairs : ∀ pair ∈ items.zip values, Writes base (encode pair.1) read (good pair.2) :=
    fun _ hpair => List.forall₂_zip h hpair
  have hcount : (items.zip values).length = items.length := by
    rw [← List.length_map Prod.fst, hitems]
  have hbytes : countedBytes (items.zip values) (fun pair => encode pair.1) =
      countedBytes items encode := by
    conv_rhs => rw [← hitems]
    rw [countedBytes, countedBytes, List.mapM_map, List.length_map]
    rfl
  rw [← hbytes]
  refine (Writes.counted hpairs (by omega)).mono ?_
  intro list hlist
  rw [← hvalues, List.forall₂_map_left_iff]
  exact hlist

/-- Behind the pool of a class that was decoded, its code arrays are written again. -/
theorem yields_methodCodes {c : Class} {pool : Pool} {codes : List (Option Bytes)}
    (h : ClassRead c pool codes) :
    Yields pool (classBytes c) fun bs q => Short bs → ∃ codes' front back,
      bs = front ++ back ∧ List.Forall₂ (Kept pool) codes codes' ∧
        Reads (readMethodCodes q) front codes' := by
  have hword : ∀ name ∈ c.interfaces, Writes pool (word16 <$> Pool.ofClass name) (fun _ => u16)
      fun _ => True := by
    intro name _
    exact (Pool.yields_ofClass name).map fun i q _ _ => ⟨i, trivial, reads_u16 i⟩
  refine (Pool.yields_ofClass c.name).bind fun i => ?_
  refine (yields_indexOrZero Pool.yields_ofClass c.superclass).bind fun superclass => ?_
  refine (Writes.counted hword h.interfaces).bind fun interfaceBytes => ?_
  refine (Writes.counted (fun f hf => writes_fieldParts (h.fields f hf)) h.fieldCount).bind
    fun fieldBytes => ?_
  refine (writes_counted_forall₂ (h.methods.imp fun m code => writes_methodCode)
    h.methodCount).bind fun methodBytes => ?_
  refine Yields.bind_pure (grows_classParts c) ?_
  -- Of fields, interfaces and the superclass only the extent matters: reading skips them.
  intro parts q _ hmethods hfields hinterfaces _ _ hshort
  obtain ⟨codes', hkept, hreadMethods⟩ := hmethods hshort.left.right
  obtain ⟨_, -, hreadFields⟩ := hfields hshort.left.left.right
  obtain ⟨_, -, hreadInterfaces⟩ := hinterfaces hshort.left.left.left.right
  refine ⟨codes', _, _, rfl, hkept, ?_⟩
  simp only [List.append_assoc]
  exact (reads_u16 c.access.bits).bind ((reads_u16 i).bind ((reads_u16 superclass).bind
    (hreadInterfaces.bind (hreadFields.bind hreadMethods))))

/-- A class that is decoded and encoded again has the code arrays it was read with, whatever else
its pool holds: each array whose instructions are regular is the same, byte for byte. -/
theorem codeArrays_encode {b b' : Bytes} {c : Class} (hdecode : decode b = .ok c)
    (hencode : encode c = .ok b') (hshort : Short b') :
    ∃ pool codes codes', c.pool = some pool ∧ codeArrays b = .ok codes ∧
      codeArrays b' = .ok codes' ∧ codes.length = c.methods.length ∧
      List.Forall₂ (fun code code' => (∀ x ∈ code, RegularCode pool x) → code' = code)
        codes codes' := by
  obtain ⟨pool, codes, hcodes, hread⟩ := exists_codeArrays hdecode
  obtain ⟨body, p, hrun, rfl⟩ := encode_eq_ok_iff.1 hencode
  -- What is encoded starts from the pool that was decoded, so the indices of the code keep their
  -- entries.
  have hpool : c.pool.getD .empty = pool := by
    rw [hread.kept]
    rfl
  rw [hpool] at hrun
  obtain ⟨hvalid, -, hpost⟩ :=
    yields_methodCodes hread _ _ _ hread.valid (Pool.Below.refl _) hrun
  obtain ⟨q, hslots, hreadPool⟩ := Pool.reads_read hvalid
  have hbelow : p.Below q := by
    rw [Pool.Below, hslots]
  obtain ⟨codes', front, back, rfl, hkept, hreads⟩ := hpost q hbelow hshort.right
  refine ⟨pool, codes, codes', hread.kept, hcodes, ?_, hread.methods.length_eq.symm, hkept⟩
  have hall : Reads readCodeArrays (word32 magic ++ (word16 c.minorVersion ++
      (word16 c.majorVersion ++ (p.bytes ++ front)))) codes' :=
    (reads_u32 magic).bind ((reads_u16 _).bind ((reads_u16 _).bind (hreadPool.bind hreads)))
  have hall := hall back 0
  simp only [List.append_assoc] at hall
  simp only [List.append_assoc]
  exact on_eq_ok_iff.2 ⟨_, hall⟩

/-! ### A class with a pool that says things twice -/

/-- A pool in which a text, a class and a number stand twice. -/
def twofoldEntries : List Entry :=
  [.utf8 "A", .ofClass 1, .utf8 "A", .ofClass 3, .ofClass 3, .utf8 "m", .utf8 "()V", .utf8 "Code",
    .int 7, .int 7]

/-- Instructions in wide, normal and short form that refer to the latter one of two entries. -/
def twofoldCode : Bytes :=
  [187, 0, 5, 196, 21, 0, 1, 21, 1, 27, 18, 10, 200, 255, 255, 255, 244]

/-- What stands behind the name of the class. -/
def twofoldRest : Bytes :=
  [0, 0, 0, 0, 0, 0, 0, 1, 0, 9, 0, 6, 0, 7, 0, 1, 0, 8, 0, 0, 0, 29, 0, 1, 0, 2, 0, 0, 0, 17] ++
    twofoldCode ++ [0, 0, 0, 0, 0, 0]

/-- The bytes of the class file. -/
def twofoldFile : Bytes :=
  word32 magic ++ word16 0 ++ word16 52 ++ (Pool.ofEntries twofoldEntries).bytes ++
    (word16 33 ++ word16 2 ++ twofoldRest)

/-- The body that the code array is read as. -/
def twofoldBody : Body :=
  { listing := ⟨#[⟨.ofClass .new "A", some ⟨.new, false, some 5⟩⟩,
      ⟨.slot .iload 1, some ⟨.iload, true, none⟩⟩, ⟨.slot .iload 1, some ⟨.iload, false, none⟩⟩,
      ⟨.slot .iload 1, some ⟨⟨27⟩, false, none⟩⟩, ⟨.push (.int 7), some ⟨.ldc, false, some 10⟩⟩,
      ⟨.label, none⟩, ⟨.jump .goto 5, some ⟨.gotoW, false, none⟩⟩], #[5, 0, 1, 2, 3, 4, 6]⟩
    maxStack := 1, maxLocals := 2 }

/-- The forms that are chosen for it again. -/
def twofoldForms : List Form :=
  [.fixed [], .fixed [187, 0, 5], .fixed [196, 21, 0, 1], .fixed [21, 1], .fixed [27],
    .fixed [18, 10], .jump .goto 5 true]

/-- The class that is read. -/
def twofold : Class :=
  { name := "A", superclass := none, access := ⟨33⟩
    methods := [{ owner := "A", name := "m", descriptor := "()V", access := ⟨9⟩
                  body := some twofoldBody }]
    minorVersion := 0, majorVersion := 52, pool := some (Pool.ofEntries twofoldEntries) }

/-- The class file is one of a class with a method. -/
theorem decode_twofold : decode twofoldFile = .ok twofold :=
  decode_ofEntries (by decide) (by decide) (by decide) rfl fun _ => ⟨_, rfl⟩

/-- The class file has one code array. -/
theorem codeArrays_twofold : codeArrays twofoldFile = .ok [some twofoldCode] := by
  have hcodes : ∀ n, ∃ cursor, readMethodCodes (Pool.ofEntries twofoldEntries)
      ⟨word16 33 ++ word16 2 ++ twofoldRest, n⟩ = .ok ([some twofoldCode], cursor) :=
    fun n => ⟨_, rfl⟩
  have hpool : Reads Pool.read (Pool.ofEntries twofoldEntries).bytes _ :=
    Pool.reads_read_ofEntries (by decide) (by decide) (by decide)
  have hpool := hpool (word16 33 ++ word16 2 ++ twofoldRest) 8
  obtain ⟨cursor, hcursor⟩ := hcodes _
  exact on_eq_ok_iff.2 ⟨cursor, bind_eq_ok_iff.2 ⟨magic, _, rfl, bind_eq_ok_iff.2 ⟨0, _, rfl,
    bind_eq_ok_iff.2 ⟨52, _, rfl, bind_eq_ok_iff.2 ⟨_, _, hpool, hcursor⟩⟩⟩⟩⟩

/-- Nothing that the class is written with is new to its pool. -/
theorem intern_twofold {e : Entry} (h : e ∈ twofoldEntries) :
    Pool.intern e (Pool.ofEntries twofoldEntries) =
      (.ok (twofoldEntries.idxOf e + 1).toUInt16, Pool.ofEntries twofoldEntries) :=
  Pool.intern_ofEntries_of_mem (by decide) (by decide) h

/-- The texts of the class file are found in its pool. -/
theorem utf8_twofold {text : String} (h : .utf8 text ∈ twofoldEntries)
    (htext : (ModifiedUtf8.encode text).length ≤ 65535) :
    Pool.utf8 text (Pool.ofEntries twofoldEntries) =
      (.ok (twofoldEntries.idxOf (.utf8 text) + 1).toUInt16, Pool.ofEntries twofoldEntries) :=
  Pool.utf8_ofEntries_of_mem (by decide) (by decide) htext h

/-- The body is written as it was read, and adds nothing to the pool. -/
theorem bodyBytes_twofold (method : String) :
    bodyBytes method twofoldBody (Pool.ofEntries twofoldEntries) =
      (.ok ([0, 1, 0, 2, 0, 0, 0, 17] ++ twofoldCode ++ [0, 0, 0, 0]),
        Pool.ofEntries twofoldEntries) := by
  have hforms : (twofoldBody.listing.handles.mapM fun h =>
      Form.choose (twofoldBody.listing.get h) (twofoldBody.listing.rawForm? h))
        (Pool.ofEntries twofoldEntries) = (.ok twofoldForms, Pool.ofEntries twofoldEntries) := rfl
  have hsettle : Layout.settle twofoldBody.listing.positions method twofoldForms =
      .ok (Layout.of twofoldBody.listing.positions twofoldForms) := by
    rw [Layout.settle]
    rfl
  refine poolBind_of_eq_ok hforms ?_
  rw [hsettle]
  rfl

/-- The class is written as it was read. -/
theorem encode_twofold : encode twofold = .ok twofoldFile := by
  have hname : Pool.ofClass "A" (Pool.ofEntries twofoldEntries) =
      (.ok 2, Pool.ofEntries twofoldEntries) :=
    poolBind_of_eq_ok (utf8_twofold (by decide) (by decide)) (intern_twofold (by decide))
  have hmethod : ∀ m ∈ twofold.methods, methodBytes m (Pool.ofEntries twofoldEntries) =
      (.ok ([0, 9, 0, 6, 0, 7, 0, 1, 0, 8, 0, 0, 0, 29, 0, 1, 0, 2, 0, 0, 0, 17] ++
        twofoldCode ++ [0, 0, 0, 0]), Pool.ofEntries twofoldEntries) := by
    intro m hm
    rw [List.mem_singleton.1 hm, methodBytes_eq]
    refine poolBind_of_eq_ok (utf8_twofold (by decide) (by decide)) ?_
    refine poolBind_of_eq_ok (utf8_twofold (by decide) (by decide)) ?_
    exact poolBind_of_eq_ok (poolBind_of_eq_ok (bodyBytes_twofold _)
      (poolBind_of_eq_ok (utf8_twofold (by decide) (by decide)) rfl)) rfl
  have hmethods : countedBytes twofold.methods methodBytes (Pool.ofEntries twofoldEntries) =
      (.ok (count16 1 ++ ([0, 9, 0, 6, 0, 7, 0, 1, 0, 8, 0, 0, 0, 29, 0, 1, 0, 2, 0, 0, 0, 17] ++
        twofoldCode ++ [0, 0, 0, 0])), Pool.ofEntries twofoldEntries) :=
    poolBind_of_eq_ok (poolBind_of_eq_ok (hmethod _ List.mem_cons_self) rfl) rfl
  have hrun : classBytes twofold (Pool.ofEntries twofoldEntries) =
      (.ok (word16 33 ++ word16 2 ++ twofoldRest), Pool.ofEntries twofoldEntries) :=
    poolBind_of_eq_ok hname (poolBind_of_eq_ok rfl (poolBind_of_eq_ok rfl (poolBind_of_eq_ok rfl
      (poolBind_of_eq_ok hmethods rfl))))
  exact encode_eq_ok_iff.2 ⟨_, _, hrun, rfl⟩

/-- The code array is regular. -/
theorem regularCode_twofold : RegularCode (Pool.ofEntries twofoldEntries) twofoldCode := by
  have hread : readInstructions (Pool.ofEntries twofoldEntries) twofoldCode = .ok
      [⟨0, .ofClass .new "A", ⟨.new, false, some 5⟩⟩, ⟨3, .slot .iload 1, ⟨.iload, true, none⟩⟩,
        ⟨7, .slot .iload 1, ⟨.iload, false, none⟩⟩, ⟨9, .slot .iload 1, ⟨⟨27⟩, false, none⟩⟩,
        ⟨10, .push (.int 7), ⟨.ldc, false, some 10⟩⟩,
        ⟨12, .jump .goto 0, ⟨.gotoW, false, none⟩⟩] := rfl
  intro code hcode
  rw [hread] at hcode
  cases hcode
  simp only [List.forall_mem_cons, List.not_mem_nil, false_imp_iff, implies_true, and_true]
  have hconstant : (Pool.ofEntries twofoldEntries).constantAt 10 = .ok (.int 7) := rfl
  refine ⟨?_, ?_, ?_, ?_, ?_, ?_⟩
  all_goals
    rintro ⟨op⟩ operands h
    cases h
    refine ⟨?_, ?_, ?_, ?_, ?_, ?_, ?_⟩
    all_goals
      first
      | exact fun hop => absurd hop (by decide)
      | intro _ c hc
        rw [show pushedIndex _ _ = 10 from rfl, hconstant] at hc
        cases hc
        first | rfl | exact id

/-- The constant stands twice in the pool, and its push keeps the place that it had. -/
theorem codeArrays_encode_twofold : decode twofoldFile = .ok twofold ∧
    encode twofold = .ok twofoldFile ∧ Short twofoldFile ∧
    RegularCode (Pool.ofEntries twofoldEntries) twofoldCode ∧
    ∃ codes', codeArrays twofoldFile = .ok codes' ∧ codes' = [some twofoldCode] := by
  have hshort : Short twofoldFile := by decide +kernel
  obtain ⟨pool, codes, codes', hpool, hcodes, hcodes', -, hkept⟩ :=
    codeArrays_encode decode_twofold encode_twofold hshort
  cases hpool
  rw [codeArrays_twofold] at hcodes
  cases hcodes
  refine ⟨decode_twofold, encode_twofold, hshort, regularCode_twofold, codes', hcodes', ?_⟩
  rcases hkept with _ | ⟨hfirst, hnil⟩
  cases hnil
  have hsame := hfirst (fun x hx => by
    cases hx
    exact regularCode_twofold)
  rw [hsame]

end Unscramble.Binary.ClassFile
