import Unscramble.Proofs.Binary.Insertions
import Unscramble.Proofs.Binary.OriginalPool
import Unscramble.Proofs.Lists

/-! # Loads of constants keep their width

A constant is loaded by an instruction that tells how many slots of the stack it takes. The writer
takes the wide instruction for numbers of 64 bits, and otherwise a narrow one whose operand holds
the index that the pool gives the constant, whatever form the load had when it was read. So in every
class that is written each load has the width of its constant, but for the dynamic constants of the
types long and double: these take two slots and are loaded as if they took one.

Main definitions: `Constant.takesTwo`, `Load`, `Loads`, `CodeSpelled`, `ClassFile.MethodWritten`.
Main statements: `yields_choose_push`, `codeSpelled_of_bytes`, `ClassFile.methodsWritten_of_encode`.
-/

namespace Unscramble

namespace Constant

/-- Whether a constant takes two slots of the stack. -/
def takesTwo : Constant → Bool
  | .long _ | .double _ => true
  | .dynamic _ _ type => Descriptor.isWide type
  | _ => false

/-- A constant of the type long or double that a bootstrap method computes. -/
def IsWideDynamic : Constant → Prop
  | .dynamic _ _ type => Descriptor.isWide type = true
  | _ => False

/-- Apart from dynamic ones, the constants that are encoded as wide take two slots. -/
theorem isWide_eq_takesTwo {c : Constant} (h : ¬c.IsWideDynamic) : c.isWide = c.takesTwo := by
  cases c with
  | dynamic bootstrap name type => exact (Bool.eq_false_iff.2 h).symm
  | _ => rfl

end Constant

namespace Binary

/-! ### Instructions that load constants -/

/-- The bytes that load the constant at an index, by whether it takes two slots. -/
inductive Load (i : UInt16) : (takesTwo : Bool) → Bytes → Prop
  /-- Two slots. -/
  | two : Load i true (Opcode.ldc2W.byte :: word16 i)
  /-- One slot, with an index of one byte. -/
  | near (h : i ≤ 0xff) : Load i false [Opcode.ldc.byte, i.toUInt8]
  /-- One slot, with an index of two bytes. -/
  | far : Load i false (Opcode.ldcW.byte :: word16 i)

/-- An index stands for a constant: a handle of a field does not lead through an interface there,
and one zero may stand for the other. -/
def StandsFor (q : Pool) (i : UInt16) (c : Constant) : Prop :=
  ∃ found, q.constantAt i = .ok found ∧ (found = Pool.asRead c ∨ found.agrees c = true)

/-- Some bytes load a constant by the instruction of this width. -/
def Loads (q : Pool) (c : Constant) (takesTwo : Bool) (bs : Bytes) : Prop :=
  ∃ i, StandsFor q i c ∧ Load i takesTwo bs

section Yields

variable {base : Pool}

/-- What a computation answers it answers for some pool, whose slots stay. -/
theorem Yields.ran {α : Type} {m : PoolM α} {post : α → Pool → Prop} (h : Yields base m post) :
    Yields base m fun a q => (∃ p p', p'.Below q ∧ m p = (.ok a, p')) ∧ post a q := by
  intro p a p' hp hbase hm
  obtain ⟨hvalid, hbelow, hpost⟩ := h p a p' hp hbase hm
  exact ⟨hvalid, hbelow, fun q hq => ⟨⟨p, p', hq, hm⟩, hpost q hq⟩⟩

/-- The index of a load stands for its constant, whether it was kept or added. -/
theorem yields_loadIndex (raw : Option RawForm) (c : Constant) :
    Yields base (reuse raw (holdsConstant c) (Pool.constant c)) fun i q => StandsFor q i c := by
  have hadd : Yields base (Pool.constant c) fun i q => StandsFor q i c := by
    have hread : Yields base _ _ := Pool.yields_constant (Pool.fitsHandle_asRead c)
    rw [Pool.constant_asRead] at hread
    exact hread.mono fun i q hi => ⟨_, hi.2, .inl rfl⟩
  refine yields_reuse hadd ?_
  intro p q i _ _ hq hi
  rw [holdsConstant] at hi
  split at hi
  · next found hfound => exact ⟨found, hq.constantAt hfound, .inr hi⟩
  · cases hi

/-- A load is written by the width of its encoding, with a short index only if that fits. -/
theorem yields_pushBytes_loads (raw : Option RawForm) (c : Constant) :
    Yields base (pushBytes raw c) fun bs q => Loads q c c.isWide bs := by
  refine (yields_loadIndex raw c).bind fun i => ?_
  split
  · next hwide =>
    rw [hwide]
    exact yields_pure fun q hi => ⟨i, hi, .two⟩
  · next hnarrow =>
    rw [Bool.eq_false_iff.2 hnarrow]
    split
    · next hshort =>
      have hbyte : i ≤ 0xff := of_decide_eq_true (Bool.and_eq_true_iff.1 hshort).1
      exact yields_pure fun q hi => ⟨i, hi, .near hbyte⟩
    · exact yields_pure fun q hi => ⟨i, hi, .far⟩

/-- If an instruction loads a constant that is no wide dynamic one, these bytes load it by the
instruction of its width. -/
def LoadsPushed (q : Pool) (insn : Instruction Label) (bs : Bytes) : Prop :=
  ∀ c, insn = .push c → ¬c.IsWideDynamic → Loads q c c.takesTwo bs

/-- If an instruction loads a constant, this form has bytes that load it by the width of its
encoding. -/
def LoadForm (q : Pool) (insn : Instruction Label) (form : Form) : Prop :=
  ∀ c, insn = .push c → ∃ bs, form = .fixed bs ∧ Loads q c c.isWide bs

/-- Only jumps are widened, and no load is one. -/
theorem LoadForm.widened {q : Pool} {insn : Instruction Label} {form form' : Form}
    (h : LoadForm q insn form) (hwidened : Widened form form') : LoadForm q insn form' := by
  intro c hc
  obtain ⟨bs, rfl, hbs⟩ := h c hc
  rcases hwidened with rfl | ⟨op, target, hjump, -, -⟩
  · exact ⟨bs, rfl, hbs⟩
  · cases hjump

/-- What such a form spells loads the constant by the number of its slots. -/
theorem LoadForm.loadsPushed {q : Pool} {insn : Instruction Label} {form : Form}
    (h : LoadForm q insn form) {offsetOf : Label → Except Malformation Nat} {start : Nat}
    {chunk : Bytes} (hchunk : form.bytes offsetOf start = .ok chunk) :
    LoadsPushed q insn chunk := by
  intro c hc hdynamic
  obtain ⟨bs, rfl, hbs⟩ := h c hc
  cases hchunk
  rw [← Constant.isWide_eq_takesTwo hdynamic]
  exact hbs

/-- A form is chosen by which a constant is pushed. -/
theorem yields_choose_push (insn : Instruction Label) (raw : Option RawForm) :
    Yields base (Form.choose insn raw) fun form q => LoadForm q insn form := by
  by_cases hpush : ∃ c, insn = .push c
  · obtain ⟨c, rfl⟩ := hpush
    refine (yields_pushBytes_loads raw c).bind_pure ?_
    intro bs q hbs c' hc'
    cases hc'
    exact ⟨bs, rfl, hbs⟩
  · -- of other instructions nothing is said but that they keep the pool
    exact (grows_choose insn raw).mono fun form q _ c hc => absurd ⟨c, hc⟩ hpush

/-! ### Code arrays -/

/-- A listing is spelled in chunks, one for each of its instructions: each chunk has the bytes that
the layout of the chosen forms gives the instruction, and those of a load have the width of its
constant. -/
structure CodeSpelled (q : Pool) (method : String) (l : Listing) (layout : Layout)
    (chunks : List Bytes) : Prop where
  /-- The layout is that of the forms that were chosen for the instructions. -/
  settled : ∃ p p' forms, p'.Below q ∧
    (l.handles.mapM fun h => Form.choose (l.get h) (l.rawForm? h)) p = (.ok forms, p') ∧
      Layout.settle l.positions method forms = .ok layout
  /-- Each form is spelled at its offset. -/
  spelled : List.Forall₂ (fun item chunk => item.1.bytes layout.offsetOf item.2 = .ok chunk)
    layout.located chunks
  /-- Each load has the width of its constant. -/
  loads : List.Forall₂ (LoadsPushed q) l.instructions chunks

/-- The bytes of a layout are spelled in chunks, although some jumps were widened on the way. -/
theorem codeSpelled_of_bytes {q : Pool} {method : String} {l : Listing} {forms : List Form}
    {layout : Layout} {code : Bytes}
    (hchosen : ∃ p p', p'.Below q ∧
      (l.handles.mapM fun h => Form.choose (l.get h) (l.rawForm? h)) p = (.ok forms, p'))
    (hforms : List.Forall₂ (fun h form => LoadForm q (l.get h) form) l.handles forms)
    (hsettle : Layout.settle l.positions method forms = .ok layout)
    (hcode : layout.bytes = .ok code) :
    ∃ chunks, code = chunks.flatten ∧ CodeSpelled q method l layout chunks := by
  obtain ⟨p, p', hbelow, hrun⟩ := hchosen
  obtain ⟨forms', rfl, hwidened, -⟩ := settle_eq_ok hsettle
  obtain ⟨chunks, rfl, hchunks⟩ := bytes_of_eq_ok hcode
  have hlocated : (Layout.of l.positions forms').located = forms'.zip (startsFrom 0 forms') :=
    Layout.located_of
  rw [← hlocated] at hchunks
  -- Widening changes jumps only, so a load keeps its form whatever rounds were needed.
  have hspelled : List.Forall₂ (fun form chunk => ∃ start,
      form.bytes (Layout.of l.positions forms').offsetOf start = .ok chunk) forms' chunks := by
    conv => arg 2; rw [← map_fst_located l.positions forms']
    rw [List.forall₂_map_left_iff]
    exact hchunks.imp fun item chunk hchunk => ⟨item.2, hchunk⟩
  have hsettled : List.Forall₂ (fun h form => LoadForm q (l.get h) form) l.handles forms' :=
    forall₂_trans (fun h form form' hform hwide => hform.widened hwide) hforms hwidened
  refine ⟨chunks, rfl, ⟨p, p', forms, hbelow, hrun, hsettle⟩, hchunks, ?_⟩
  rw [Listing.instructions, List.forall₂_map_left_iff]
  refine forall₂_trans ?_ hsettled hspelled
  rintro h form chunk hform ⟨start, hchunk⟩
  exact hform.loadsPushed hchunk

/-- A body is written with a code array in which each load has the width of its constant. -/
def BodyWritten (q : Pool) (method : String) (b : Body) (data : Bytes) : Prop :=
  ∃ layout chunks tail, CodeSpelled q method b.listing layout chunks ∧
    data = word16 b.maxStack ++ word16 b.maxLocals ++ count32 chunks.flatten.length ++
      chunks.flatten ++ tail

/-- A body is written as its instructions and tables say. -/
theorem yields_bodyBytes (method : String) (b : Body) :
    Yields base (bodyBytes method b) fun data q => BodyWritten q method b data := by
  have hforms : Yields base
      (b.listing.handles.mapM fun h => Form.choose (b.listing.get h) (b.listing.rawForm? h)) _ :=
    yields_mapM fun h _ => yields_choose_push (b.listing.get h) (b.listing.rawForm? h)
  rw [bodyBytes]
  refine hforms.ran.bind fun forms => ?_
  refine yields_settled.bind fun layout => ?_
  split
  · exact yields_throw
  refine yields_settled.bind fun code => ?_
  refine (yields_mapM fun g _ => yields_guardBytes layout g).bind fun guards => ?_
  refine Yields.bind (grows_linePart _) fun lines => ?_
  refine (yields_carriedParts b.attributes).bind_pure ?_
  intro parts q _ _ _ hcode hsettle hchosen
  -- the tables behind the code array only add to the pool, so its indices stay what they are
  obtain ⟨chunks, rfl, hspelled⟩ := codeSpelled_of_bytes hchosen.1 hchosen.2 hsettle hcode
  refine ⟨layout, chunks, partTable guards.flatten ++ partTable (lines ++ parts), hspelled, ?_⟩
  rw [List.append_assoc]

end Yields

namespace ClassFile

/-! ### Classes -/

/-- A method is written as the bytes of its declaration; if it has a body, that is the first part.
-/
def MethodWritten (q : Pool) (m : Method) (bs : Bytes) : Prop :=
  ∃ name descriptor parts,
    bs = word16 m.access.bits ++ word16 name ++ word16 descriptor ++ partTable parts ∧
      q.utf8At name = .ok m.name ∧ q.utf8At descriptor = .ok m.descriptor ∧
      ∀ b ∈ m.body, ∃ code more data, parts = code :: more ∧ Carries q code ⟨"Code", data⟩ ∧
        BodyWritten q m.text b data

variable {base : Pool}

/-- A method is written with its body, if it has one. -/
theorem yields_methodBytes_written (m : Method) :
    Yields base (methodBytes m) fun bs q => MethodWritten q m bs := by
  -- Of the parts only the code matters; that the others grow the pool is all that is asked of them.
  have hcode : Yields base (codePart m.text m.body) fun chunks q => ∀ b ∈ m.body,
      ∃ code data, chunks = [code] ∧ Carries q code ⟨"Code", data⟩ ∧
        BodyWritten q m.text b data := by
    cases m.body with
    | none => exact yields_pure fun q => by simp
    | some b =>
      refine (yields_part (yields_bodyBytes m.text b) "Code").mono ?_
      rintro chunks q ⟨data, hdata, hchunks⟩ b' hb'
      cases hb'
      obtain ⟨code, rest, hcarries, hrest, rfl⟩ := List.forall₂_cons_right_iff.1 hchunks
      cases hrest
      exact ⟨code, data, rfl, hcarries, hdata⟩
  rw [methodBytes_eq]
  refine (Pool.yields_utf8 m.name).bind fun i => (Pool.yields_utf8 m.descriptor).bind fun j => ?_
  refine hcode.bind fun chunks => ?_
  refine (writesParts_listPart "Exceptions" fun e _ =>
    (Pool.yields_ofClass e).grows.map word16).bind fun exceptions => ?_
  refine (writesParts_annotationParts m.annotations).bind fun annotations => ?_
  refine (yields_carriedParts m.attributes).bind_pure ?_
  intro carried q _ _ _ hchunks hj hi
  refine ⟨i, j, _, rfl, hi.2, hj.2, fun b hb => ?_⟩
  obtain ⟨code, data, rfl, hcarries, hdata⟩ := hchunks b hb
  exact ⟨code, exceptions ++ (annotations ++ carried), data, by simp, hcarries, hdata⟩

/-- All methods of a class are written one after the other behind their count. -/
theorem yields_classBytes_methods (c : Class) :
    Yields base (classBytes c) fun bs q => ∃ front chunks back,
      bs = front ++ (count16 c.methods.length ++ chunks.flatten) ++ back ∧
        List.Forall₂ (MethodWritten q) c.methods chunks := by
  refine (Pool.yields_ofClass c.name).bind fun i => ?_
  refine (yields_indexOrZero Pool.yields_ofClass c.superclass).bind fun superclass => ?_
  refine (yields_countedBytes fun name _ => (Pool.yields_ofClass name).grows.map word16).bind
    fun interfaces => ?_
  refine (yields_countedBytes fun f _ => grows_fieldBytes f).bind fun fields => ?_
  refine (yields_countedBytes fun m _ => yields_methodBytes_written m).bind fun methods => ?_
  refine Yields.bind_pure (grows_classParts c) ?_
  rintro parts q - ⟨chunks, rfl, hchunks⟩ - - - -
  exact ⟨_, chunks, partTable parts, rfl, hchunks⟩

/-- A class that is written has a pool and methods in which every load of a constant that is no wide
dynamic one has the width of its constant and leads to the constant in the pool. -/
theorem methodsWritten_of_encode {c : Class} {bs : Bytes} (hvalid : (c.pool.getD .empty).Valid)
    (hencode : encode c = .ok bs) :
    ∃ q front chunks back,
      bs = word32 magic ++ word16 c.minorVersion ++ word16 c.majorVersion ++ q.bytes ++
        (front ++ (count16 c.methods.length ++ chunks.flatten) ++ back) ∧
      List.Forall₂ (MethodWritten q) c.methods chunks := by
  obtain ⟨body, q, hrun, rfl⟩ := encode_eq_ok_iff.1 hencode
  obtain ⟨-, -, hpost⟩ := yields_classBytes_methods c _ _ _ hvalid (Pool.Below.refl _) hrun
  obtain ⟨front, chunks, back, rfl, hchunks⟩ := hpost q (Pool.Below.refl q)
  exact ⟨q, front, chunks, back, rfl, hchunks⟩

/-- The method of the class is written with its body. -/
theorem methodsWritten_of_encode_twofold :
    ((twofold.pool.getD .empty).Valid ∧ encode twofold = .ok twofoldFile) ∧
      ∃ q front chunks back,
        twofoldFile = word32 magic ++ word16 twofold.minorVersion ++ word16 twofold.majorVersion ++
          q.bytes ++ (front ++ (count16 twofold.methods.length ++ chunks.flatten) ++ back) ∧
        List.Forall₂ (MethodWritten q) twofold.methods chunks := by
  have hvalid : (twofold.pool.getD .empty).Valid := by
    obtain ⟨p, hp, hvalid, -⟩ := hasPool_of_decode decode_twofold
    rw [hp]
    exact hvalid
  exact ⟨⟨hvalid, encode_twofold⟩, methodsWritten_of_encode hvalid encode_twofold⟩

/-! ### A dynamic constant of the type long -/

/-- A pool with a dynamic constant of the type long and its bootstrap method. -/
def dynamicLongEntries : List Entry :=
  [.utf8 "A", .ofClass 1, .utf8 "java/lang/Object", .ofClass 3, .utf8 "m", .utf8 "()V",
    .utf8 "Code", .utf8 "c", .utf8 "J", .nameAndType 8 9, .dynamic 0 10, .utf8 "BootstrapMethods",
    .utf8 "b",
    .utf8 "(Ljava/lang/invoke/MethodHandles$Lookup;Ljava/lang/String;Ljava/lang/Class;)J",
    .nameAndType 13 14, .member .method 2 15, .methodHandle 6 16]

/-- The bytes of a body with two stack slots, by its code array. -/
def dynamicLongData (code : Bytes) : Bytes :=
  [0, 2, 0, 0] ++ count32 code.length ++ code ++ [0, 0, 0, 0]

/-- What stands behind the name of the class, by the code array of its method. -/
def dynamicLongRest (code : Bytes) : Bytes :=
  [0, 4, 0, 0, 0, 0, 0, 1, 0, 9, 0, 5, 0, 6, 0, 1, 0, 7] ++
    count32 (dynamicLongData code).length ++ dynamicLongData code ++
    [0, 1, 0, 12, 0, 0, 0, 6, 0, 1, 0, 17, 0, 0]

/-- The bytes of the class file, by the code array of its method. -/
def dynamicLongFile (code : Bytes) : Bytes :=
  word32 magic ++ word16 0 ++ word16 55 ++ (Pool.ofEntries dynamicLongEntries).bytes ++
    (word16 33 ++ word16 2 ++ dynamicLongRest code)

/-- The constant is loaded into two slots, and both are dropped. -/
def dynamicLongCode : Bytes :=
  [Opcode.ldc2W.byte, 0, 11, Opcode.pop2.byte, Opcode.returnVoid.byte]

/-- The constant is loaded into one slot, and two are dropped. -/
def dynamicLongRewritten : Bytes :=
  [Opcode.ldc.byte, 11, Opcode.pop2.byte, Opcode.returnVoid.byte]

/-- The body that the code array is read as. -/
def dynamicLongBody : Body :=
  { listing := ⟨#[⟨.push (.dynamic 0 "c" "J"), some ⟨.ldc2W, false, some 11⟩⟩,
      ⟨.plain .pop2, some ⟨.pop2, false, none⟩⟩,
      ⟨.plain .returnVoid, some ⟨.returnVoid, false, none⟩⟩], #[0, 1, 2]⟩
    maxStack := 2, maxLocals := 0 }

/-- The class that is read. -/
def dynamicLong : Class :=
  { name := "A", superclass := some "java/lang/Object", access := ⟨33⟩
    methods := [{ owner := "A", name := "m", descriptor := "()V", access := ⟨9⟩
                  body := some dynamicLongBody }]
    attributes := [⟨"BootstrapMethods", [0, 1, 0, 17, 0, 0]⟩]
    minorVersion := 0, majorVersion := 55, pool := some (Pool.ofEntries dynamicLongEntries) }

/-- The class file is one of a class with a wide dynamic constant. -/
theorem decode_dynamicLong : decode (dynamicLongFile dynamicLongCode) = .ok dynamicLong :=
  decode_ofEntries (by decide) (by decide) (by decide) rfl fun _ => ⟨_, rfl⟩

/-- The class file has the code array that stands in it. -/
theorem codeArrays_dynamicLong {code : Bytes}
    (h : ∀ n, ∃ cursor, readMethodCodes (Pool.ofEntries dynamicLongEntries)
      ⟨word16 33 ++ word16 2 ++ dynamicLongRest code, n⟩ = .ok ([some code], cursor)) :
    codeArrays (dynamicLongFile code) = .ok [some code] := by
  have hpool : Reads Pool.read (Pool.ofEntries dynamicLongEntries).bytes _ :=
    Pool.reads_read_ofEntries (by decide) (by decide) (by decide)
  have hpool := hpool (word16 33 ++ word16 2 ++ dynamicLongRest code) 8
  obtain ⟨cursor, hcursor⟩ := h _
  exact on_eq_ok_iff.2 ⟨cursor, bind_eq_ok_iff.2 ⟨magic, _, rfl, bind_eq_ok_iff.2 ⟨0, _, rfl,
    bind_eq_ok_iff.2 ⟨55, _, rfl, bind_eq_ok_iff.2 ⟨_, _, hpool, hcursor⟩⟩⟩⟩⟩

/-- Nothing that the class is written with is new to its pool. -/
theorem intern_dynamicLong {e : Entry} (h : e ∈ dynamicLongEntries) :
    Pool.intern e (Pool.ofEntries dynamicLongEntries) =
      (.ok (dynamicLongEntries.idxOf e + 1).toUInt16, Pool.ofEntries dynamicLongEntries) :=
  Pool.intern_ofEntries_of_mem (by decide) (by decide) h

/-- The texts of the class file are found in its pool. -/
theorem utf8_dynamicLong {text : String} (h : .utf8 text ∈ dynamicLongEntries)
    (htext : (ModifiedUtf8.encode text).length ≤ 65535) :
    Pool.utf8 text (Pool.ofEntries dynamicLongEntries) =
      (.ok (dynamicLongEntries.idxOf (.utf8 text) + 1).toUInt16,
        Pool.ofEntries dynamicLongEntries) :=
  Pool.utf8_ofEntries_of_mem (by decide) (by decide) htext h

/-- The body is written with a narrow push, and adds nothing to the pool. -/
theorem bodyBytes_dynamicLong (method : String) :
    bodyBytes method dynamicLongBody (Pool.ofEntries dynamicLongEntries) =
      (.ok (dynamicLongData dynamicLongRewritten), Pool.ofEntries dynamicLongEntries) := by
  have hforms : (dynamicLongBody.listing.handles.mapM fun h =>
      Form.choose (dynamicLongBody.listing.get h) (dynamicLongBody.listing.rawForm? h))
        (Pool.ofEntries dynamicLongEntries) =
      (.ok [.fixed [18, 11], .fixed [88], .fixed [177]], Pool.ofEntries dynamicLongEntries) := rfl
  have hsettle : Layout.settle dynamicLongBody.listing.positions method
      [.fixed [18, 11], .fixed [88], .fixed [177]] =
      .ok (Layout.of dynamicLongBody.listing.positions
        [.fixed [18, 11], .fixed [88], .fixed [177]]) := by
    rw [Layout.settle]
    rfl
  refine poolBind_of_eq_ok hforms ?_
  rw [hsettle]
  rfl

/-- The classes of the class file are found in its pool. -/
theorem ofClass_dynamicLong {name : String} (htext : .utf8 name ∈ dynamicLongEntries)
    (hlength : (ModifiedUtf8.encode name).length ≤ 65535) {i : UInt16}
    (hi : (dynamicLongEntries.idxOf (.utf8 name) + 1).toUInt16 = i)
    (hclass : .ofClass i ∈ dynamicLongEntries) :
    Pool.ofClass name (Pool.ofEntries dynamicLongEntries) =
      (.ok (dynamicLongEntries.idxOf (.ofClass i) + 1).toUInt16,
        Pool.ofEntries dynamicLongEntries) := by
  subst hi
  exact poolBind_of_eq_ok (utf8_dynamicLong htext hlength) (intern_dynamicLong hclass)

/-- The methods are written with the body, and add nothing to the pool. -/
theorem methods_dynamicLong :
    countedBytes dynamicLong.methods methodBytes (Pool.ofEntries dynamicLongEntries) =
      (.ok (count16 1 ++ ([0, 9, 0, 5, 0, 6, 0, 1, 0, 7] ++
        count32 (dynamicLongData dynamicLongRewritten).length ++
        dynamicLongData dynamicLongRewritten)), Pool.ofEntries dynamicLongEntries) := by
  have hmethod : ∀ m ∈ dynamicLong.methods, methodBytes m (Pool.ofEntries dynamicLongEntries) =
      (.ok ([0, 9, 0, 5, 0, 6, 0, 1, 0, 7] ++
        count32 (dynamicLongData dynamicLongRewritten).length ++
        dynamicLongData dynamicLongRewritten), Pool.ofEntries dynamicLongEntries) := by
    intro m hm
    rw [List.mem_singleton.1 hm, methodBytes_eq]
    refine poolBind_of_eq_ok (utf8_dynamicLong (by decide) (by decide)) ?_
    refine poolBind_of_eq_ok (utf8_dynamicLong (by decide) (by decide)) ?_
    exact poolBind_of_eq_ok (poolBind_of_eq_ok (bodyBytes_dynamicLong _)
      (poolBind_of_eq_ok (utf8_dynamicLong (by decide) (by decide)) rfl)) rfl
  exact poolBind_of_eq_ok (poolBind_of_eq_ok (hmethod _ List.mem_cons_self) rfl) rfl

/-- The attributes of the class are written, and add nothing to the pool. -/
theorem classParts_dynamicLong : classParts dynamicLong (Pool.ofEntries dynamicLongEntries) =
    (.ok [[0, 12, 0, 0, 0, 6, 0, 1, 0, 17, 0, 0]], Pool.ofEntries dynamicLongEntries) := by
  rw [classParts_eq]
  refine poolBind_of_eq_ok rfl (poolBind_of_eq_ok rfl (poolBind_of_eq_ok rfl ?_))
  exact poolBind_of_eq_ok (poolBind_of_eq_ok (poolBind_of_eq_ok (poolBind_of_eq_ok rfl
    (poolBind_of_eq_ok (utf8_dynamicLong (by decide) (by decide)) rfl)) rfl) rfl) rfl

/-- The class is written with another code array than it was read with. -/
theorem encode_dynamicLong : encode dynamicLong = .ok (dynamicLongFile dynamicLongRewritten) := by
  have hrun : classBytes dynamicLong (Pool.ofEntries dynamicLongEntries) =
      (.ok (word16 33 ++ word16 2 ++ dynamicLongRest dynamicLongRewritten),
        Pool.ofEntries dynamicLongEntries) := by
    refine poolBind_of_eq_ok (ofClass_dynamicLong (by decide) (by decide) rfl (by decide)) ?_
    refine poolBind_of_eq_ok (ofClass_dynamicLong (by decide) (by decide) rfl (by decide)) ?_
    exact poolBind_of_eq_ok rfl (poolBind_of_eq_ok rfl (poolBind_of_eq_ok methods_dynamicLong
      (poolBind_of_eq_ok classParts_dynamicLong rfl)))
  exact encode_eq_ok_iff.2 ⟨_, _, hrun, rfl⟩

/-- The load of a dynamic constant of the type long does not keep its width, not even in a body that
is encoded as it was decoded. -/
theorem codeArrays_encode_dynamicLong :
    (Constant.dynamic 0 "c" "J").takesTwo = true ∧
      decode (dynamicLongFile dynamicLongCode) = .ok dynamicLong ∧
      codeArrays (dynamicLongFile dynamicLongCode) =
        .ok [some [Opcode.ldc2W.byte, 0, 11, Opcode.pop2.byte, Opcode.returnVoid.byte]] ∧
      ∃ file, encode dynamicLong = .ok file ∧ codeArrays file =
        .ok [some [Opcode.ldc.byte, 11, Opcode.pop2.byte, Opcode.returnVoid.byte]] :=
  ⟨rfl, decode_dynamicLong, codeArrays_dynamicLong fun _ => ⟨_, rfl⟩, _, encode_dynamicLong,
    codeArrays_dynamicLong fun _ => ⟨_, rfl⟩⟩

end ClassFile

end Binary

end Unscramble
