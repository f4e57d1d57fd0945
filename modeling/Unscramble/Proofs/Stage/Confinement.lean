import Unscramble.Proofs.Binary.OriginalPool
import Unscramble.Proofs.Naming.Precedence
import Unscramble.Proofs.Stage.ClassData

/-! # Data stays in its class

Parts that are carried along and bootstrap methods make sense in the class they were read in only.
The stages that rename and move members leave them there if no static member has any, as nothing
but static members moves; and as a writer only adds to a pool, their indices name the same entries
in the file that is written. A static member that has such data takes it along.

Main definitions: `Codebase.StaticsUnbound`, `Codebase.Confines`. Main statement: `confines_run`. -/

namespace Unscramble

open Binary Binary.ClassFile

/-! ### Members with data of their class -/

/-- Whether a field says something by indices of its class. -/
def Field.isBound (f : Field) : Bool :=
  f.classData ≠ {}

/-- Whether a method says something by indices of its class. -/
def Method.isBound (m : Method) : Bool :=
  m.classData ≠ {}

/-- A field that keeps its data stays bound to its class. -/
theorem Field.Keeps.isBound {f f' : Field} (h : f.Keeps f') : f'.isBound = f.isBound := by
  rw [Field.isBound, h.2, Field.isBound]

/-- A method that keeps its data stays bound to its class. -/
theorem Method.Keeps.isBound {m m' : Method} (h : m.Keeps m') : m'.isBound = m.isBound := by
  rw [Method.isBound, h.2, Method.isBound]

/-- No member of a class says anything by its indices. -/
structure Class.Unbound (c : Class) : Prop where
  /-- No field. -/
  fields : ∀ f ∈ c.fields, f.isBound = false
  /-- No method. -/
  methods : ∀ m ∈ c.methods, m.isBound = false

/-- No static member says anything by indices of its class. -/
structure Codebase.StaticsUnbound (p : Codebase) : Prop where
  /-- No static field. -/
  fields : ∀ f ∈ p.fields, f.isStatic = true → f.isBound = false
  /-- No static method. -/
  methods : ∀ m ∈ p.methods, m.isStatic = true → m.isBound = false

/-- Static members have no data of their class if those that they stem from have none. -/
theorem Codebase.StaticsUnbound.stems {p p' : Codebase} (hp : p.StaticsUnbound)
    (h : p.Stems Field.Keeps Method.Keeps p') : p'.StaticsUnbound := by
  constructor
  · intro f' hf' hstatic
    obtain ⟨f, hf, hkeeps⟩ := h.fields.exists_of_mem hf'
    rw [hkeeps.isBound]
    exact hp.fields f hf (hkeeps.1 ▸ hstatic)
  · intro m' hm' hstatic
    obtain ⟨m, hm, hkeeps⟩ := h.methods.exists_of_mem hm'
    rw [hkeeps.isBound]
    exact hp.methods m hm (hkeeps.1 ▸ hstatic)

/-! ### Classes that confine their data -/

/-- A class that was read and what has become of it: all data of a class in it was read in it, and
its indices name the same entries in the file that is written. -/
structure Class.Confines (c c' : Class) : Prop where
  /-- The same parts are carried along. -/
  attributes : c'.attributes = c.attributes
  /-- Fields with such data stem from fields of the class, with the data they had. -/
  fields : Drawn Field.Keeps (c.fields.filter Field.isBound) (c'.fields.filter Field.isBound)
  /-- Methods with such data stem from methods of the class, with the data they had. -/
  methods : Drawn Method.Keeps (c.methods.filter Method.isBound) (c'.methods.filter Method.isBound)
  /-- An index of the pool that was read names the same entry after writing. -/
  indices : ∀ bs d, encode c' = .ok bs → decode bs = .ok d → ∃ pool written,
    c.pool = some pool ∧ d.pool = some written ∧
      ∀ i e, pool.entryAt i = .ok e → written.entryAt i = .ok e

/-- What has become of classes that were read: they confine their data, and those that are added
behind them have none. -/
def Codebase.Confines (p p' : Codebase) : Prop :=
  ∃ kept added, p'.classes = kept ++ added ∧ List.Forall₂ Class.Confines p.classes kept ∧
    ∀ c ∈ added, c.Unbound

/-- What has such data stems from what had it if nothing static has any. -/
theorem drawn_filter {α : Type} {R : α → α → Prop} {static bound : α → Bool} {xs ys : List α}
    (h : Drawn R (xs.filter fun x => !static x) (ys.filter fun y => !static y))
    (hR : ∀ x y, R x y → bound y = bound x) (hys : ∀ y ∈ ys, static y = true → bound y = false) :
    Drawn R (xs.filter bound) (ys.filter bound) := by
  have hbound : (ys.filter fun y => !static y).filter bound = ys.filter bound := by
    rw [List.filter_filter]
    refine List.filter_congr fun y hy => ?_
    cases hstatic : static y with
    | false => simp
    | true => simp [hys y hy hstatic]
  rw [← hbound]
  exact (h.filter hR).of_subperm_left (List.filter_sublist.filter bound).subperm

/-- The pool of a class that is read. -/
theorem exists_pool_of_decode {bs : Bytes} {c : Class} (h : decode bs = .ok c) :
    ∃ pool, c.pool = some pool ∧ pool.Valid := by
  obtain ⟨pool, codes, -, hread⟩ := exists_codeArrays h
  exact ⟨pool, hread.kept, hread.valid⟩

/-- A class that was read and has kept its data confines it if no static member has any. -/
theorem Class.Remains.confines {bs : Bytes} {c c' : Class} {p : Codebase}
    (hread : decode bs = .ok c) (h : c.Remains c') (hp : p.StaticsUnbound) (hc' : c' ∈ p.classes) :
    c.Confines c' := by
  refine ⟨h.attributes, ?_, ?_, ?_⟩
  · exact drawn_filter h.fields (fun _ _ hf => hf.isBound)
      fun f hf => hp.fields f (List.mem_flatMap.2 ⟨c', hc', hf⟩)
  · exact drawn_filter h.methods (fun _ _ hm => hm.isBound)
      fun m hm => hp.methods m (List.mem_flatMap.2 ⟨c', hc', hm⟩)
  · intro bs' d hbs' hd
    obtain ⟨pool, hpool, hvalid⟩ := exists_pool_of_decode hread
    have hpool' : c'.pool.getD .empty = pool := by
      rw [h.pool, hpool]
      rfl
    obtain ⟨written, hwritten, hbelow⟩ := below_of_encode (hpool' ▸ hvalid) hbs' hd
    exact ⟨pool, written, hpool, hwritten, fun i e he => (hpool' ▸ hbelow).entryAt he⟩

/-- A class all of whose members are static has no data if no static member has any. -/
theorem Class.Stateless.unbound {c : Class} {p : Codebase} (h : c.Stateless)
    (hp : p.StaticsUnbound) (hc : c ∈ p.classes) : c.Unbound := by
  constructor
  · intro f hf
    refine hp.fields f (List.mem_flatMap.2 ⟨c, hc, hf⟩) ?_
    simpa using List.filter_eq_nil_iff.1 h.fields f hf
  · intro m hm
    refine hp.methods m (List.mem_flatMap.2 ⟨c, hc, hm⟩) ?_
    simpa using List.filter_eq_nil_iff.1 h.methods m hm

/-- **Data stays in its class**: whatever stages that rename and move members run over classes that
were read, in whatever order and however often, every class keeps the data of its instances, and if
no static member has any data of its class, then every class confines its data and an added class has
none. The static fields have to have different references whenever they may be gathered. -/
theorem confines_run {files : List Bytes} {p : Codebase} (hread : files.mapM decode = .ok p.classes)
    {settings : Settings} {journal : Journal} {plan : Plan}
    (hplan : ∀ stage ∈ plan, stage ∈ Stage.movers)
    (hunambiguous : plan.Unambiguous settings journal p) :
    let p' := (plan.run settings journal p).2.1
    p.Remains p' ∧ (p.StaticsUnbound → p.Confines p') := by
  have hremains := Plan.remains_run hplan hunambiguous
  refine ⟨hremains, fun hstatics => ?_⟩
  have hleft := hstatics.stems (Plan.stems_run nameless_keeps hplan settings journal p)
  obtain ⟨kept, added, hclasses, hkept, hadded⟩ := hremains
  refine ⟨kept, added, hclasses, ?_, ?_⟩
  · have hreadKept : List.Forall₂ (fun c c' => c.Remains c' ∧ ∃ bs, decode bs = .ok c) p.classes
        kept := by
      refine forall₂_of_mem_left hkept fun c hc c' hc' => ⟨hc', ?_⟩
      obtain ⟨bs, -, hbs⟩ := exists_of_mem_right (mapM_eq_ok_iff.1 hread) hc
      exact ⟨bs, hbs⟩
    refine (forall₂_of_mem_left hreadKept.flip (S := fun c' c => c.Confines c') ?_).flip
    rintro c' hc' c ⟨hc, bs, hbs⟩
    exact hc.confines hbs hleft (hclasses ▸ List.mem_append_left _ hc')
  · exact fun c hc => (hadded c hc).unbound hleft (hclasses ▸ List.mem_append_right _ hc)

/-! ### A field of a generic type -/

open Naming

/-- The pool of a class with a field of a generic type. -/
def genericEntries : List Entry :=
  [.utf8 "lib/Base", .ofClass 1, .utf8 "java/lang/Object", .ofClass 3, .utf8 "s",
    .utf8 "Ljava/util/List;", .utf8 "Signature", .utf8 "Ljava/util/List<Ljava/lang/String;>;"]

/-- The bytes of a class file with such a field, which may be static. -/
def genericFile (access : UInt8) : Bytes :=
  word32 magic ++ word16 0 ++ word16 52 ++ (Pool.ofEntries genericEntries).bytes ++
    (word16 0x21 ++ word16 2 ++ [0, 4, 0, 0, 0, 1, 0, access, 0, 5, 0, 6, 0, 1, 0, 7, 0, 0, 0, 2, 0,
      8, 0, 0, 0, 0])

/-- The class that is read. -/
def generic (access : UInt16) : Class :=
  { name := "lib/Base", superclass := some "java/lang/Object", access := ⟨0x21⟩
    fields :=
      [{ owner := "lib/Base", name := "s", descriptor := "Ljava/util/List;", access := ⟨access⟩
         attributes := [⟨"Signature", [0, 8]⟩] }]
    minorVersion := 0, majorVersion := 52, pool := some (Pool.ofEntries genericEntries) }

/-- The pool of a class without members. -/
def emptyEntries : List Entry :=
  [.utf8 "lib/Other", .ofClass 1, .utf8 "java/lang/Object", .ofClass 3]

/-- The bytes of its class file. -/
def emptyFile : Bytes :=
  word32 magic ++ word16 0 ++ word16 52 ++ (Pool.ofEntries emptyEntries).bytes ++
    (word16 0x21 ++ word16 2 ++ [0, 4, 0, 0, 0, 0, 0, 0, 0, 0])

/-- The class that is read. -/
def emptyClass : Class :=
  { name := "lib/Other", superclass := some "java/lang/Object", access := ⟨0x21⟩
    minorVersion := 0, majorVersion := 52, pool := some (Pool.ofEntries emptyEntries) }

/-- Both classes. -/
def genericPair (access : UInt16) : Codebase :=
  { classes := [generic access, emptyClass] }

/-- The class files are those of a class with a generic field. -/
theorem decode_genericFile : decode (genericFile 1) = .ok (generic 1) ∧
    decode (genericFile 9) = .ok (generic 9) :=
  ⟨decode_ofEntries (by decide) (by decide) (by decide) rfl fun _ => ⟨_, rfl⟩,
    decode_ofEntries (by decide) (by decide) (by decide) rfl fun _ => ⟨_, rfl⟩⟩

/-- The class file is one of an empty class. -/
theorem decode_emptyFile : decode emptyFile = .ok emptyClass :=
  decode_ofEntries (by decide) (by decide) (by decide) rfl fun _ => ⟨_, rfl⟩

/-- The static field is the one candidate. -/
theorem visited_genericPair : visited {} (genericPair 9) =
    [⟨⟨"lib/Base", "s", "Ljava/util/List;"⟩, "lib/Base.s:Ljava/util/List;", true⟩] :=
  rfl

/-- A table that moves the field. -/
def genericTable : Table :=
  ⟨[("lib/Base.s:Ljava/util/List;", .relocate "lib/Other" "s")]⟩

/-- Settings with this table. -/
def genericSettings : Settings :=
  { nameTable := some (.readable "lib/Base.s:Ljava/util/List;=lib/Other,s\n") }

/-- The text moves the field to the other class. -/
theorem parse_genericTable :
    Table.parse "lib/Base.s:Ljava/util/List;=lib/Other,s\n" = (genericTable, []) := by
  decide +kernel

/-- The field is to move. -/
theorem moves_genericPair : (Assignment.ofCodebase {} "deob" (genericPair 9) genericTable).moves =
    [(⟨"lib/Base", "s", "Ljava/util/List;"⟩, "lib/Other")] := by
  obtain ⟨φ, hφ⟩ := Option.isSome_iff_exists.1 (Families.isSome_family?_of_declared
    (m := ⟨"lib/Base", "s", "Ljava/util/List;"⟩) (p := genericPair 9) List.mem_cons_self
    List.mem_cons_self)
  -- The class to move to is in the table of present names, which holds two classes.
  have hpresent : (Assignment.presentNames (genericPair 9)
      (Assignment.ofClasses {} "deob" (genericPair 9) genericTable).names)["lib/Other"]? =
        some "lib/Other" := by
    rw [Assignment.presentNames]
    change (((∅ : Std.HashMap String String).insert (Renaming.onClassName {} "lib/Base")
      "lib/Base").insert (Renaming.onClassName {} "lib/Other") "lib/Other")["lib/Other"]? = _
    simp [Renaming.onClassName]
  rw [Assignment.ofCodebase_eq_foldl, visited_genericPair, List.foldl_cons, List.foldl_nil,
    Assignment.nameMember_of_family hφ]
  have hundecided : ¬ (Assignment.ofClasses {} "deob" (genericPair 9) genericTable).decided.contains
      φ = true := by
    change ¬ (∅ : Std.HashSet Nat).contains φ = true
    simp
  have hchoice : Assignment.chooseMapping (Assignment.markDecided φ
      (Assignment.ofClasses {} "deob" (genericPair 9) genericTable))
      ⟨⟨"lib/Base", "s", "Ljava/util/List;"⟩, "lib/Base.s:Ljava/util/List;", true⟩ =
        (some (.relocate "lib/Other" "s"), Assignment.markDecided φ
          (Assignment.ofClasses {} "deob" (genericPair 9) genericTable)) := rfl
  rw [if_neg hundecided]
  dsimp only
  rw [hchoice, Assignment.moves_followMapping_relocate hpresent]
  rfl

/-- The moved field has the data it had. -/
theorem classData_rename_genericPair : ∃ s p',
    (rename {} "deob" (genericPair 9) genericTable).result = .ok (s, p') ∧
      p'.classes.map (fun c => c.fields.map Field.classData) =
        [[], [{ attributes := [⟨"Signature", [0, 8]⟩] }]] := by
  have hmoved : (relocate (genericPair 9)
      [(⟨"lib/Base", "s", "Ljava/util/List;"⟩, "lib/Other")]).2 =
        .ok (1, { classes := [{ generic 9 with fields := [] },
          { emptyClass with fields := (generic 9).fields }] }) := rfl
  rw [rename_result, moves_genericPair, List.reverse_singleton]
  dsimp only
  rw [hmoved]
  refine ⟨_, _, rfl, ?_⟩
  rw [map_recordSources fun _ _ => rfl]
  simp only [Renaming.apply, Renaming.onClass, List.map_cons, List.map_nil, generic,
    Renaming.classData_onField]
  rfl

/-- A bound field stays in its class where all static fields are unbound. -/
theorem confines_run_generic :
    let plan : Plan := Stage.movers ++ Stage.movers
    [genericFile 1, emptyFile].mapM decode = .ok (genericPair 1).classes ∧
    (∀ stage ∈ plan, stage ∈ Stage.movers) ∧ plan.Unambiguous {} {} (genericPair 1) ∧
    (genericPair 1).StaticsUnbound ∧ (∃ f ∈ (genericPair 1).fields, f.isBound = true) ∧
    let p' := (Plan.run {} {} (genericPair 1) plan).2.1
    (genericPair 1).Remains p' ∧ ((genericPair 1).StaticsUnbound → (genericPair 1).Confines p') := by
  intro plan
  have hread : [genericFile 1, emptyFile].mapM decode = .ok (genericPair 1).classes :=
    mapM_eq_ok_iff.2 (.cons decode_genericFile.1 (.cons decode_emptyFile .nil))
  have hplan : ∀ stage ∈ plan, stage ∈ Stage.movers := by
    intro stage hstage
    rcases List.mem_append.1 hstage with h | h
    · exact h
    · exact h
  have hunambiguous : plan.Unambiguous {} {} (genericPair 1) :=
    Plan.unambiguous_of_length_le_one hplan (by decide)
  exact ⟨hread, hplan, hunambiguous, ⟨by decide, by decide⟩, by decide,
    confines_run hread hplan hunambiguous⟩

/-- A static field takes its signature along, which is an index into the pool that it leaves. -/
theorem run_carries_signature :
    [genericFile 9, emptyFile].mapM decode = .ok (genericPair 9).classes ∧
    (Pool.ofEntries genericEntries).utf8At 8 = .ok "Ljava/util/List<Ljava/lang/String;>;" ∧
    (Pool.ofEntries emptyEntries).utf8At 8 = .error (.badIndex 8) ∧
    let p' := (Plan.run genericSettings {} (genericPair 9) [Stage.remap.toStage]).2.1
    p'.classes.map (fun c => c.fields.map Field.classData) =
        [[], [{ attributes := [⟨"Signature", [0, 8]⟩] }]] ∧
      ¬ (genericPair 9).Confines p' := by
  refine ⟨mapM_eq_ok_iff.2 (.cons decode_genericFile.2 (.cons decode_emptyFile .nil)), rfl, rfl, ?_⟩
  intro p'
  have hdata : p'.classes.map (fun c => c.fields.map Field.classData) =
      [[], [{ attributes := [⟨"Signature", [0, 8]⟩] }]] := by
    obtain ⟨s, q, hresult, hdata⟩ := classData_rename_genericPair
    have hclasses : (Stage.remap.run genericSettings {} (genericPair 9)).codebase.classes =
        q.classes :=
      Stage.classes_run_remap rfl rfl (by rw [parse_genericTable]; exact hresult)
    change (Plan.run genericSettings {} (genericPair 9) [Stage.remap.toStage]).2.1.classes.map _ = _
    rw [Plan.codebase_run_singleton, ← hdata, ← hclasses]
    rfl
  refine ⟨hdata, ?_⟩
  rintro ⟨kept, added, hclasses, hkept, -⟩
  -- of the two classes, the second has no field that the moved one could stem from
  cases hkept with
  | @cons _ first _ rest _ hrest =>
    cases hrest with
    | @cons _ second _ _ hsecond _ =>
      rw [hclasses] at hdata
      have hfields : second.fields.map Field.classData =
          [{ attributes := [⟨"Signature", [0, 8]⟩] }] :=
        (List.cons.inj (List.cons.inj hdata).2).1
      obtain ⟨f, hfields, hf⟩ := List.map_eq_singleton_iff.1 hfields
      have hbound : f ∈ second.fields.filter Field.isBound := by
        rw [hfields, List.mem_filter, Field.isBound, hf]
        exact ⟨List.mem_singleton_self f, by decide⟩
      obtain ⟨origin, horigin, -⟩ := hsecond.fields.exists_of_mem hbound
      cases horigin

end Unscramble
