import Unscramble.Proofs.Binary.CodeArray
import Unscramble.Proofs.Binary.Limits
import Unscramble.Proofs.Labels.Rewrites
import Unscramble.Proofs.Stage.Members
import Unscramble.Stage.Plan

/-! # Stages keep labels and ranges

Every stage leaves methods that stem from methods that were there, each of its own, and whose bodies
became what they are by edits that keep labels and ranges.

A body that is read has all labels linked that it refers to. So whatever stages run over classes that
were read, in whatever order and however often, nothing that is left refers to a label which is not
there, every range that is left begins before it ends if it did when it was read, and writing the
classes fails for no label.

Main definition: `Codebase.Becomes`. Main statements: `becomes_of_mem_all`, `Plan.becomes_run`,
`intact_of_decode`, `labelsLinked_run`. -/

namespace Unscramble

open scoped List

/-- A method keeps its body or what becomes of it. -/
def Method.Becomes (m m' : Method) : Prop :=
  Option.Rel Body.Becomes m.body m'.body

namespace Method

variable {m m' m'' : Method}

/-- A method with the same body has become of another one. -/
theorem Becomes.of_eq (h : m'.body = m.body) : m.Becomes m' := by
  rw [Becomes, h]
  cases m.body with
  | none => exact .none
  | some b => exact .some (Body.Becomes.refl b)

/-- A method has become of itself. -/
theorem Becomes.refl (m : Method) : m.Becomes m :=
  .of_eq rfl

/-- What has become of a method that has become of another one has become of that one. -/
theorem Becomes.trans (h : m.Becomes m') (h' : m'.Becomes m'') : m.Becomes m'' := by
  rw [Becomes] at h h' ⊢
  generalize m.body = b at h
  generalize m'.body = b' at h h'
  generalize m''.body = b'' at h'
  cases h with
  | none =>
    cases h'
    exact .none
  | some h =>
    cases h' with
    | some h' => exact .some (h.trans h')

/-- A method has become of another one if its body has. -/
theorem becomes_withBody {b b' : Body} (hb : m.body = some b) (h : b.Becomes b') :
    m.Becomes { m with body := some b' } := by
  rw [Becomes, hb]
  exact .some h

end Method

/-- The methods of a list stem from others, each from one of its own. -/
abbrev MethodsBecome (ms ms' : List Method) : Prop :=
  Drawn Method.Becomes ms ms'

/-- What becomes of a class keeps labels and ranges. -/
def Class.Becomes (c c' : Class) : Prop :=
  MethodsBecome c.methods c'.methods

/-- What becomes of a codebase keeps labels and ranges. -/
def Codebase.Becomes (p p' : Codebase) : Prop :=
  MethodsBecome p.methods p'.methods

/-- What methods have become of in two steps they have become of. -/
theorem MethodsBecome.trans {ms ms' ms'' : List Method} (h : MethodsBecome ms ms')
    (h' : MethodsBecome ms' ms'') : MethodsBecome ms ms'' :=
  Drawn.trans (R := Method.Becomes) (S := Method.Becomes) (fun _ _ _ hm hm' => hm.trans hm') h h'

/-- Methods that are left of others have become of them. -/
theorem MethodsBecome.of_subperm {ms ms' : List Method} (h : ms' <+~ ms) : MethodsBecome ms ms' :=
  Drawn.of_subperm Method.Becomes.refl h

/-- A class that is left with some of its methods has become of the class with all of them. -/
theorem Class.Becomes.of_subperm {c c' : Class} (h : c'.methods <+~ c.methods) : c.Becomes c' :=
  MethodsBecome.of_subperm h

/-- A class has become of itself. -/
theorem Class.Becomes.refl (c : Class) : c.Becomes c :=
  .of_subperm (List.Subperm.refl _)

/-- What has become of a class that has become of another one has become of that one. -/
theorem Class.Becomes.trans {c c' c'' : Class} (h : c.Becomes c') (h' : c'.Becomes c'') :
    c.Becomes c'' :=
  MethodsBecome.trans h h'

namespace Codebase

variable {p p' p'' : Codebase}

/-- A codebase that is left with some of its methods has become of the one with all of them. -/
theorem Becomes.of_subperm (h : p'.methods <+~ p.methods) : p.Becomes p' :=
  MethodsBecome.of_subperm h

/-- A codebase has become of itself. -/
theorem Becomes.refl (p : Codebase) : p.Becomes p :=
  .of_subperm (List.Subperm.refl _)

/-- What has become of a codebase that has become of another one has become of that one. -/
theorem Becomes.trans (h : p.Becomes p') (h' : p'.Becomes p'') : p.Becomes p'' :=
  MethodsBecome.trans h h'

/-- Classes that change one by one. -/
theorem becomes_of_classes (h : List.Forall₂ Class.Becomes p.classes p'.classes) : p.Becomes p' :=
  Drawn.flatMap h

/-- The bodies of a codebase stem from bodies that were there. -/
theorem Becomes.bodies (h : p.Becomes p') : Drawn Body.Becomes p.bodies p'.bodies :=
  Drawn.filterMap h fun _ _ hbody => hbody

end Codebase

open Codebase (Becomes)

/-! ### Transforms -/

/-- The hooks of a transform keep labels and ranges. -/
structure Transform.Keeps {σ : Type} (t : Transform σ) : Prop where
  /-- Before the first pass. -/
  beforeAll : t.beforeAll.Respects Becomes
  /-- At each class. -/
  onClass : t.onClass.Respects Class.Becomes
  /-- In front of each body. -/
  beforeBody : t.beforeBody.Respects Method.Becomes
  /-- At each body. -/
  onBody : ∀ m, (t.onBody m).Respects Body.Becomes
  /-- Behind each body. -/
  afterBody : t.afterBody.Respects Method.Becomes
  /-- At the end of each pass. -/
  onPass : t.onPass.Respects Becomes
  /-- After the last pass. -/
  afterAll : t.afterAll.Respects Becomes

namespace Transform

variable {σ : Type} {t : Transform σ}

/-- A pass keeps labels and ranges if the hooks do. -/
theorem Keeps.pass (h : t.Keeps) : t.pass.Respects Becomes := by
  have hvisit : t.visitMethod.Respects Method.Becomes :=
    respects_visitMethod Method.Becomes.refl (fun _ _ _ h h' => h.trans h') h.beforeBody h.onBody
      (fun m b b' hb => Method.becomes_withBody hb) h.afterBody
  have hfield : t.onField.Respects fun _ _ => True := fun _ _ => trivial
  exact respects_pass (fun _ _ _ h h' => h.trans h') (fun _ _ _ h h' => h.trans h')
    Class.Becomes.refl (fun _ => trivial) Method.Becomes.refl h.onClass hfield hvisit
    (fun c _ _ => Class.Becomes.refl c) (fun _ _ h => Drawn.of_forall₂ h)
    (fun _ _ h => Codebase.becomes_of_classes h) h.onPass

/-- A run keeps labels and ranges if the hooks do. -/
theorem Keeps.run (h : t.Keeps) (settings : Settings) (journal : Journal) (p : Codebase) :
    p.Becomes (t.toStage.run settings journal p).2.1 :=
  run_respects (fun _ _ _ h h' => h.trans h') Becomes.refl h.beforeAll h.pass h.afterAll settings
    journal p

/-- A hook that does nothing keeps labels and ranges. -/
theorem becomes_idle : (Hook.idle : Hook σ Codebase).Respects Becomes :=
  Hook.respects_idle Becomes.refl

/-- A transform of bodies. -/
theorem keeps_bodies {name : String} {start : σ} {beforeAll : Hook σ Codebase}
    {onBody : Method → Hook σ Body} (hbefore : beforeAll.Respects Becomes)
    (hbody : ∀ m, (onBody m).Respects Body.Becomes) :
    Transform.Keeps { name, start, beforeAll, onBody } where
  beforeAll := hbefore
  onClass := Hook.respects_idle Class.Becomes.refl
  beforeBody := Hook.respects_idle Method.Becomes.refl
  onBody := hbody
  afterBody := Hook.respects_idle Method.Becomes.refl
  onPass := becomes_idle
  afterAll := becomes_idle

/-- A transform of whole codebases. -/
theorem keeps_passes {name : String} {start : σ} {beforeAll onPass afterAll : Hook σ Codebase}
    (hbefore : beforeAll.Respects Becomes) (hpass : onPass.Respects Becomes)
    (hafter : afterAll.Respects Becomes) :
    Transform.Keeps { name, start, beforeAll, onPass, afterAll } where
  beforeAll := hbefore
  onClass := Hook.respects_idle Class.Becomes.refl
  beforeBody := Hook.respects_idle Method.Becomes.refl
  onBody _ := Hook.respects_idle Body.Becomes.refl
  afterBody := Hook.respects_idle Method.Becomes.refl
  onPass := hpass
  afterAll := hafter

/-- A transform of declarations. -/
theorem keeps_declarations {name : String} {start : σ} {onClass : Hook σ Class}
    {onField : Hook σ Field} {beforeBody : Hook σ Method}
    (hclass : onClass.Respects Class.Becomes) (hbefore : beforeBody.Respects Method.Becomes) :
    Transform.Keeps { name, start, onClass, onField, beforeBody } where
  beforeAll := becomes_idle
  onClass := hclass
  beforeBody := hbefore
  onBody _ := Hook.respects_idle Body.Becomes.refl
  afterBody := Hook.respects_idle Method.Becomes.refl
  onPass := becomes_idle
  afterAll := becomes_idle

end Transform

namespace Stage

open Transform

variable {σ α : Type}

/-! ### Stages for method bodies -/

/-- A change of each item of a list that threads a state through. -/
theorem forall₂_mapThrough {R : α → α → Prop} {f : σ → α → σ × α}
    (hf : ∀ s a, R a (f s a).2) (s : σ) (as : List α) :
    List.Forall₂ R as (mapThrough f s as).2 := by
  induction as generalizing s with
  | nil => exact .nil
  | cons a as ih => exact .cons (hf s a) (ih _)

/-- A codebase without the initializers of obstructors has become of the one with them. -/
theorem becomes_removeAllInitializers (p : Codebase) : p.Becomes (removeAllInitializers p).2 := by
  refine Codebase.becomes_of_classes (forall₂_mapThrough (fun found c => ?_) [] p.classes)
  refine Drawn.of_forall₂ (forall₂_mapThrough (fun found m => ?_) found c.methods)
  rw [removeMethodInitializers.eq_def]
  split
  · exact Method.Becomes.refl m
  · next b hb => exact Method.becomes_withBody hb (Idiom.becomes_removeInitializers b)

/-- The stage that removes opaque predicates only makes bodies become of bodies. -/
theorem respects_opaquePredicate (m : Method) :
    (opaquePredicate.onBody m).Respects Body.Becomes := by
  intro b c
  dsimp only [opaquePredicate]
  split
  · exact Body.Becomes.refl b
  · exact Idiom.becomes_removePredicates c.state b

/-- The stage that removes unreachable code only makes bodies become of bodies. -/
theorem respects_unreachableCode (m : Method) :
    (unreachableCode.onBody m).Respects Body.Becomes := by
  intro b c
  have h := Flow.becomes_removeUnreachable b
  dsimp only [unreachableCode]
  split
  · exact h
  · exact h

/-- The stage that removes redundant jumps only makes bodies become of bodies. -/
theorem respects_redundantGoto (m : Method) :
    (redundantGoto.onBody m).Respects Body.Becomes := by
  refine Hook.Respects.andThen ?_ (fun b _ => Flow.becomes_normalize b)
    fun _ _ _ h h' => h.trans h'
  intro b c
  rw [drawBody]
  split
  · exact Body.Becomes.refl b
  · dsimp only
    split
    · exact Body.Becomes.refl b
    · exact Body.Becomes.refl b

/-- The stage that splits slots only makes codebases become of codebases. -/
theorem respects_variableSplitter : variableSplitter.onPass.Respects Becomes := by
  intro p c
  refine Codebase.becomes_of_classes (forall₂_mapThrough (fun splits k => ?_) [] p.classes)
  refine Drawn.of_forall₂ (forall₂_mapThrough (fun splits m => ?_) splits k.methods)
  rw [splitMethod.eq_def]
  split
  · exact Method.Becomes.refl m
  · next b hb =>
    split
    · exact Method.Becomes.refl m
    · next split b' hsplit => exact Method.becomes_withBody hb (Slot.becomes_split hsplit)

/-! ### Stages for classes and members -/

/-- A change of each class that leaves methods out. -/
theorem becomes_map {p : Codebase} {f : Class → Class}
    (hf : ∀ c : Class, (f c).methods <+~ c.methods) :
    p.Becomes { p with classes := p.classes.map f } :=
  Codebase.becomes_of_classes (List.forall₂_map_right_iff.2
    (List.forall₂_same.2 fun c _ => .of_subperm (hf c)))

/-- The stage that removes unused methods only makes codebases become of codebases. -/
theorem respects_unusedMethods : unusedMethods.onPass.Respects Becomes := by
  refine Hook.respects_counting fun p => becomes_map fun c => ?_
  rw [Tidy.withoutUncalled]
  split
  · exact List.Subperm.refl _
  · exact List.filter_sublist.subperm

/-- Sorting the methods of a class loses none. -/
theorem becomes_sortMethods (c : Class) : c.Becomes (Tidy.sortMethods c).2 := by
  refine .of_subperm (List.Perm.subperm ?_)
  have hsorted := (List.mergeSort_perm (c.methods.map fun m => (Tidy.firstLine? m, m))
    fun a b => (Tidy.compareRanks a.1 b.1).isLE).map (·.2)
  rw [List.map_map] at hsorted
  exact hsorted.trans (List.Perm.of_eq (List.map_id' c.methods))

/-- A change of the access of a declaration. -/
theorem respects_widening {R : α → α → Prop} {counter : String} {access : α → Access}
    {setAccess : α → Access → α} {widen : Access → Access} (hrefl : ∀ a, R a a)
    (h : ∀ a access, R a (setAccess a access)) :
    (widening counter access setAccess widen).Respects R := by
  intro a c
  rw [widening.eq_def]
  dsimp only
  split
  · exact hrefl a
  · exact h a _

/-- A change of the annotations of a declaration. -/
theorem respects_clearing {R : α → α → Prop} {annotations : α → List Annotation}
    {setAnnotations : α → List Annotation → α} (hrefl : ∀ a, R a a)
    (h : ∀ a annotations, R a (setAnnotations a annotations)) :
    (clearing annotations setAnnotations).Respects R := by
  intro a c
  rw [clearing.eq_def]
  split
  · exact hrefl a
  · exact h a _

/-- Where a method stands, what it is called and who may call it are no parts of its body. -/
theorem nameless_becomes : Nameless (fun _ _ => True) Method.Becomes where
  reflField _ := trivial
  transField _ _ _ _ _ := trivial
  onField _ _ _ := trivial
  fieldAccess _ _ _ := trivial
  reflMethod := Method.Becomes.refl
  transMethod _ _ _ h h' := h.trans h'
  onMethod r owner m := by
    rw [Method.Becomes]
    change Option.Rel Body.Becomes m.body (m.body.map r.onBody)
    cases m.body with
    | none => exact .none
    | some b => exact .some (r.becomes_onBody b)
  methodAccess m access _ := .of_eq rfl

/-! ### All stages -/

/-- The stage that removes handlers that trace leaves only what becomes of bodies. -/
theorem keeps_exceptionTracing : exceptionTracing.Keeps :=
  keeps_bodies becomes_idle fun _ => Hook.respects_counting (Idiom.becomes_removeTracingHandlers _)

/-- The stage that removes handlers that throw again leaves only what becomes of bodies. -/
theorem keeps_redundantException : redundantException.Keeps :=
  keeps_bodies becomes_idle fun _ => Hook.respects_counting Idiom.becomes_removeRedundantGuards

/-- The stage that mends monitors leaves only what becomes of bodies. -/
theorem keeps_monitor : monitor.Keeps :=
  keeps_bodies becomes_idle fun _ => (Hook.respects_counting Idiom.becomes_extendGuards).andThen
    (Hook.respects_counting (Idiom.becomes_replaceLoads _)) fun _ _ _ h h' => h.trans h'

/-- The stage that removes opaque predicates leaves only what becomes of bodies. -/
theorem keeps_opaquePredicate : opaquePredicate.Keeps :=
  keeps_bodies (fun p _ => becomes_removeAllInitializers p) respects_opaquePredicate

/-- The stage that masks shift distances leaves only what becomes of bodies. -/
theorem keeps_bitShift : bitShift.Keeps :=
  keeps_bodies becomes_idle fun _ => Hook.respects_counting (Idiom.becomes_maskShifts _)

/-- The stage that removes unreachable code leaves only what becomes of bodies. -/
theorem keeps_unreachableCode : unreachableCode.Keeps :=
  keeps_bodies becomes_idle respects_unreachableCode

/-- The stage that removes redundant jumps leaves only what becomes of bodies. -/
theorem keeps_redundantGoto : redundantGoto.Keeps :=
  keeps_bodies becomes_idle respects_redundantGoto

/-- The stage that splits slots leaves only what becomes of bodies. -/
theorem keeps_variableSplitter : variableSplitter.Keeps :=
  keeps_passes becomes_idle respects_variableSplitter becomes_idle

/-- The stage that gives new names leaves only what becomes of bodies. -/
theorem keeps_remap : remap.Keeps :=
  keeps_passes (nameless_becomes.respects_loadTable.mono fun _ _ h => h.methods)
    (nameless_becomes.respects_renameOnce.mono fun _ _ h => h.methods)
    (nameless_becomes.respects_keepTable.mono fun _ _ h => h.methods)

/-- The stage that gathers static methods leaves only what becomes of bodies. -/
theorem keeps_staticMethods : staticMethods.Keeps :=
  keeps_passes becomes_idle (nameless_becomes.respects_staticMethods.mono fun _ _ h => h.methods)
    becomes_idle

/-- The stage that removes unused methods leaves only what becomes of bodies. -/
theorem keeps_unusedMethods : unusedMethods.Keeps :=
  keeps_passes becomes_idle respects_unusedMethods becomes_idle

/-- The stage that gathers static fields leaves only what becomes of bodies. -/
theorem keeps_staticFields : staticFields.Keeps :=
  keeps_passes becomes_idle (nameless_becomes.respects_staticFields.mono fun _ _ h => h.methods)
    becomes_idle

/-- The stage that sorts fields leaves only what becomes of bodies. -/
theorem keeps_sortFields : sortFields.Keeps :=
  keeps_declarations (fun c _ => Class.Becomes.refl c) (Hook.respects_idle Method.Becomes.refl)

/-- The stage that sorts methods leaves only what becomes of bodies. -/
theorem keeps_sortMethods : sortMethods.Keeps :=
  keeps_declarations (fun c _ => becomes_sortMethods c) (Hook.respects_idle Method.Becomes.refl)

/-- The stage that widens access leaves only what becomes of bodies. -/
theorem keeps_visibility : visibility.Keeps :=
  keeps_declarations (respects_widening Class.Becomes.refl fun c _ => Class.Becomes.refl c)
    (respects_widening Method.Becomes.refl fun _ _ => .of_eq rfl)

/-- The stage that removes annotations leaves only what becomes of bodies. -/
theorem keeps_annotationRemover : annotationRemover.Keeps :=
  keeps_declarations (respects_clearing Class.Becomes.refl fun c _ => Class.Becomes.refl c)
    (respects_clearing Method.Becomes.refl fun _ _ => .of_eq rfl)

/-- The stage that replaces dynamic calls leaves only what becomes of bodies. -/
theorem keeps_deleteInvokedynamic : deleteInvokedynamic.Keeps :=
  keeps_bodies becomes_idle fun _ => Hook.respects_counting Idiom.becomes_stubDynamicCalls

/-- Every stage keeps labels and ranges, also when it fails. -/
theorem becomes_of_mem_all {stage : Stage} (h : stage ∈ all) (settings : Settings)
    (journal : Journal) (p : Codebase) : p.Becomes (stage.run settings journal p).2.1 := by
  simp only [all, List.mem_cons, List.not_mem_nil, or_false] at h
  rcases h with rfl | rfl | rfl | rfl | rfl | rfl | rfl | rfl | rfl | rfl | rfl | rfl | rfl | rfl |
    rfl | rfl | rfl
  · exact keeps_exceptionTracing.run settings journal p
  · exact keeps_redundantException.run settings journal p
  · exact keeps_monitor.run settings journal p
  · exact keeps_opaquePredicate.run settings journal p
  · exact keeps_bitShift.run settings journal p
  · exact keeps_unreachableCode.run settings journal p
  · exact keeps_redundantGoto.run settings journal p
  · exact keeps_variableSplitter.run settings journal p
  · exact keeps_remap.run settings journal p
  · exact keeps_staticMethods.run settings journal p
  · exact keeps_unusedMethods.run settings journal p
  · exact keeps_staticFields.run settings journal p
  · exact keeps_sortFields.run settings journal p
  · exact keeps_sortMethods.run settings journal p
  · exact keeps_visibility.run settings journal p
  · exact keeps_annotationRemover.run settings journal p
  · exact keeps_deleteInvokedynamic.run settings journal p

end Stage

/-- Stages that run one after the other keep labels and ranges. -/
theorem Plan.becomes_run {plan : Plan} (hplan : ∀ stage ∈ plan, stage ∈ Stage.all)
    (settings : Settings) (journal : Journal) (p : Codebase) :
    p.Becomes (plan.run settings journal p).2.1 := by
  induction plan generalizing journal p with
  | nil => exact Becomes.refl p
  | cons stage plan ih =>
    have hfirst := Stage.becomes_of_mem_all (hplan stage List.mem_cons_self) settings journal p
    rw [Plan.run]
    split
    · next heq =>
      rw [heq] at hfirst
      exact hfirst
    · next heq =>
      rw [heq] at hfirst
      exact hfirst.trans (ih (fun s hs => hplan s (List.mem_cons_of_mem _ hs)) _ _)

section

open Binary Binary.ClassFile

/-! ### Bodies that are read -/

/-- What stands between the labels and the instructions of a spine are line markers. -/
theorem Binary.Spine.exists_line {nodes : Array Node} {label? : Nat → Option Label}
    {length lo hi : Nat} {pairs : List (Nat × Handle)} {handles : List Handle}
    (h : Spine nodes label? length lo hi pairs handles) {k : Nat} (hlo : lo ≤ k) (hhi : k < hi) :
    ∃ n, nodes[k]? = some ⟨.line n, none⟩ := by
  induction h with
  | nil hmarks => exact hmarks.lines k hlo hhi
  | @cons lo mid hi p rest marks handles hmarks _ ih =>
    by_cases hmid : k < mid
    · exact hmarks.lines k hlo hmid
    · exact ih (Nat.not_lt.1 hmid) hhi

/-- Renaming the labels of an instruction renames its targets. -/
theorem Instruction.targets_map {L M : Type} (f : L → M) (i : Instruction L) :
    (i.map f).targets = i.targets.map f := by
  cases i <;> simp [Instruction.map, Instruction.targets]

/-- The labels of an assembled listing are linked. -/
theorem Binary.Assembled.linked {length : Nat} {code : List Located} {listing : Listing}
    {label? : Nat → Option Label} {placed : List (Nat × Handle)}
    (h : Assembled length code listing label? placed) (hordered : Ordered length code) {o : Nat}
    (ho : (label? o).isSome) :
    labelOr label? o ∈ listing.handles ∧ (listing.get (labelOr label? o)).isLabel = true := by
  obtain ⟨k, hk⟩ := Option.isSome_iff_exists.1 ho
  have hlabel : labelOr label? o = k := by rw [labelOr, hk, Option.getD_some]
  rw [hlabel, get_of_node (h.label o k hk)]
  exact ⟨h.mem_handles hordered hk, rfl⟩

/-- A body that is read refers to labels that are there. -/
theorem intact_of_bodyRead {pool : Pool} {b : Body} {bs : Bytes} (h : BodyRead pool b bs) :
    b.Intact := by
  obtain ⟨code, guards, label?, placed, chunks, -, hassembled, -, -, hordered, hguards, hsome⟩ :=
    h.exists_assembled
  refine ⟨hassembled.wellFormed hordered, ?_, ?_⟩
  · intro k hk t ht
    obtain ⟨lo, hi, hspine, -, -, -⟩ := hassembled.spine
    -- Labels and line markers have no targets; what an instruction mentions is linked.
    rcases hspine.mem_cases hk with ⟨o, ho, -⟩ | ⟨hlo, hhi⟩ | hpair
    · rw [get_of_node (hassembled.label o k ho)] at ht
      cases ht
    · obtain ⟨n, hn⟩ := hspine.exists_line hlo hhi
      rw [get_of_node hn] at ht
      cases ht
    · obtain ⟨p, hp, rfl⟩ := List.mem_map.1 hpair
      obtain ⟨i, hi, -, hnode⟩ := exists_of_mem_right hassembled.nodes hp
      rw [get_of_node hnode, Instruction.targets_map] at ht
      obtain ⟨o, ho, rfl⟩ := List.mem_map.1 ht
      exact hassembled.linked hordered
        (hassembled.mentioned i hi o (Instruction.mem_mentioned_iff.2 ho))
  · intro g hg t ht
    rw [hguards] at hg
    obtain ⟨range, hrange, rfl⟩ := List.mem_map.1 hg
    have hmap : (range.map (labelOr label?)).labels = range.labels.map (labelOr label?) := rfl
    rw [hmap] at ht
    obtain ⟨o, ho, rfl⟩ := List.mem_map.1 ht
    exact hassembled.linked hordered (hsome o (List.mem_flatMap.2 ⟨range, hrange, ho⟩))

/-- The bodies of a class that is decoded refer to labels that are there. -/
theorem intact_of_decode {bs : Bytes} {c : Class} (h : decode bs = .ok c) {m : Method}
    (hm : m ∈ c.methods) {b : Body} (hb : m.body = some b) : b.Intact := by
  obtain ⟨pool, codes, -, hread⟩ := exists_codeArrays h
  obtain ⟨code, -, hmethod⟩ := exists_of_mem_left hread.methods hm
  have hbody := hmethod.body
  rw [hb] at hbody
  cases hbody with
  | some hbody => exact intact_of_bodyRead hbody

/-- The bodies of decoded files are intact. -/
theorem intact_of_mapM_decode {files : List Bytes} {classes : List Class}
    (h : files.mapM decode = .ok classes) {p : Codebase} (hp : p.classes = classes) :
    ∀ b ∈ p.bodies, b.Intact := by
  intro b hb
  obtain ⟨m, hm, hbody⟩ := List.mem_filterMap.1 hb
  obtain ⟨c, hc, hm⟩ := List.mem_flatMap.1 hm
  rw [hp] at hc
  obtain ⟨bs, -, hdecode⟩ := exists_of_mem_right (mapM_eq_ok_iff.1 h) hc
  exact intact_of_decode hdecode hm hbody

/-! ### Runs -/

/-- Whatever stages run over classes that were read, the bodies that are left refer to labels that
are there, their ranges stem from ranges that were read and are still the right way round, and no
class that is left fails to be written for a label. -/
theorem labelsLinked_run {files : List Bytes} {classes : List Class}
    (hread : files.mapM decode = .ok classes) {p : Codebase} (hp : p.classes = classes)
    {plan : Plan} (hplan : ∀ stage ∈ plan, stage ∈ Stage.all) (settings : Settings)
    (journal : Journal) :
    let p' := (plan.run settings journal p).2.1
    (∀ b ∈ p'.bodies, b.LabelsLinked) ∧ Drawn Body.Descends p.bodies p'.bodies ∧
      ∀ c ∈ p'.classes, encode c ≠ .error .missingLabel := by
  intro p'
  have hintact := intact_of_mapM_decode hread hp
  have hbodies : Drawn Body.Becomes p.bodies p'.bodies :=
    (Plan.becomes_run hplan settings journal p).bodies
  have hleft : ∀ b ∈ p'.bodies, b.Intact := by
    intro b hb
    obtain ⟨origin, horigin, hbecomes⟩ := hbodies.exists_of_mem hb
    exact (hbecomes (hintact origin horigin)).1
  refine ⟨fun b hb => (hleft b hb).labels, ?_, ?_⟩
  · exact hbodies.mono fun b hb b' hbecomes => (hbecomes (hintact b hb)).2
  -- A body with its labels linked can only fail for a limit, not for a label.
  · intro c hc herror
    have hclass : ∀ m ∈ c.methods, ∀ b ∈ m.body, b.listing.WellFormed ∧ b.LabelsLinked := by
      intro m hm b hb
      have hmem : b ∈ p'.bodies :=
        List.mem_filterMap.2 ⟨m, List.mem_flatMap.2 ⟨c, hc, hm⟩, hb⟩
      exact ⟨(hleft b hmem).wf, (hleft b hmem).labels⟩
    rcases encode_cases hclass with ⟨bs, hbs⟩ | ⟨cause, -, hcause⟩
    · rw [hbs] at herror
      cases herror
    · rw [hcause] at herror
      cases herror

/-! ### A class with a range -/

/-- What stands behind the name of a class whose only method has its first instruction protected. -/
def guardedRest : Bytes :=
  [0, 0, 0, 0, 0, 0, 0, 1, 0, 9, 0, 6, 0, 7, 0, 1, 0, 8, 0, 0, 0, 22, 0, 1, 0, 0, 0, 0, 0, 2, 0, 191,
    0, 1, 0, 0, 0, 1, 0, 1, 0, 0, 0, 0, 0, 0]

/-- The bytes of the class file, with the pool that says things twice. -/
def guardedFile : Bytes :=
  word32 magic ++ word16 0 ++ word16 52 ++ (Pool.ofEntries twofoldEntries).bytes ++
    (word16 33 ++ word16 2 ++ guardedRest)

/-- The body that is read. -/
def guardedBody : Body :=
  { listing := ⟨#[⟨.label, none⟩, ⟨.label, none⟩, ⟨.plain .nop, some ⟨.nop, false, none⟩⟩,
      ⟨.plain .athrow, some ⟨.athrow, false, none⟩⟩], #[0, 2, 1, 3]⟩
    guards := [⟨0, 1, 1, none⟩], maxStack := 1, maxLocals := 0 }

/-- The class that is read. -/
def guarded : Class :=
  { twofold with methods := [{ owner := "A", name := "m", descriptor := "()V", access := ⟨9⟩
                               body := some guardedBody }] }

/-- The class file is one of a class with a guarded body. -/
theorem decode_guarded : decode guardedFile = .ok guarded :=
  decode_ofEntries (by decide) (by decide) (by decide) rfl fun _ => ⟨_, rfl⟩

/-- All stages twice in a row keep the labels of the guarded body linked. -/
theorem labelsLinked_run_guarded : [guardedFile].mapM decode = .ok [guarded] ∧
    (∀ stage ∈ Stage.all ++ Stage.all, stage ∈ Stage.all) ∧
    (∀ g ∈ guardedBody.guards, g.stop ∈ guardedBody.listing.after g.start) ∧
    let p' := (Plan.run {} {} ⟨[guarded], none⟩ (Stage.all ++ Stage.all)).2.1
    (∀ b ∈ p'.bodies, b.LabelsLinked) ∧ Drawn Body.Descends [guardedBody] p'.bodies ∧
      ∀ c ∈ p'.classes, encode c ≠ .error .missingLabel := by
  have hread : [guardedFile].mapM decode = .ok [guarded] :=
    mapM_eq_ok_iff.2 (.cons decode_guarded .nil)
  have hplan : ∀ stage ∈ Stage.all ++ Stage.all, stage ∈ Stage.all := by
    intro stage hstage
    rcases List.mem_append.1 hstage with h | h
    · exact h
    · exact h
  exact ⟨hread, hplan, by decide, labelsLinked_run hread rfl hplan {} {}⟩

end

end Unscramble
