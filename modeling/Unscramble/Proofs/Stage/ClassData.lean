import Unscramble.Proofs.Naming.Staying
import Unscramble.Proofs.Stage.Members
import Unscramble.Proofs.Tidy.MethodPlan
import Unscramble.Proofs.Tidy.StaticFields
import Unscramble.Stage.Plan

/-! # Data that belongs to a class

Some of what a member says makes sense in its class only: the parts that are carried along hold
indices into the pool of the class, and what is computed by a bootstrap method holds an index into
the table of its class. Renaming leaves such data alone, and of the members only static ones change
their class. So the data stays in its class if no static member has any.

Main definitions: `ClassData`, `Class.Remains`, `Codebase.Remains`, `Plan.Unambiguous`. Main
statements: `nameless_keeps`, `remains_rename`, `remains_moveStaticMethods`,
`remains_moveStaticFields`, `Plan.remains_run`. -/

namespace Unscramble

/-! ### What belongs to a class -/

/-- The bootstrap method that computes a constant. -/
def Constant.bootstraps : Constant → List UInt16
  | .dynamic bootstrap _ _ => [bootstrap]
  | _ => []

mutual

/-- The bootstrap methods in an annotation value. -/
def Element.bootstraps : Element → List UInt16
  | .const _ value => value.bootstraps
  | .nested _ _ values => Element.namedBootstraps values
  | .array values => Element.allBootstraps values
  | .enum _ _ | .ofClass _ => []

/-- The bootstrap methods in annotation values. -/
def Element.allBootstraps : List Element → List UInt16
  | [] => []
  | e :: rest => e.bootstraps ++ Element.allBootstraps rest

/-- The bootstrap methods in named annotation values. -/
def Element.namedBootstraps : List (String × Element) → List UInt16
  | [] => []
  | (_, e) :: rest => e.bootstraps ++ Element.namedBootstraps rest

end

/-- The bootstrap methods in an annotation. -/
def Annotation.bootstraps (a : Annotation) : List UInt16 :=
  Element.namedBootstraps a.values

/-- The bootstrap method that an instruction calls or whose constant it pushes. -/
def Instruction.bootstraps {L : Type} : Instruction L → List UInt16
  | .push c => c.bootstraps
  | .invokeDynamic call => [call.bootstrap]
  | _ => []

/-- The bootstrap methods in a body. -/
def Body.bootstraps (b : Body) : List UInt16 :=
  b.listing.instructions.flatMap Instruction.bootstraps

/-- What a member says by indices that are those of its class. -/
structure ClassData where
  /-- The parts of the member that are carried along. -/
  attributes : List Attribute := []
  /-- The parts of its body that are carried along. -/
  bodyAttributes : List Attribute := []
  /-- The bootstrap methods that it refers to. -/
  bootstraps : List UInt16 := []
deriving DecidableEq, Repr

/-- What a field says by indices of its class. -/
def Field.classData (f : Field) : ClassData where
  attributes := f.attributes
  bootstraps := f.value.toList.flatMap Constant.bootstraps ++
    f.annotations.flatMap Annotation.bootstraps

/-- What a method says by indices of its class. -/
def Method.classData (m : Method) : ClassData where
  attributes := m.attributes
  bodyAttributes := m.body.toList.flatMap (·.attributes)
  bootstraps := m.annotations.flatMap Annotation.bootstraps ++ m.body.toList.flatMap Body.bootstraps

/-- A field that is renamed or seen by others: what it says by indices is the same, and so is
whether it is static. -/
def Field.Keeps (f f' : Field) : Prop :=
  f'.isStatic = f.isStatic ∧ f'.classData = f.classData

/-- A method that is renamed or seen by others. -/
def Method.Keeps (m m' : Method) : Prop :=
  m'.isStatic = m.isStatic ∧ m'.classData = m.classData

/-! ### Renaming -/

namespace Naming.Renaming

variable (r : Renaming)

/-- A constant that is renamed has the bootstraps that it had. -/
theorem bootstraps_onConstant (c : Constant) : (r.onConstant c).bootstraps = c.bootstraps := by
  cases c <;> rfl

mutual

/-- An annotation element that is renamed has the bootstraps that it had. -/
theorem bootstraps_onElement : ∀ e : Element, (r.onElement e).bootstraps = e.bootstraps
  | .const _ _ => rfl
  | .enum _ _ => rfl
  | .ofClass _ => rfl
  | .nested _ _ values => bootstraps_onNamed values
  | .array values => bootstraps_onElements values

/-- So have the elements of an array. -/
theorem bootstraps_onElements : ∀ es : List Element,
    Element.allBootstraps (r.onElements es) = Element.allBootstraps es
  | [] => rfl
  | e :: rest => congrArg₂ (· ++ ·) (bootstraps_onElement e) (bootstraps_onElements rest)

/-- So have the named elements of an annotation. -/
theorem bootstraps_onNamed : ∀ es : List (String × Element),
    Element.namedBootstraps (r.onNamed es) = Element.namedBootstraps es
  | [] => rfl
  | (_, e) :: rest => congrArg₂ (· ++ ·) (bootstraps_onElement e) (bootstraps_onNamed rest)

end

/-- Annotations that are renamed have the bootstraps that they had. -/
theorem bootstraps_map_onAnnotation (as : List Annotation) :
    (as.map r.onAnnotation).flatMap Annotation.bootstraps = as.flatMap Annotation.bootstraps := by
  rw [List.flatMap_map]
  exact List.flatMap_congr fun a _ => r.bootstraps_onNamed a.values

/-- An instruction that is renamed has the bootstraps that it had. -/
theorem bootstraps_onInstruction {L : Type} (i : Instruction L) :
    (r.onInstruction i).bootstraps = i.bootstraps := by
  cases i with
  | push c => exact r.bootstraps_onConstant c
  | _ => rfl

/-- Renaming an instruction, be it more than once, leaves its bootstrap method. -/
theorem bootstraps_get_foldl (hs : List Handle) (l : Listing) (h : Handle) :
    ((hs.foldl (fun l h => l.modify h r.onInstruction) l).get h).bootstraps =
      (l.get h).bootstraps := by
  induction hs generalizing l with
  | nil => rfl
  | cons k hs ih =>
    rw [List.foldl_cons, ih, Listing.get_modify rfl]
    split
    · exact r.bootstraps_onInstruction _
    · rfl

/-- A body that is renamed has the bootstraps that it had. -/
theorem bootstraps_onBody (b : Body) : (r.onBody b).bootstraps = b.bootstraps := by
  change (r.onListing b.listing).instructions.flatMap _ = b.listing.instructions.flatMap _
  rw [Listing.instructions, Listing.instructions, onListing, Listing.handles_foldl_modify,
    List.flatMap_map, List.flatMap_map]
  exact List.flatMap_congr fun h _ => r.bootstraps_get_foldl _ _ h

/-- A field that is renamed has the data that it had. -/
theorem classData_onField (owner : String) (f : Field) :
    (r.onField owner f).classData = f.classData := by
  change ClassData.mk _ _ (_ ++ (f.annotations.map r.onAnnotation).flatMap _) = _
  rw [r.bootstraps_map_onAnnotation]
  rfl

/-- A method that is renamed has the data that it had. -/
theorem classData_onMethod (owner : String) (m : Method) :
    (r.onMethod owner m).classData = m.classData := by
  change ClassData.mk _ ((m.body.map r.onBody).toList.flatMap _)
    ((m.annotations.map r.onAnnotation).flatMap _ ++ (m.body.map r.onBody).toList.flatMap _) = _
  rw [r.bootstraps_map_onAnnotation, Option.toList_map, List.flatMap_map, List.flatMap_map,
    List.flatMap_congr fun b _ => r.bootstraps_onBody b]
  rfl

end Naming.Renaming

/-- Names and visibility are no data of a class. -/
theorem nameless_keeps : Nameless Field.Keeps Method.Keeps where
  reflField _ := ⟨rfl, rfl⟩
  transField _ _ _ h h' := ⟨h'.1.trans h.1, h'.2.trans h.2⟩
  onField r owner f := ⟨rfl, r.classData_onField owner f⟩
  fieldAccess _ _ h := ⟨h, rfl⟩
  reflMethod _ := ⟨rfl, rfl⟩
  transMethod _ _ _ h h' := ⟨h'.1.trans h.1, h'.2.trans h.2⟩
  onMethod r owner m := ⟨rfl, r.classData_onMethod owner m⟩
  methodAccess _ _ h := ⟨h, rfl⟩

/-! ### Classes that keep their data -/

/-- A class after some changes: its pool and the parts that are carried along are the same, and the
members of its instances stem from members of its instances, with the data they had. -/
structure Class.Remains (c c' : Class) : Prop where
  /-- The pool. -/
  pool : c'.pool = c.pool
  /-- The parts that are carried along. -/
  attributes : c'.attributes = c.attributes
  /-- The fields of instances. -/
  fields : Drawn Field.Keeps c.instanceFields c'.instanceFields
  /-- The methods of instances. -/
  methods : Drawn Method.Keeps c.instanceMethods c'.instanceMethods

namespace Class.Remains

variable {c c' c'' : Class}

/-- A class whose members stem from its own. -/
theorem of_drawn (hpool : c'.pool = c.pool) (hattributes : c'.attributes = c.attributes)
    (hfields : Drawn Field.Keeps c.fields c'.fields)
    (hmethods : Drawn Method.Keeps c.methods c'.methods) : c.Remains c' :=
  ⟨hpool, hattributes, hfields.filter fun _ _ h => by rw [h.1],
    hmethods.filter fun _ _ h => by rw [h.1]⟩

/-- A class is what remains of itself. -/
protected theorem refl (c : Class) : c.Remains c :=
  of_drawn rfl rfl (Drawn.refl nameless_keeps.reflField _) (Drawn.refl nameless_keeps.reflMethod _)

/-- What remains of what remains of a class remains of that class. -/
protected theorem trans (h : c.Remains c') (h' : c'.Remains c'') : c.Remains c'' :=
  ⟨h'.pool.trans h.pool, h'.attributes.trans h.attributes,
    h.fields.trans nameless_keeps.transField h'.fields,
    h.methods.trans nameless_keeps.transMethod h'.methods⟩

/-- Other static members make no difference. -/
theorem of_retains (h : c.Retains c') : c.Remains c' := by
  refine ⟨h.pool, h.attributes, ?_, ?_⟩
  · rw [h.fields]
    exact Drawn.refl nameless_keeps.reflField _
  · rw [h.methods]
    exact Drawn.refl nameless_keeps.reflMethod _

end Class.Remains

/-- Instances have no members. -/
structure Class.Stateless (c : Class) : Prop where
  /-- No fields. -/
  fields : c.instanceFields = []
  /-- No methods. -/
  methods : c.instanceMethods = []

/-- A class without members of its instances stays one. -/
theorem Class.Stateless.remains {c c' : Class} (hc : c.Stateless) (h : c.Remains c') :
    c'.Stateless := by
  have hfields := h.fields
  have hmethods := h.methods
  rw [hc.fields] at hfields
  rw [hc.methods] at hmethods
  exact ⟨List.eq_nil_iff_forall_not_mem.2 fun f hf => by simpa using hfields.exists_of_mem hf,
    List.eq_nil_iff_forall_not_mem.2 fun m hm => by simpa using hmethods.exists_of_mem hm⟩

/-- The classes of a codebase keep their data. Those that are added stand behind them, and their
instances have no members. -/
def Codebase.Remains (p p' : Codebase) : Prop :=
  ∃ kept added, p'.classes = kept ++ added ∧ List.Forall₂ Class.Remains p.classes kept ∧
    ∀ c ∈ added, c.Stateless

namespace Codebase

variable {p p' p'' : Codebase}

/-- A codebase remains if each of its classes does. -/
theorem remains_of_classes (h : List.Forall₂ Class.Remains p.classes p'.classes) :
    p.Remains p' :=
  ⟨p'.classes, [], (List.append_nil _).symm, h, by simp⟩

/-- A codebase with the same classes remains. -/
theorem remains_of_classes_eq (h : p'.classes = p.classes) : p.Remains p' := by
  refine remains_of_classes ?_
  rw [h]
  exact List.forall₂_same.2 fun c _ => .refl c

/-- A change of each class. -/
theorem remains_map {f : Class → Class} (hf : ∀ c : Class, c.Remains (f c)) :
    p.Remains { p with classes := p.classes.map f } :=
  remains_of_classes (List.forall₂_map_right_iff.2 (List.forall₂_same.2 fun c _ => hf c))

/-- A change of one class. -/
theorem remains_modifyClass {f : Class → Class} (hf : ∀ c : Class, c.Remains (f c))
    (name : String) : p.Remains (p.modifyClass name f) :=
  remains_of_classes (forall₂_modifyFirst Class.Remains.refl fun c _ => hf c)

/-- A codebase is what remains of itself. -/
protected theorem Remains.refl (p : Codebase) : p.Remains p :=
  remains_of_classes_eq rfl

/-- What remains of what remains of a codebase remains of that codebase. -/
protected theorem Remains.trans (h : p.Remains p') (h' : p'.Remains p'') : p.Remains p'' := by
  obtain ⟨kept, added, hclasses, hkept, hadded⟩ := h
  obtain ⟨kept', added', hclasses', hkept', hadded'⟩ := h'
  rw [hclasses] at hkept'
  -- what became of the classes that were there and of those that were added
  obtain ⟨old, new, hold, hnew, rfl⟩ : ∃ old new, List.Forall₂ Class.Remains kept old ∧
      List.Forall₂ Class.Remains added new ∧ kept' = old ++ new :=
    ⟨_, _, (List.forall₂_take_append _ _ _ hkept'.flip).flip,
      (List.forall₂_drop_append _ _ _ hkept'.flip).flip, (List.take_append_drop _ _).symm⟩
  refine ⟨old, new ++ added', by rw [hclasses', List.append_assoc], ?_, ?_⟩
  · exact forall₂_trans (R := Class.Remains) (S := Class.Remains) (fun _ _ _ h h' => h.trans h')
      hkept hold
  · intro c hc
    rcases List.mem_append.1 hc with hc | hc
    · obtain ⟨origin, horigin, hremains⟩ := exists_of_mem_right hnew hc
      exact (hadded origin horigin).remains hremains
    · exact hadded' c hc

end Codebase

/-! ### Stages that move members -/

section Moves

open Codebase (Remains)
open Naming (Renaming)

variable {p p' : Codebase}

/-- A codebase remains when it is renamed. -/
theorem remains_apply (r : Renaming) (p : Codebase) : p.Remains (r.apply p) :=
  Codebase.remains_map fun _ => .of_drawn rfl rfl
    (Nameless.drawn_map (nameless_keeps.onField r _) _)
    (Nameless.drawn_map (nameless_keeps.onMethod r _) _)

/-- A codebase remains when members move, each once. -/
theorem remains_relocate {moves : List Naming.Move} {count : Nat}
    (hnodup : (moves.map (·.1)).Nodup)
    (hmoved : (Naming.relocate p moves).2 = .ok (count, p')) : p.Remains p' :=
  Codebase.remains_of_classes ((Naming.retains_relocate hnodup hmoved).imp fun _ _ => .of_retains)

/-- A renaming keeps the data of every class, whatever it moves. -/
theorem remains_rename {policy : Naming.Policy} {defaultPackage : String} {table : Naming.Table}
    {s : Naming.Summary}
    (hresult : (Naming.rename policy defaultPackage p table).result = .ok (s, p')) :
    p.Remains p' := by
  rw [Naming.rename] at hresult
  dsimp only at hresult
  have hnodup := Naming.Assignment.nodup_moves_ofCodebase policy defaultPackage p table
  cases hmoved : (Naming.relocate p
      (Naming.Assignment.ofCodebase policy defaultPackage p table).moves.reverse).2 with
  | error e =>
    rw [hmoved] at hresult
    cases hresult
  | ok moved =>
    obtain ⟨count, q⟩ := moved
    rw [hmoved] at hresult
    cases hresult
    have hreverse := List.nodup_reverse.2 hnodup
    rw [← List.map_reverse] at hreverse
    refine ((remains_relocate hreverse hmoved).trans (remains_apply
      (Naming.Assignment.ofCodebase policy defaultPackage p table).names q)).trans ?_
    refine Codebase.remains_map fun c => ?_
    split
    · exact .of_retains ⟨rfl, rfl, rfl, rfl⟩
    · exact .refl c

/-- A codebase remains when it gets a class that holds members. -/
theorem remains_ensureHolder (holder : String) (p : Codebase) :
    p.Remains (Tidy.ensureHolder holder p) := by
  rcases Tidy.ensureHolder_cases holder p with ⟨-, heq⟩ | ⟨-, heq⟩
  · rw [heq]
    exact .refl p
  · rw [heq]
    exact ⟨p.classes, _, rfl, List.forall₂_same.2 fun c _ => .refl c,
      List.forall_mem_singleton.2 ⟨rfl, rfl⟩⟩

/-- A codebase remains when what moves becomes public. -/
theorem remains_publishMoved (p : Codebase) (move : Naming.Move) :
    p.Remains (Tidy.publishMoved p move) := by
  refine Codebase.remains_modifyClass (fun c => ?_) move.2
  refine .of_drawn rfl rfl ?_ ?_
  · exact Drawn.refl nameless_keeps.reflField _
  · exact Drawn.of_forall₂ (forall₂_modifyFirst nameless_keeps.reflMethod
      fun m _ => nameless_keeps.methodAccess m _ m.access.contains_staticFlag_publish)

/-- Moving static methods keeps the data of every class. -/
theorem remains_moveStaticMethods (holder : String) (p : Codebase) :
    p.Remains (Tidy.moveStaticMethods holder p).codebase := by
  have hnodup := (Tidy.plannedMoves_spec holder p).nodup
  rw [Tidy.plannedMoves] at hnodup
  rw [Tidy.moveStaticMethods]
  dsimp only
  split
  · exact .refl p
  · have hholder : p.Remains (if (Tidy.methodMoves (Tidy.methodPlan holder p) p).moves.reverse.any
        fun move => move.2 == holder then Tidy.ensureHolder holder p else p) := by
      split
      · exact remains_ensureHolder holder p
      · exact .refl p
    split
    · exact hholder
    · next count q hmoved =>
      refine (hholder.trans (remains_relocate hnodup hmoved)).trans (.trans ?_ (remains_apply _ _))
      exact List.foldlRecOn (motive := q.Remains) _ _ (.refl q)
        fun q' hq' move _ => hq'.trans (remains_publishMoved q' move)

/-- The static fields of a codebase have different references. -/
def Codebase.Unambiguous (p : Codebase) : Prop :=
  ((p.fields.filter Field.isStatic).map Field.key).Nodup

/-- No static field is planned to move twice if they are told by their references. -/
theorem nodup_fieldPlan (holder : String) (hp : p.Unambiguous) :
    ((Tidy.fieldPlan holder p).moves.reverse.map (·.1)).Nodup := by
  obtain ⟨pairs, hmoves, -, hplanned, -⟩ := Tidy.fieldPlan_spec holder p
  have hkeys : pairs.map (·.1) = ((Tidy.movingFields holder p).map (·.2)).map Field.key := by
    rw [List.map_map]
    exact eq_map_of_forall₂ (List.forall₂_map_right_iff.2 (hplanned.imp fun _ _ h => h.1))
  have hstatic : ∀ f ∈ (Tidy.movingFields holder p).map (·.2), f.isStatic = true := by
    intro f hf
    obtain ⟨x, hx, rfl⟩ := List.mem_map.1 hf
    exact (Tidy.mem_movingFields hx).2.2.2
  have hsub := (Tidy.sublist_movingFields holder p).filter Field.isStatic
  rw [List.filter_eq_self.2 hstatic] at hsub
  rw [hmoves, List.reverse_reverse, List.map_map]
  change (pairs.map (·.1)).Nodup
  rw [hkeys]
  exact List.Nodup.sublist (hsub.map _) hp

/-- Moving static fields that are told by their references keeps the data of every class. -/
theorem remains_moveStaticFields (holder : String) (hp : p.Unambiguous) :
    p.Remains (Tidy.moveStaticFields holder p).codebase := by
  have hnodup := nodup_fieldPlan holder hp
  rw [Tidy.moveStaticFields]
  dsimp only
  split
  · exact .refl p
  · split
    · exact remains_ensureHolder holder p
    · next count q hmoved =>
      refine ((remains_ensureHolder holder p).trans (remains_relocate hnodup hmoved)).trans
        (.trans ?_ (remains_apply _ _))
      refine Codebase.remains_modifyClass (fun c => ?_) holder
      refine .of_drawn rfl rfl ?_ ?_
      · exact Nameless.drawn_map
          (fun f => nameless_keeps.fieldAccess f _ f.access.contains_staticFlag_publish) _
      · exact Drawn.refl nameless_keeps.reflMethod _

/-- A codebase remains when unused fields are removed. -/
theorem remains_removeUnusedFields (p : Codebase) :
    p.Remains (Tidy.removeUnusedFields p).2 :=
  Codebase.remains_map fun _ => .of_drawn rfl rfl
    (Drawn.of_subperm nameless_keeps.reflField List.filter_sublist.subperm)
    (Drawn.refl nameless_keeps.reflMethod _)

/-- Static fields keep apart when unused ones are removed. -/
theorem unambiguous_removeUnusedFields (hp : p.Unambiguous) :
    (Tidy.removeUnusedFields p).2.Unambiguous := by
  have hsub : (Tidy.removeUnusedFields p).2.fields.Sublist p.fields := by
    rw [Codebase.fields, Codebase.fields, Tidy.removeUnusedFields, List.flatMap_map]
    exact List.Sublist.flatMap_right _ fun c _ => List.filter_sublist
  exact List.Nodup.sublist ((hsub.filter _).map _) hp

end Moves

/-! ### Passes and runs -/

namespace Stage

open Codebase (Remains)

/-- A codebase remains when it gets new names. -/
theorem remains_renameOnce : renameOnce.Respects Remains := by
  intro p c
  rw [renameOnce.eq_def]
  dsimp only
  split
  · exact .refl p
  · split
    · exact .refl p
    · next s p' hresult => exact remains_rename hresult

/-- A run of the renaming keeps the data of every class. -/
theorem remains_remap (settings : Settings) (journal : Journal) (p : Codebase) :
    p.Remains (remap.run settings journal p).codebase := by
  refine Transform.run_respects (fun _ _ _ h h' => h.trans h') Remains.refl ?_ ?_ ?_ settings
    journal p
  · intro p c
    change p.Remains (loadTable p c).value
    rw [loadTable.eq_def]
    split <;> exact Codebase.remains_of_classes_eq rfl
  · rw [remap, Transform.pass_eq_onPass]
    exact remains_renameOnce
  · intro p c
    change p.Remains (keepTable p c).value
    rw [keepTable.eq_def]
    split <;> exact Codebase.remains_of_classes_eq rfl

/-- A run that moves static methods keeps the data of every class. -/
theorem remains_staticMethods (settings : Settings) (journal : Journal) (p : Codebase) :
    p.Remains (staticMethods.run settings journal p).codebase := by
  refine Transform.run_respects (fun _ _ _ h h' => h.trans h') Remains.refl
    (Hook.respects_idle Remains.refl) ?_ (Hook.respects_idle Remains.refl) settings journal p
  rw [staticMethods, Transform.pass_eq_onPass]
  exact Nameless.respects_moving remains_moveStaticMethods

/-- What a pass over static fields leaves. -/
def gatherFields (holder : String) (p : Codebase) : Codebase :=
  (Tidy.moveStaticFields holder (Tidy.removeUnusedFields p).2).codebase

/-- A pass that gathers static fields removes the unused ones and moves the others. -/
theorem pass_staticFields (p : Codebase) (c : Context Unit) :
    (staticFields.pass p c).value = gatherFields c.settings.holder p ∧
      (staticFields.pass p c).context.settings = c.settings := by
  rw [staticFields, Transform.pass_eq_onPass, Hook.andThen, Hook.counting]
  dsimp only
  rw [moving.eq_def]
  dsimp only
  split <;> exact ⟨rfl, rfl⟩

/-- Static fields are gathered some number of times. -/
theorem exists_settle_staticFields (left done : Nat) (p : Codebase) (c : Context Unit) :
    ∃ n, (staticFields.settle left done p c).2.1 = (gatherFields c.settings.holder)^[n] p := by
  induction left generalizing done p c with
  | zero => exact ⟨0, rfl⟩
  | succ left ih =>
    obtain ⟨hvalue, hsettings⟩ := pass_staticFields p c
    rw [Transform.settle]
    split
    · exact ⟨1, hvalue⟩
    · obtain ⟨n, hn⟩ := ih (done + 1) (staticFields.pass p c).value (staticFields.pass p c).context
      rw [hsettings, hvalue, ← Function.iterate_succ_apply] at hn
      exact ⟨n + 1, by rw [hvalue]; exact hn⟩
    · exact ⟨1, hvalue⟩

/-- The stage that gathers static fields does so a number of times. -/
theorem exists_run_staticFields (settings : Settings) (journal : Journal) (p : Codebase) :
    ∃ n, (staticFields.run settings journal p).codebase = (gatherFields settings.holder)^[n] p := by
  obtain ⟨n, hn⟩ := exists_settle_staticFields Transform.maxPasses 0 p
    { state := (), settings, journal }
  exact ⟨n, by rw [Transform.codebase_run rfl rfl]; exact hn⟩

/-- Gathering static fields again and again keeps the data of every class if they are told by their
references each time. -/
theorem remains_iterate_gatherFields {holder : String} {p : Codebase} {n : Nat}
    (h : ∀ k, ((gatherFields holder)^[k] p).Unambiguous) :
    p.Remains ((gatherFields holder)^[n] p) := by
  induction n with
  | zero => exact .refl p
  | succ n ih =>
    rw [Function.iterate_succ_apply']
    have hunused := remains_removeUnusedFields ((gatherFields holder)^[n] p)
    exact (ih.trans hunused).trans
      (remains_moveStaticFields holder (unambiguous_removeUnusedFields (h n)))

/-- The stages that move members. -/
def movers : List Stage :=
  [remap.toStage, staticMethods.toStage, staticFields.toStage]

end Stage

namespace Nameless

variable {F : Field → Field → Prop} {M : Method → Method → Prop}

/-- Members stem from members when static fields are gathered. -/
theorem stems_gatherFields (h : Nameless F M) (holder : String) (p : Codebase) :
    p.Stems F M (Stage.gatherFields holder p) :=
  h.stems_trans (h.stems_removeUnusedFields p) (h.stems_moveStaticFields holder _)

/-- Members stem from members when static fields are gathered a number of times. -/
theorem stems_iterate_gatherFields (h : Nameless F M) (holder : String) (n : Nat) (p : Codebase) :
    p.Stems F M ((Stage.gatherFields holder)^[n] p) := by
  induction n with
  | zero => exact h.stems_refl p
  | succ n ih =>
    rw [Function.iterate_succ_apply']
    exact h.stems_trans ih (h.stems_gatherFields holder _)

/-- What is left after a stage that moves members stems from what was there. -/
theorem stems_mover (h : Nameless F M) {stage : Stage} (hstage : stage ∈ Stage.movers)
    (settings : Settings) (journal : Journal) (p : Codebase) :
    p.Stems F M (stage.run settings journal p).2.1 := by
  have hidle : (Hook.idle : Hook Unit Codebase).Respects (Codebase.Stems F M) :=
    Hook.respects_idle h.stems_refl
  have htrans : ∀ p p' p'' : Codebase, p.Stems F M p' → p'.Stems F M p'' → p.Stems F M p'' :=
    fun _ _ _ => h.stems_trans
  rw [Stage.movers, List.mem_cons, List.mem_cons, List.mem_singleton] at hstage
  rcases hstage with rfl | rfl | rfl
  · refine Transform.run_respects htrans h.stems_refl h.respects_loadTable ?_ h.respects_keepTable
      settings journal p
    rw [Stage.remap, Transform.pass_eq_onPass]
    exact h.respects_renameOnce
  · refine Transform.run_respects htrans h.stems_refl hidle ?_ hidle settings journal p
    rw [Stage.staticMethods, Transform.pass_eq_onPass]
    exact h.respects_staticMethods
  · obtain ⟨n, hn⟩ := Stage.exists_run_staticFields settings journal p
    change p.Stems F M (Stage.staticFields.run settings journal p).codebase
    rw [hn]
    exact h.stems_iterate_gatherFields settings.holder n p

end Nameless

namespace Plan

variable {settings : Settings} {journal : Journal} {p : Codebase} {plan : Plan}

/-- Whenever a pass over static fields may begin in a run, these have different references. -/
def Unambiguous (settings : Settings) (journal : Journal) (p : Codebase) (plan : Plan) : Prop :=
  ∀ before after, plan = before ++ Stage.staticFields.toStage :: after → ∀ n,
    ((Stage.gatherFields settings.holder)^[n]
      (Plan.run settings journal p before).2.1).Unambiguous

/-- A run of stages that move members keeps the data of every class. -/
theorem remains_run (hplan : ∀ stage ∈ plan, stage ∈ Stage.movers)
    (h : plan.Unambiguous settings journal p) :
    p.Remains (plan.run settings journal p).2.1 := by
  -- On the plan, for every codebase: the stages are of three kinds, and each keeps the data.
  induction plan generalizing journal p with
  | nil => exact .refl p
  | cons stage plan ih =>
    have hfirst : p.Remains (stage.run settings journal p).2.1 := by
      have hstage := hplan stage List.mem_cons_self
      rw [Stage.movers, List.mem_cons, List.mem_cons, List.mem_singleton] at hstage
      rcases hstage with rfl | rfl | rfl
      · exact Stage.remains_remap settings journal p
      · exact Stage.remains_staticMethods settings journal p
      · obtain ⟨n, hn⟩ := Stage.exists_run_staticFields settings journal p
        change p.Remains (Stage.staticFields.run settings journal p).codebase
        rw [hn]
        exact Stage.remains_iterate_gatherFields (h [] plan rfl)
    rw [Plan.run]
    split
    · next heq =>
      rw [heq] at hfirst
      exact hfirst
    · next report q journal' heq =>
      rw [heq] at hfirst
      -- What is asked of the stages to come is asked of the codebase that this one has left.
      refine hfirst.trans (ih (fun s hs => hplan s (List.mem_cons_of_mem _ hs)) ?_)
      intro before after hsplit n
      have hrun := h (stage :: before) after (by rw [hsplit, List.cons_append]) n
      rw [Plan.run, heq] at hrun
      exact hrun

/-- What is left after a run of stages that move members stems from what was there. -/
theorem stems_run {F : Field → Field → Prop} {M : Method → Method → Prop} (h : Nameless F M)
    (hplan : ∀ stage ∈ plan, stage ∈ Stage.movers) (settings : Settings) (journal : Journal)
    (p : Codebase) : p.Stems F M (plan.run settings journal p).2.1 := by
  induction plan generalizing journal p with
  | nil => exact h.stems_refl p
  | cons stage plan ih =>
    have hfirst := h.stems_mover (hplan stage List.mem_cons_self) settings journal p
    rw [Plan.run]
    split
    · next heq =>
      rw [heq] at hfirst
      exact hfirst
    · next heq =>
      rw [heq] at hfirst
      exact h.stems_trans hfirst (ih (fun s hs => hplan s (List.mem_cons_of_mem _ hs)) _ _)

/-- A codebase with one static field at most is never ambiguous. -/
theorem unambiguous_of_length_le_one (hplan : ∀ stage ∈ plan, stage ∈ Stage.movers)
    (h : (p.fields.filter Field.isStatic).length ≤ 1) : plan.Unambiguous settings journal p := by
  intro before after hsplit n
  have hbefore : ∀ stage ∈ before, stage ∈ Stage.movers := fun stage hstage =>
    hplan stage (hsplit ▸ List.mem_append_left _ hstage)
  have hstems := nameless_keeps.stems_trans (stems_run nameless_keeps hbefore settings journal p)
    (nameless_keeps.stems_iterate_gatherFields settings.holder n _)
  have hdrawn : Drawn Field.Keeps (p.fields.filter Field.isStatic) _ :=
    hstems.fields.filter fun _ _ h => h.1
  have hstatic := hdrawn.length_le
  rw [Codebase.Unambiguous]
  refine List.nodup_iff_getElem?_ne_getElem?.2 fun i j hij hj => ?_
  rw [List.length_map] at hj
  omega

end Plan

end Unscramble
