import Unscramble.Proofs.Naming.Relocation
import Unscramble.Proofs.Stage.Hooks
import Unscramble.Stage.Plan

/-! # Stages that rename and move members

Renaming a codebase and moving static members into other classes give members other names, other
classes and a wider access. What does not look at these, but for whether a member is static, holds
between each member that is left and one that was there.

Main definitions: `Nameless`, `Codebase.Stems`. Main statements: `Nameless.stems_apply`,
`Nameless.stems_rename`, `Nameless.stems_moveStaticMethods`, `Nameless.stems_moveStaticFields`,
`Stage.classes_run_remap`. -/

namespace Unscramble

open scoped List

/-- Visibility does not tell whether a member is static. -/
theorem Access.contains_staticFlag_publish (a : Access) :
    a.publish.contains .staticFlag = a.contains .staticFlag := by
  have hbits : a.publish.bits &&& staticFlag.bits = a.bits &&& staticFlag.bits := by
    rw [← UInt16.toBitVec_inj]
    change ((a.bits.toBitVec &&& ~~~7#16) ||| 1#16) &&& 8#16 = a.bits.toBitVec &&& 8#16
    rw [BitVec.and_comm, BitVec.and_or_distrib_left, BitVec.and_comm a.bits.toBitVec,
      ← BitVec.and_assoc, BitVec.and_comm a.bits.toBitVec]
    simp
  rw [contains, contains, hbits]

/-- Relations between fields and between methods that look at no name, and at nothing of the access
but whether the member is static. -/
structure Nameless (F : Field → Field → Prop) (M : Method → Method → Prop) : Prop where
  /-- A field is related to itself. -/
  reflField : ∀ f, F f f
  /-- Changes of fields can be chained. -/
  transField : ∀ f f' f'', F f f' → F f' f'' → F f f''
  /-- A field is related to itself under another name. -/
  onField : ∀ (r : Naming.Renaming) owner f, F f (r.onField owner f)
  /-- A field is related to itself with another visibility. -/
  fieldAccess : ∀ (f : Field) access, access.contains .staticFlag = f.isStatic →
    F f { f with access }
  /-- A method is related to itself. -/
  reflMethod : ∀ m, M m m
  /-- Changes of methods can be chained. -/
  transMethod : ∀ m m' m'', M m m' → M m' m'' → M m m''
  /-- A method is related to itself under another name. -/
  onMethod : ∀ (r : Naming.Renaming) owner m, M m (r.onMethod owner m)
  /-- A method is related to itself with another visibility. -/
  methodAccess : ∀ (m : Method) access, access.contains .staticFlag = m.isStatic →
    M m { m with access }

/-- The members of a codebase stem from members of an earlier one, each from one of its own. -/
structure Codebase.Stems (F : Field → Field → Prop) (M : Method → Method → Prop)
    (p p' : Codebase) : Prop where
  /-- The fields. -/
  fields : Drawn F p.fields p'.fields
  /-- The methods. -/
  methods : Drawn M p.methods p'.methods

namespace Nameless

variable {F : Field → Field → Prop} {M : Method → Method → Prop} {p p' p'' : Codebase}

open Codebase (Stems)

/-- Members stem from members when some are left out. -/
theorem stems_of_subperm (h : Nameless F M) (hfields : p'.fields <+~ p.fields)
    (hmethods : p'.methods <+~ p.methods) : p.Stems F M p' :=
  ⟨Drawn.of_subperm h.reflField hfields, Drawn.of_subperm h.reflMethod hmethods⟩

/-- Members stem from members when the classes stay. -/
theorem stems_of_classes_eq (h : Nameless F M) (hclasses : p'.classes = p.classes) :
    p.Stems F M p' := by
  refine h.stems_of_subperm ?_ ?_
  · rw [Codebase.fields, hclasses]
    exact List.Subperm.refl _
  · rw [Codebase.methods, hclasses]
    exact List.Subperm.refl _

/-- The members of a codebase stem from themselves. -/
theorem stems_refl (h : Nameless F M) (p : Codebase) : p.Stems F M p :=
  h.stems_of_classes_eq rfl

/-- What stems from members that stem from others stems from those. -/
theorem stems_trans (h : Nameless F M) (hp : p.Stems F M p') (hp' : p'.Stems F M p'') :
    p.Stems F M p'' :=
  ⟨hp.fields.trans h.transField hp'.fields, hp.methods.trans h.transMethod hp'.methods⟩

/-- Classes that change one by one. -/
theorem stems_of_classes (h : List.Forall₂ (fun c c' : Class => Drawn F c.fields c'.fields ∧
    Drawn M c.methods c'.methods) p.classes p'.classes) : p.Stems F M p' :=
  ⟨Drawn.flatMap (h.imp fun _ _ hc => hc.1), Drawn.flatMap (h.imp fun _ _ hc => hc.2)⟩

/-- A change of each class. -/
theorem stems_map {f : Class → Class} (hfields : ∀ c, Drawn F c.fields (f c).fields)
    (hmethods : ∀ c, Drawn M c.methods (f c).methods) :
    p.Stems F M { p with classes := p.classes.map f } :=
  stems_of_classes (List.forall₂_map_right_iff.2
    (List.forall₂_same.2 fun c _ => ⟨hfields c, hmethods c⟩))

/-- A change of each item of a list. -/
theorem drawn_map {α β : Type} {R : α → β → Prop} {f : α → β} (hf : ∀ a, R a (f a))
    (as : List α) : Drawn R as (as.map f) :=
  Drawn.of_forall₂ (List.forall₂_map_right_iff.2 (List.forall₂_same.2 fun a _ => hf a))

/-- A change of one class. -/
theorem stems_modifyClass (h : Nameless F M) {f : Class → Class}
    (hfields : ∀ c, Drawn F c.fields (f c).fields)
    (hmethods : ∀ c, Drawn M c.methods (f c).methods) (name : String) :
    p.Stems F M (p.modifyClass name f) := by
  refine stems_of_classes (forall₂_modifyFirst (fun c => ?_) fun c _ => ?_)
  · exact ⟨Drawn.refl h.reflField _, Drawn.refl h.reflMethod _⟩
  · exact ⟨hfields c, hmethods c⟩

/-! ### Renaming and moving -/

/-- Members stem from members when they are renamed. -/
theorem stems_apply (h : Nameless F M) (r : Naming.Renaming) (p : Codebase) :
    p.Stems F M (r.apply p) :=
  stems_map (fun _ => drawn_map (h.onField r _) _) fun _ => drawn_map (h.onMethod r _) _

/-- Members stem from members when some move. -/
theorem stems_relocate (h : Nameless F M) {moves : List Naming.Move} {count : Nat}
    (hmoved : (Naming.relocate p moves).2 = .ok (count, p')) : p.Stems F M p' :=
  h.stems_of_subperm (Naming.relocate_perm hmoved).2.subperm
    (Naming.relocate_perm hmoved).1.subperm

/-- Members stem from members when a codebase gets new names. -/
theorem stems_rename (h : Nameless F M) {policy : Naming.Policy} {defaultPackage : String}
    {table : Naming.Table} {s : Naming.Summary}
    (hresult : (Naming.rename policy defaultPackage p table).result = .ok (s, p')) :
    p.Stems F M p' := by
  rw [Naming.rename] at hresult
  dsimp only at hresult
  cases hmoved : (Naming.relocate p
      (Naming.Assignment.ofCodebase policy defaultPackage p table).moves.reverse).2 with
  | error e =>
    rw [hmoved] at hresult
    cases hresult
  | ok moved =>
    obtain ⟨count, q⟩ := moved
    rw [hmoved] at hresult
    cases hresult
    refine h.stems_trans (h.stems_trans (h.stems_relocate hmoved) (h.stems_apply
      (Naming.Assignment.ofCodebase policy defaultPackage p table).names q)) (stems_map ?_ ?_)
    · intro c
      split <;> exact Drawn.refl h.reflField _
    · intro c
      split <;> exact Drawn.refl h.reflMethod _

/-- Members stem from members when a codebase gets a class that holds members. -/
theorem stems_ensureHolder (h : Nameless F M) (holder : String) (p : Codebase) :
    p.Stems F M (Tidy.ensureHolder holder p) := by
  rw [Tidy.ensureHolder]
  split
  · exact h.stems_refl p
  · -- the new class declares nothing
    refine h.stems_of_subperm (List.Perm.subperm (List.Perm.of_eq ?_))
      (List.Perm.subperm (List.Perm.of_eq ?_))
    · rw [Codebase.fields, List.flatMap_append]
      exact List.append_nil _
    · rw [Codebase.methods, List.flatMap_append]
      exact List.append_nil _

/-- Members stem from members when what moves becomes public. -/
theorem stems_publishMoved (h : Nameless F M) (p : Codebase) (move : Naming.Move) :
    p.Stems F M (Tidy.publishMoved p move) := by
  refine h.stems_modifyClass ?_ ?_ move.2
  · exact fun c => Drawn.refl h.reflField _
  · exact fun c => Drawn.of_forall₂ (forall₂_modifyFirst h.reflMethod
      fun m _ => h.methodAccess m _ m.access.contains_staticFlag_publish)

/-- Members stem from members when static methods are gathered. -/
theorem stems_moveStaticMethods (h : Nameless F M) (holder : String) (p : Codebase) :
    p.Stems F M (Tidy.moveStaticMethods holder p).codebase := by
  rw [Tidy.moveStaticMethods]
  dsimp only
  split
  · exact h.stems_refl p
  · have hholder : p.Stems F M (if (Tidy.methodMoves (Tidy.methodPlan holder p) p).moves.reverse.any
        fun move => move.2 == holder then Tidy.ensureHolder holder p else p) := by
      split
      · exact h.stems_ensureHolder holder p
      · exact h.stems_refl p
    split
    · exact hholder
    · next count q hmoved =>
      refine h.stems_trans (h.stems_trans hholder (h.stems_relocate hmoved))
        (h.stems_trans ?_ (h.stems_apply _ _))
      clear hmoved hholder
      induction (Tidy.methodMoves (Tidy.methodPlan holder p) p).moves.reverse generalizing q with
      | nil => exact h.stems_refl q
      | cons move moves ih => exact h.stems_trans (h.stems_publishMoved q move) (ih _)

/-- Members stem from members when unused fields are removed. -/
theorem stems_removeUnusedFields (h : Nameless F M) (p : Codebase) :
    p.Stems F M (Tidy.removeUnusedFields p).2 :=
  stems_map (fun _ => Drawn.of_subperm h.reflField List.filter_sublist.subperm)
    fun _ => Drawn.refl h.reflMethod _

/-- Members stem from members when static fields are gathered. -/
theorem stems_moveStaticFields (h : Nameless F M) (holder : String) (p : Codebase) :
    p.Stems F M (Tidy.moveStaticFields holder p).codebase := by
  rw [Tidy.moveStaticFields]
  dsimp only
  split
  · exact h.stems_refl p
  · split
    · exact h.stems_ensureHolder holder p
    · next count q hmoved =>
      refine h.stems_trans (h.stems_trans (h.stems_ensureHolder holder p)
        (h.stems_relocate hmoved)) (h.stems_trans ?_ (h.stems_apply _ _))
      refine h.stems_modifyClass ?_ ?_ holder
      · exact fun c => drawn_map
          (fun f => h.fieldAccess f _ f.access.contains_staticFlag_publish) _
      · exact fun c => Drawn.refl h.reflMethod _

/-! ### Hooks -/

/-- Members stem from members when a table is loaded. -/
theorem respects_loadTable (h : Nameless F M) : Stage.loadTable.Respects (Stems F M) := by
  intro p c
  rw [Stage.loadTable.eq_def]
  split <;> exact h.stems_of_classes_eq rfl

/-- Members stem from members when names are given for the first time. -/
theorem respects_renameOnce (h : Nameless F M) : Stage.renameOnce.Respects (Stems F M) := by
  intro p c
  rw [Stage.renameOnce.eq_def]
  dsimp only
  split
  · exact h.stems_refl p
  · split
    · exact h.stems_refl p
    · next s p' hresult => exact h.stems_rename hresult

/-- Members stem from members when the table is kept. -/
theorem respects_keepTable (h : Nameless F M) : Stage.keepTable.Respects (Stems F M) := by
  intro p c
  rw [Stage.keepTable.eq_def]
  split <;> exact h.stems_of_classes_eq rfl

/-- A stage that moves members respects what its moves do. -/
theorem respects_moving {R : Codebase → Codebase → Prop} {counter : String}
    {f : String → Codebase → Tidy.Moved} (hf : ∀ holder p, R p (f holder p).codebase) :
    (Stage.moving counter f).Respects R := by
  intro p c
  rw [Stage.moving.eq_def]
  dsimp only
  split <;> exact hf c.settings.holder p

/-- Members stem from members in every pass that gathers static methods. -/
theorem respects_staticMethods (h : Nameless F M) :
    Stage.staticMethods.onPass.Respects (Stems F M) :=
  respects_moving h.stems_moveStaticMethods

/-- Members stem from members in every pass that gathers static fields. -/
theorem respects_staticFields (h : Nameless F M) :
    Stage.staticFields.onPass.Respects (Stems F M) :=
  (Hook.respects_counting h.stems_removeUnusedFields).andThen
    (respects_moving h.stems_moveStaticFields) fun _ _ _ => h.stems_trans

end Nameless

/-! ### A run of the renaming -/

namespace Stage

/-- A pass of the renaming after the first changes nothing. -/
theorem settle_remap_of_done {c : Context RenamingState} (hdone : c.state.done = true)
    (left done : Nat) (p : Codebase) :
    remap.settle (left + 1) done p c = (.ok (done + 1), p, c) := by
  rw [Transform.settle, remap, Transform.pass_eq_onPass, renameOnce]
  dsimp only
  rw [if_pos hdone]

/-- The first pass of the renaming renames. -/
theorem pass_remap {c : Context RenamingState} {p p' : Codebase} {s : Naming.Summary}
    (hdone : c.state.done = false) (hresult : (Naming.rename c.settings.policy
      c.settings.defaultPackage p c.state.table).result = .ok (s, p')) :
    (remap.pass p c).changed = .ok s.changed ∧ (remap.pass p c).value = p' ∧
      (remap.pass p c).context.state.done = true := by
  rw [remap, Transform.pass_eq_onPass, renameOnce]
  dsimp only
  rw [hdone, if_neg Bool.false_ne_true, hresult]
  exact ⟨rfl, rfl, rfl⟩

/-- However many passes are left, the renaming renames once. -/
theorem settle_remap {c : Context RenamingState} {p p' : Codebase} {s : Naming.Summary}
    (hdone : c.state.done = false) (hresult : (Naming.rename c.settings.policy
      c.settings.defaultPackage p c.state.table).result = .ok (s, p')) (left done : Nat) :
    ∃ passes c', remap.settle (left + 2) done p c = (.ok passes, p', c') := by
  obtain ⟨hchanged, hvalue, hlast⟩ := pass_remap hdone hresult
  rw [Transform.settle, hchanged, hvalue]
  cases s.changed with
  | false => exact ⟨_, _, rfl⟩
  | true => exact ⟨_, _, settle_remap_of_done hlast left (done + 1) p'⟩

/-- A run of the renaming with the table of the settings renames once. -/
theorem classes_run_remap {settings : Settings} {journal : Journal} {p p' : Codebase}
    {text : String} {s : Naming.Summary} (hnone : p.nameTable = none)
    (htable : settings.nameTable = some (.readable text))
    (hresult : (Naming.rename settings.policy settings.defaultPackage p
      (Naming.Table.parse text).1).result = .ok (s, p')) :
    (remap.run settings journal p).codebase.classes = p'.classes := by
  have hload : ∃ c, remap.beforeAll p { state := remap.start, settings, journal } = ⟨.ok false, p, c⟩ ∧
      c.state = ⟨(Naming.Table.parse text).1, false⟩ ∧ c.settings = settings := by
    change ∃ c, loadTable p _ = _ ∧ _
    rw [loadTable]
    dsimp only
    rw [hnone, htable]
    exact ⟨_, rfl, rfl, rfl⟩
  obtain ⟨c, hload, hstate, hsettings⟩ := hload
  have hsettle : ∃ passes c', remap.settle Transform.maxPasses 0 p c = (.ok passes, p', c') :=
    settle_remap (by rw [hstate]) (by rw [hstate, hsettings]; exact hresult) 998 0
  obtain ⟨passes, c', hsettle⟩ := hsettle
  rw [Transform.run, hload]
  dsimp only
  rw [hsettle]
  change (keepTable p' c').value.classes = p'.classes
  rw [keepTable]
  split <;> rfl

end Stage

/-- A plan of one stage. -/
theorem Plan.codebase_run_singleton (stage : Stage) (settings : Settings) (journal : Journal)
    (p : Codebase) : (Plan.run settings journal p [stage]).2.1 =
      (stage.run settings journal p).2.1 := by
  rw [Plan.run]
  split
  · next heq => rw [heq]
  · next heq =>
    rw [heq]
    rfl

end Unscramble
