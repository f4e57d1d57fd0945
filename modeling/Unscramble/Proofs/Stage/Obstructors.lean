import Unscramble.Proofs.Machine
import Unscramble.Proofs.Slot.Reaching
import Unscramble.Proofs.Stage.Idioms

/-! # Branches on flow obstructors

A branch on a slot is decided if anywhere in the body a flow obstructor is copied to that slot, and all
copies are taken out. That is right if the stores that can provide the value of a load tell for every
load of such a slot whether it reads a copy, and if nothing is entered between two instructions that
belong together. A slot that holds a copy in one place and another number in another place misleads
it.

Main definitions: `Body.successors`, `Body.Provides`, `ToldApart`, `RemovedRightly`. Main statements:
`Machine.Execution.provides`, `removePredicates_rightly`. -/

namespace Unscramble

open Idiom

/-! ### Stores that provide a value -/

instance (l : Listing) (g : Guard Label) (h : Handle) : Decidable (Flow.Covers l g h) :=
  inferInstanceAs (Decidable (h ∈ l.onward g.start ∧ g.stop ∈ l.after h))

/-- The instructions that control can come to from another one: the next one, those at its targets,
those behind subroutine calls for one that leaves a subroutine, and those at the handlers of the
ranges that cover it. -/
def Body.successors (b : Body) (h : Handle) : List Handle :=
  (if (b.listing.get h).isTerminal then [] else (realAfter? b.listing h).toList) ++
    (b.listing.get h).targets.filterMap b.listing.nextReal? ++
    (if (b.listing.get h).hasOpcode .ret then
      (b.listing.handles.filter fun c => (b.listing.get c).hasOpcode .jsr).filterMap
        (realAfter? b.listing)
    else []) ++
    (b.guards.filter fun g => Flow.Covers b.listing g h).filterMap fun g =>
      b.listing.nextReal? g.handler

/-- What a slot holds in front of an instruction can be what a store has left there, or what it held
when control entered. -/
inductive Body.Provides (b : Body) (slot : UInt16) : Option Handle → Handle → Prop
  /-- Control enters. -/
  | entry {h : Handle} (first : b.listing.reals.head? = some h) : Provides b slot none h
  /-- Control goes on from a store. -/
  | store {source : Option Handle} {h n : Handle} (before : Provides b slot source h)
      (stores : (b.listing.get h).stored? = some slot) (next : n ∈ b.successors h) :
      Provides b slot (some h) n
  /-- Control goes on from another instruction. -/
  | pass {source : Option Handle} {h n : Handle} (before : Provides b slot source h)
      (passes : (b.listing.get h).stored? ≠ some slot) (next : n ∈ b.successors h) :
      Provides b slot source n

namespace Machine

variable {V W : Type} {M : Machine V W} {b : Body} {start s s' : Frame V W}
  {passed : List (Visit V W)} {h n : Handle} {e : Exit V} {i : Instruction Label}

/-- Only what leaves a subroutine goes on behind a call. -/
theorem Effect.hasOpcode_ret {call : Handle} (effect : M.Effect h i s (.back call) s') :
    i.hasOpcode .ret = true := by
  generalize he : Exit.back call = e at effect
  cases effect with
  | ret _ => rfl
  | branch _ => split at he <;> cases he
  | act _ _ =>
    rename_i t? _ _
    cases t? <;> cases he
  | _ => cases he

/-- A slot that an instruction does not write stays as it is. -/
theorem Effect.slots_eq {slot : UInt16} (effect : M.Effect h i s e s')
    (hslot : i.stored? ≠ some slot) : s'.slots slot = s.slots slot := by
  have hother : ∀ {n : UInt16} {v : Option V} {slots : UInt16 → Option V}, n ≠ slot →
      Function.update slots n v slot = slots slot :=
    fun hne => Function.update_of_ne (Ne.symm hne) _ _
  cases effect with
  | store stores =>
    refine hother fun heq => hslot ?_
    rw [Instruction.stored?, if_pos stores, heq]
  | increment _ => exact hother fun heq => hslot (congrArg some heq)
  | _ => rfl

/-- Control comes to successors. -/
theorem Leads.mem_successors (effect : M.Effect h (b.listing.get h) s e s') (leads : M.Leads b h e n) :
    n ∈ b.successors h := by
  rw [Body.successors]
  cases leads with
  | below running next =>
    refine List.mem_append_left _ (List.mem_append_left _ (List.mem_append_left _ ?_))
    rw [running, next]
    exact List.mem_singleton.2 rfl
  | target mem _ next =>
    refine List.mem_append_left _ (List.mem_append_left _ (List.mem_append_right _ ?_))
    exact List.mem_filterMap.2 ⟨_, mem, next⟩
  | back linked calls next =>
    refine List.mem_append_left _ (List.mem_append_right _ ?_)
    rw [if_pos effect.hasOpcode_ret]
    exact List.mem_filterMap.2 ⟨_, List.mem_filter.2 ⟨linked, calls⟩, next⟩
  | caught guards covers _ _ _ next =>
    refine List.mem_append_right _ (List.mem_filterMap.2 ⟨_, List.mem_filter.2 ⟨?_, ?_⟩, next⟩)
    · rw [guards]
      exact List.mem_append_right _ List.mem_cons_self
    · exact decide_eq_true covers

/-- Control passes linked real instructions. -/
theorem Execution.mem_reals_of_mem (execution : M.Execution b start passed h s) :
    ∀ v ∈ passed, v.handle ∈ b.listing.reals := by
  induction execution with
  | entry _ => simp
  | step before _ _ ih => exact List.forall_mem_cons.2 ⟨before.mem_reals, ih⟩

/-- The last store to a slot provides what the slot holds. -/
theorem Execution.provides (execution : M.Execution b start passed h s) (slot : UInt16) :
    b.Provides slot (Slot.lastStore? b.listing slot (passed.map (·.handle))) h := by
  induction execution with
  | entry first => exact .entry first
  | @step passed h n s s' e _ effect leads ih =>
    have hnext := leads.mem_successors effect
    by_cases hstores : (b.listing.get h).stored? = some slot
    · have hlast : Slot.lastStore? b.listing slot (h :: passed.map (·.handle)) = some h :=
        List.find?_cons_of_pos (by simp [hstores])
      exact hlast ▸ .store ih hstores hnext
    · have hlast : Slot.lastStore? b.listing slot (h :: passed.map (·.handle)) =
          Slot.lastStore? b.listing slot (passed.map (·.handle)) :=
        List.find?_cons_of_neg (by simpa using hstores)
      exact hlast ▸ .pass ih hstores hnext

/-- The number zero is on top of the stack. -/
def HasZero (M : Machine V W) (s : Frame V W) : Prop :=
  ∃ v stack, s.stack = v :: stack ∧ M.isZero v = true

/-- An instruction pushes the number zero, unless it raises an exception. -/
def PushesZero (M : Machine V W) (i : Instruction Label) : Prop :=
  ∀ stack world t? stack' world', M.Acts i stack world t? stack' world' →
    t? = none ∧ ∃ v, stack' = v :: stack ∧ M.isZero v = true

end Machine

namespace Idiom

variable {obstructors : List Member} {b : Body} {l : Listing} {a c h x : Handle}

/-! ### What is decided and what is taken out -/

/-- The loads are instructions with a field or a slot. -/
def LoadsRead (l : Listing) : Prop :=
  ∀ h ∈ l.handles, loadPlace.holds l h = true →
    (∃ m, l.get h = .field .getstatic m) ∨ ∃ slot, l.get h = .slot .iload slot

/-- The test for a jump finds jumps. -/
theorem any_eq_jump {i : Instruction Label} :
    (i.opcode?.any fun op => i.targets.any fun t => i == .jump op t) = true ↔
      ∃ op t, i = .jump op t := by
  constructor
  · intro h
    obtain ⟨op, -, h⟩ := (Option.any_eq_true _ _).1 h
    obtain ⟨t, -, h⟩ := List.any_eq_true.1 h
    exact ⟨op, t, eq_of_beq h⟩
  · rintro ⟨op, t, rfl⟩
    simp [Instruction.opcode?, Instruction.targets]

/-- The test for a read finds loads of static fields and of slots. -/
theorem any_eq_read {i : Instruction Label} :
    ((accessedField? i).any (i == .field .getstatic ·) || i.slot?.any (i == .slot .iload ·)) = true ↔
      (∃ m, i = .field .getstatic m) ∨ ∃ slot, i = .slot .iload slot := by
  rw [Bool.or_eq_true, Option.any_eq_true, Option.any_eq_true]
  constructor
  · rintro (⟨m, -, h⟩ | ⟨slot, -, h⟩)
    · exact .inl ⟨m, eq_of_beq h⟩
    · exact .inr ⟨slot, eq_of_beq h⟩
  · rintro (⟨m, rfl⟩ | ⟨slot, rfl⟩)
    · exact .inl ⟨m, rfl, beq_self_eq_true _⟩
    · exact .inr ⟨slot, rfl, beq_self_eq_true _⟩

instance (l : Listing) : Decidable (BranchesJump l) :=
  decidable_of_iff
    ((l.handles.all fun h => !branchPlace.holds l h ||
      (l.get h).opcode?.any fun op => (l.get h).targets.any fun t => l.get h == .jump op t) = true)
    (by simp only [BranchesJump, List.all_eq_true, Bool.or_eq_true, any_eq_jump, Bool.not_eq_true',
      ← Bool.not_eq_true, ← imp_iff_not_or])

instance (l : Listing) : Decidable (LoadsRead l) :=
  decidable_of_iff
    ((l.handles.all fun h => !loadPlace.holds l h ||
      ((accessedField? (l.get h)).any (l.get h == .field .getstatic ·) ||
        (l.get h).slot?.any (l.get h == .slot .iload ·))) = true)
    (by simp only [LoadsRead, List.all_eq_true, Bool.or_eq_true _ (_ || _), any_eq_read,
      Bool.not_eq_true', ← Bool.not_eq_true, ← imp_iff_not_or])

/-- The branches of the pattern are `IFEQ` and `IFNE`. -/
theorem ifeq_or_ifne {op : Opcode} (h : branchPlace.accepts op = true) : op = .ifeq ∨ op = .ifne := by
  obtain ⟨byte⟩ := op
  revert byte
  decide +kernel

/-- The accesses of the pattern are `GETSTATIC`. -/
theorem eq_getstatic {op : Opcode} (h : fieldPlace.accepts op = true) : op = .getstatic := by
  obtain ⟨byte⟩ := op
  revert byte
  decide +kernel

/-- A branch that is decided stands behind a load of a flow obstructor or of a slot. -/
theorem exists_of_mem_decidedBranches (jumps : BranchesJump l) (loads : LoadsRead l)
    {run : List Handle} (hrun : run ∈ decidedBranches obstructors l) :
    ∃ a c op t, run = [a, c] ∧ [a, c] <:+: l.reals ∧
      ((∃ m ∈ obstructors, l.get a = .field .getstatic m) ∨ ∃ slot, l.get a = .slot .iload slot) ∧
      l.get c = .jump op t ∧ (op = .ifeq ∨ op = .ifne) := by
  obtain ⟨a, c, rfl, hstands, ha, hc⟩ :=
    mem_runs_obstructorPredicate_iff.1 (List.mem_of_mem_filter hrun)
  obtain ⟨op, t, hget⟩ := jumps c (Listing.mem_handles_of_isInfix hstands (by simp)) hc
  rw [Pattern.Place.holds, hget] at hc
  refine ⟨a, c, op, t, rfl, hstands, ?_, hget, ifeq_or_ifne hc⟩
  have hreads := (mem_decidedBranches_iff.1 hrun).2
  rcases loads a (Listing.mem_handles_of_isInfix hstands (by simp)) ha with ⟨m, hm⟩ | hslot
  · rw [hm] at hreads
    exact .inl ⟨m, List.contains_iff_mem.1 hreads, hm⟩
  · exact .inr hslot

/-- A copy is a load of a flow obstructor and a store. -/
theorem mem_obstructorCopies_iff {run : List Handle} : run ∈ obstructorCopies obstructors l ↔
    ∃ x y m, run = [x, y] ∧ [x, y] <:+: l.reals ∧ m ∈ obstructors ∧
      l.get x = .field .getstatic m ∧ storePlace.holds l y = true := by
  rw [obstructorCopies, List.mem_filter, mem_runs_obstructorCopy_iff]
  constructor
  · rintro ⟨⟨x, y, rfl, hstands, hx, hy⟩, hreads⟩
    have hreads : (accessedField? (l.get x)).any obstructors.contains = true := hreads
    obtain ⟨m, hm, hmem⟩ := (Option.any_eq_true _ _).1 hreads
    refine ⟨x, y, m, rfl, hstands, List.contains_iff_mem.1 hmem, ?_, hy⟩
    -- What accesses a field and has the opcode of a read is the read of that field.
    cases hget : l.get x with
    | field op m' =>
      rw [hget] at hm
      cases hm
      rw [Pattern.Place.holds, hget] at hx
      rw [eq_getstatic hx]
    | _ =>
      rw [hget] at hm
      cases hm
  · rintro ⟨x, y, m, rfl, hstands, hmem, hget, hy⟩
    refine ⟨⟨x, y, rfl, hstands, ?_, hy⟩, ?_⟩
    · rw [Pattern.Place.holds, hget]
      show fieldPlace.accepts .getstatic = true
      decide +kernel
    · show (accessedField? (l.get x)).any obstructors.contains = true
      rw [hget]
      exact List.contains_iff_mem.2 hmem

/-- Removing a handle takes it out of the order. -/
theorem handles_remove (l : Listing) (h : Handle) : (l.remove h).handles = l.handles.erase h :=
  Array.toList_erase ..

/-- What does not belong to a branch stays as it is when the branch is decided. -/
theorem decideBranch_outside (l : Listing) {run : List Handle} (hh : h ∉ run) :
    (decideBranch l run).get h = l.get h ∧ (h ∈ (decideBranch l run).handles ↔ h ∈ l.handles) := by
  rw [decideBranch.eq_def]
  split
  · next load branch rest =>
    have hload : h ≠ load := fun heq => hh (heq ▸ List.mem_cons_self)
    have hbranch : h ≠ branch := fun heq => hh (heq ▸ List.mem_cons_of_mem _ List.mem_cons_self)
    have hstay : h ∈ (l.remove load).handles ↔ h ∈ l.handles := by
      rw [handles_remove, List.mem_erase_of_ne hload]
    split
    · split
      · refine ⟨?_, hstay⟩
        rw [Listing.get_replace, if_neg fun hand => hbranch hand.1.symm]
        rfl
      · split
        · refine ⟨rfl, ?_⟩
          rw [handles_remove, List.mem_erase_of_ne hbranch, hstay]
        · exact ⟨rfl, Iff.rfl⟩
    · exact ⟨rfl, Iff.rfl⟩
  · exact ⟨rfl, Iff.rfl⟩

/-- Deciding branches leaves the instructions outside their runs. -/
theorem foldl_decideBranch_outside {runs : List (List Handle)} (hh : ∀ run ∈ runs, h ∉ run)
    (l : Listing) : (runs.foldl decideBranch l).get h = l.get h ∧
      (h ∈ (runs.foldl decideBranch l).handles ↔ h ∈ l.handles) := by
  induction runs generalizing l with
  | nil => exact ⟨rfl, Iff.rfl⟩
  | cons run runs ih =>
    obtain ⟨hget, hmem⟩ := decideBranch_outside l (hh run List.mem_cons_self)
    obtain ⟨hget', hmem'⟩ :=
      ih (fun run hrun => hh run (List.mem_cons_of_mem _ hrun)) (decideBranch l run)
    exact ⟨hget'.trans hget, hmem'.trans hmem⟩

/-- A branch on false becomes a jump, and one on true goes. -/
theorem foldl_decideBranch_inside (wf : l.WellFormed) {runs : List (List Handle)}
    (hruns : ∀ run ∈ runs, run ∈ obstructorPredicate.runs l) (apart : runs.Pairwise List.Disjoint)
    (hrun : [a, c] ∈ runs) {op : Opcode} {t : Label} (hget : l.get c = .jump op t)
    (hop : op = .ifeq ∨ op = .ifne) :
    let l' := runs.foldl decideBranch l
    a ∉ l'.handles ∧ (op = .ifeq ∧ c ∈ l'.handles ∧ l'.get c = .jump .goto t ∨
      op = .ifne ∧ c ∉ l'.handles) := by
  intro l'
  obtain ⟨front, back, rfl⟩ := List.append_of_mem hrun
  obtain ⟨-, hback, hfront⟩ := List.pairwise_append.1 apart
  -- the other branches are decided elsewhere
  have hbefore : ∀ h ∈ [a, c], ∀ run ∈ front, h ∉ run := fun h hh run hin hmem =>
    hfront run hin _ List.mem_cons_self hmem hh
  have hafter : ∀ h ∈ [a, c], ∀ run ∈ back, h ∉ run := fun h hh run hin hmem =>
    (List.pairwise_cons.1 hback).1 run hin hh hmem
  have ha : a ∈ [a, c] := List.mem_cons_self
  have hc : c ∈ [a, c] := List.mem_cons_of_mem _ List.mem_cons_self
  let l₁ := front.foldl decideBranch l
  have wf₁ : l₁.WellFormed := by
    refine (Listing.edits_foldl (fun l => l) (s := l) wf fun l' e run hin => ?_).wf
    have hin := hruns run (List.mem_append_left _ hin)
    exact edits_decideBranch e.wf fun h hh => (e.not_label_of_run wf hin hh).2
  have hl' : l' = back.foldl decideBranch (decideBranch l₁ [a, c]) := by
    rw [← List.foldl_cons, ← List.foldl_append]
  obtain ⟨hget₁, hmem₁⟩ := foldl_decideBranch_outside (hbefore c hc) l
  have hstands : [a, c] <:+: l.reals := by
    obtain ⟨a', c', heq, hstands, -⟩ := mem_runs_obstructorPredicate_iff.1 (hruns _ hrun)
    rwa [heq]
  have hne : c ≠ a := by
    rintro rfl
    exact (List.nodup_cons.1 (wf.nodup_reals.sublist hstands.sublist)).1 List.mem_cons_self
  have hlinked : c ∈ l₁.handles := hmem₁.2 (Listing.mem_handles_of_isInfix hstands hc)
  have hget₁ : l₁.get c = .jump op t := hget₁.trans hget
  have hgone : ∀ l₂ : Listing, l₂.handles.Sublist (l₁.handles.erase a) → a ∉ l₂.handles :=
    fun l₂ hsub hm => wf₁.nodup.not_mem_erase (hsub.subset hm)
  obtain ⟨-, hmemA⟩ := foldl_decideBranch_outside (hafter a ha) (decideBranch l₁ [a, c])
  obtain ⟨hgetC, hmemC⟩ := foldl_decideBranch_outside (hafter c hc) (decideBranch l₁ [a, c])
  rw [hl', hmemA, hmemC, hgetC]
  rcases hop with rfl | rfl
  · have hstep : decideBranch l₁ [a, c] = (l₁.remove a).replace c (.jump .goto t) := by
      rw [decideBranch, hget₁]
      rfl
    rw [hstep]
    refine ⟨?_, .inl ⟨rfl, ?_, ?_⟩⟩
    · show a ∉ (l₁.remove a).handles
      rw [handles_remove]
      exact wf₁.nodup.not_mem_erase
    · show c ∈ (l₁.remove a).handles
      rw [handles_remove, List.mem_erase_of_ne hne]
      exact hlinked
    · rw [Listing.get_replace, if_pos ⟨rfl, wf₁.lt_capacity c hlinked⟩]
  · have hstep : decideBranch l₁ [a, c] = (l₁.remove a).remove c := by
      rw [decideBranch, hget₁]
      rfl
    rw [hstep, handles_remove, handles_remove]
    exact ⟨fun hm => wf₁.nodup.not_mem_erase (List.mem_of_mem_erase hm),
      .inr ⟨rfl, (wf₁.nodup.erase a).not_mem_erase⟩⟩

/-! ### Copies that are told apart -/

/-- The branches and the copies of flow obstructors can be told apart from other branches and stores.
-/
structure ToldApart (obstructors : List Member) (b : Body) : Prop where
  /-- A slot that a decided branch reads holds what a copy has left there. -/
  copied : ∀ a c slot source, [a, c] ∈ decidedBranches obstructors b.listing →
    (b.listing.get a).loaded? = some slot → b.Provides slot source a →
    ∃ x y, source = some y ∧ [x, y] ∈ obstructorCopies obstructors b.listing
  /-- Nothing else reads what a copy has left in a slot. -/
  unread : ∀ h slot x y, (∀ c, [h, c] ∉ decidedBranches obstructors b.listing) →
    (b.listing.get h).loaded? = some slot → b.Provides slot (some y) h →
    [x, y] ∉ obstructorCopies obstructors b.listing
  /-- No label that control can be transferred to leads to a decided branch or to the store of a copy.
  -/
  unentered : ∀ run, run ∈ decidedBranches obstructors b.listing ∨
    run ∈ obstructorCopies obstructors b.listing → ∀ t ∈ b.entries, b.listing.nextReal? t ≠ run[1]?
  /-- No branch that is decided stands right behind the load of a flow obstructor. -/
  unbroken : ∀ x a c, ∀ m ∈ obstructors, b.listing.get x = .field .getstatic m →
    [x, a] <:+: b.listing.reals → [a, c] ∉ decidedBranches obstructors b.listing

section

open Machine

variable {V W : Type} {M : Machine V W} {start s s' : Frame V W} {passed : List (Visit V W)}
  {n : Handle} {e : Exit V}

/-- The instructions in front of decided branches and of the stores of copies. -/
theorem exists_of_mem_either (jumps : BranchesJump l) (loads : LoadsRead l)
    (hrun : [a, c] ∈ decidedBranches obstructors l ∨ [a, c] ∈ obstructorCopies obstructors l) :
    [a, c] <:+: l.reals ∧ ((∃ m ∈ obstructors, l.get a = .field .getstatic m) ∨
      [a, c] ∈ decidedBranches obstructors l ∧ ∃ slot, l.get a = .slot .iload slot) := by
  rcases hrun with hrun | hrun
  · obtain ⟨a', c', op, t, heq, hstands, hload, -⟩ := exists_of_mem_decidedBranches jumps loads hrun
    cases heq
    exact ⟨hstands, hload.imp_right fun hslot => ⟨hrun, hslot⟩⟩
  · obtain ⟨a', c', m, heq, hstands, hmem, hget, -⟩ := mem_obstructorCopies_iff.1 hrun
    cases heq
    exact ⟨hstands, .inl ⟨m, hmem, hget⟩⟩

/-- So control comes there from the instruction in front. -/
theorem ToldApart.eq_of_leads (apart : ToldApart obstructors b) (wf : b.listing.WellFormed)
    (jumps : BranchesJump b.listing) (loads : LoadsRead b.listing) (hh : h ∈ b.listing.reals)
    (hrun : [a, c] ∈ decidedBranches obstructors b.listing ∨
      [a, c] ∈ obstructorCopies obstructors b.listing) (leads : M.Leads b h e c) :
    h = a ∧ e = .below := by
  obtain ⟨hstands, hload⟩ := exists_of_mem_either jumps loads hrun
  cases leads with
  | below _ next =>
    have hnext := (Listing.realAfter?_eq_some_iff wf (List.of_mem_filter hh)).1 next
    exact ⟨eq_of_pair_isInfix_right wf.nodup_reals hnext hstands, rfl⟩
  | target mem _ next =>
    exact absurd next (apart.unentered _ hrun _ (List.mem_append_right _
      (List.mem_flatMap.2 ⟨h, List.mem_of_mem_filter hh, mem⟩)))
  | @back call _ linked calls next =>
    -- what stands in front is no subroutine call
    have hcall : (b.listing.get call).opcode? = some .jsr := eq_of_beq calls
    have hreal : b.listing.isReal call = true := Option.isSome_of_eq_some hcall
    have hnext := (Listing.realAfter?_eq_some_iff wf hreal).1 next
    obtain rfl := eq_of_pair_isInfix_right wf.nodup_reals hnext hstands
    rcases hload with ⟨m, -, hget⟩ | ⟨-, slot, hget⟩ <;> rw [hget] at hcall <;> cases hcall
  | caught guards _ _ _ _ next =>
    refine absurd next (apart.unentered _ hrun _ (List.mem_append_left _ (List.mem_map.2 ⟨_, ?_, rfl⟩)))
    rw [guards]
    exact List.mem_append_right _ List.mem_cons_self

/-- What goes on below a load of a field that pushes zero has zero on its stack. -/
theorem hasZero_of_field {m : Member} (zero : M.PushesZero (.field .getstatic m))
    (effect : M.Effect h (.field .getstatic m) s .below s') : M.HasZero s' := by
  generalize he : Exit.below = e at effect
  cases effect with
  | act _ acts =>
    obtain ⟨-, v, rfl, hv⟩ := zero _ _ _ _ _ acts
    exact ⟨v, _, rfl, hv⟩
  | raise _ _ => cases he

/-- The store of a copy, if it writes a slot, pops what it stores there. -/
theorem slot_of_storePlace {slot : UInt16} (hplace : storePlace.holds l h = true)
    (hstores : (l.get h).stored? = some slot) :
    ∃ op, op.isStore = true ∧ l.get h = .slot op slot := by
  cases hget : l.get h with
  | slot op n =>
    rw [hget, Instruction.stored?] at hstores
    split at hstores
    · next hop =>
      cases hstores
      exact ⟨op, hop, rfl⟩
    · cases hstores
  | increment n amount =>
    rw [Pattern.Place.holds, hget] at hplace
    exact absurd (show storePlace.accepts .iinc = true from hplace) (by decide +kernel)
  | _ =>
    rw [hget] at hstores
    cases hstores

/-- Where the number zero is known to be, when control has come to an instruction past others. -/
structure KnowsZeros (M : Machine V W) (obstructors : List Member) (b : Body)
    (passed : List (Visit V W)) (h : Handle) (s : Frame V W) : Prop where
  /-- On the stack in front of decided branches and of the stores of copies. -/
  top : ∀ a, [a, h] ∈ decidedBranches obstructors b.listing ∨
    [a, h] ∈ obstructorCopies obstructors b.listing → M.HasZero s
  /-- In a slot that a copy was stored to. -/
  slots : ∀ slot x y, Slot.lastStore? b.listing slot (passed.map (·.handle)) = some y →
    [x, y] ∈ obstructorCopies obstructors b.listing →
    ∃ v, s.slots slot = some v ∧ M.isZero v = true

/-- What one instruction does to what is known. -/
theorem KnowsZeros.step (known : KnowsZeros M obstructors b passed h s)
    (apart : ToldApart obstructors b) (wf : b.listing.WellFormed) (jumps : BranchesJump b.listing)
    (loads : LoadsRead b.listing) (zero : ∀ m ∈ obstructors, M.PushesZero (.field .getstatic m))
    (before : M.Execution b start passed h s) (effect : M.Effect h (b.listing.get h) s e s')
    (leads : M.Leads b h e n) : KnowsZeros M obstructors b (⟨h, s⟩ :: passed) n s' where
  top := by
    intro a hrun
    obtain ⟨rfl, rfl⟩ := apart.eq_of_leads wf jumps loads before.mem_reals hrun leads
    obtain ⟨-, ⟨m, hmem, hget⟩ | ⟨hdecided, slot, hget⟩⟩ := exists_of_mem_either jumps loads hrun
    · exact hasZero_of_field (zero m hmem) (hget ▸ effect)
    · -- the slot holds what a copy has left there
      have hloaded : (b.listing.get h).loaded? = some slot := by rw [hget]; rfl
      obtain ⟨x, y, hlast, hcopy⟩ :=
        apart.copied h n slot _ hdecided hloaded (before.provides slot)
      obtain ⟨v, hv, hzero⟩ := known.slots slot x y hlast hcopy
      rw [hget] at effect
      obtain ⟨v', hv', -, rfl⟩ := effect.of_load (by decide)
      cases hv.symm.trans hv'
      exact ⟨v, _, rfl, hzero⟩
  slots := by
    intro slot x y hlast hcopy
    by_cases hstores : (b.listing.get h).stored? = some slot
    · have hy : Slot.lastStore? b.listing slot (h :: passed.map (·.handle)) = some h :=
        List.find?_cons_of_pos (by simp [hstores])
      cases hy.symm.trans hlast
      obtain ⟨v, stack, hstack, hzero⟩ := known.top x (.inr hcopy)
      obtain ⟨x', y', m, heq, -, -, -, hplace⟩ := mem_obstructorCopies_iff.1 hcopy
      cases heq
      obtain ⟨op, hop, hget⟩ := slot_of_storePlace hplace hstores
      rw [hget] at effect
      obtain ⟨v', stack', hstack', -, rfl⟩ := effect.of_store hop
      cases hstack.symm.trans hstack'
      exact ⟨v, Function.update_self .., hzero⟩
    · have hsame : Slot.lastStore? b.listing slot (h :: passed.map (·.handle)) =
          Slot.lastStore? b.listing slot (passed.map (·.handle)) :=
        List.find?_cons_of_neg (by simpa using hstores)
      rw [effect.slots_eq hstores]
      exact known.slots slot x y (hsame.symm.trans hlast) hcopy

/-- What is known wherever control comes. -/
theorem ToldApart.knowsZeros (apart : ToldApart obstructors b) (wf : b.listing.WellFormed)
    (jumps : BranchesJump b.listing) (loads : LoadsRead b.listing)
    (zero : ∀ m ∈ obstructors, M.PushesZero (.field .getstatic m))
    (execution : M.Execution b start passed h s) : KnowsZeros M obstructors b passed h s := by
  induction execution with
  | @entry h first =>
    refine ⟨fun a hrun => ?_, fun slot x y hlast _ => by cases hlast⟩
    -- nothing stands in front of the first instruction
    obtain ⟨hstands, -⟩ := exists_of_mem_either jumps loads hrun
    obtain ⟨rest, hrest⟩ := List.head?_eq_some_iff.1 first
    have hnodup := wf.nodup_reals
    rw [hrest] at hstands hnodup
    have hne := (List.nodup_cons.1 (hnodup.sublist hstands.sublist)).1
    rcases List.infix_cons_iff.1 hstands with hfront | hbehind
    · exact absurd (List.cons_prefix_cons.1 hfront).1 fun heq => hne (heq ▸ List.mem_cons_self)
    · exact absurd (hbehind.subset (by simp)) (List.nodup_cons.1 hnodup).1
  | step before effect leads ih => exact ih.step apart wf jumps loads zero before effect leads

end

/-! ### What goes -/

/-- Deciding branches keeps a listing well formed. -/
theorem wf_decideAll (wf : l.WellFormed) (obstructors : List Member) :
    (decideAll obstructors l).WellFormed := by
  refine (Listing.edits_foldl (fun l => l) (s := l) wf fun l' e run hrun => ?_).wf
  have hrun := List.mem_of_mem_filter hrun
  exact edits_decideBranch e.wf fun h hh => (e.not_label_of_run wf hrun hh).2

/-- The runs of branches that are decided have no instruction in common. -/
theorem disjoint_decidedBranches (wf : l.WellFormed) (obstructors : List Member) :
    (decidedBranches obstructors l).Pairwise List.Disjoint :=
  ((obstructorPredicate.runs_apart l).2.2 wf.nodup).filter _

/-- What goes when branches are decided belongs to one of them. -/
theorem exists_of_gone (hlinked : h ∈ l.handles) (hgone : h ∉ (decideAll obstructors l).handles) :
    ∃ run ∈ decidedBranches obstructors l, h ∈ run := by
  by_contra hout
  push Not at hout
  exact hgone ((foldl_decideBranch_outside hout l).2.2 hlinked)

/-- What becomes of the pair when a branch is decided. -/
theorem decideAll_inside (wf : l.WellFormed) (hrun : [a, c] ∈ decidedBranches obstructors l)
    {op : Opcode} {t : Label} (hget : l.get c = .jump op t) (hop : op = .ifeq ∨ op = .ifne) :
    a ∉ (decideAll obstructors l).handles ∧
      (op = .ifeq ∧ c ∈ (decideAll obstructors l).handles ∧
        (decideAll obstructors l).get c = .jump .goto t ∨
      op = .ifne ∧ c ∉ (decideAll obstructors l).handles) :=
  foldl_decideBranch_inside wf (fun _ hrun => List.mem_of_mem_filter hrun)
    (disjoint_decidedBranches wf obstructors) hrun hget hop

/-- A jump is neither the load nor the store of a copy. -/
theorem not_mem_copy_of_jump {op : Opcode} {t : Label} (hget : l.get h = .jump op t)
    (hop : storePlace.accepts op = false) {run : List Handle}
    (hrun : run ∈ obstructorCopies obstructors l) : h ∉ run := by
  intro hh
  obtain ⟨x, y, m, rfl, -, -, hload, hplace⟩ := mem_obstructorCopies_iff.1 hrun
  rcases List.mem_pair.1 hh with rfl | rfl
  · rw [hget] at hload
    cases hload
  · rw [Pattern.Place.holds, hget] at hplace
    exact absurd (hop.symm.trans hplace) Bool.false_ne_true

/-- What is left when the copies are taken out of what is decided. -/
theorem removePredicates_left (wf : b.listing.WellFormed) (obstructors : List Member) :
    (∀ h, (removePredicates obstructors b).2.listing.get h =
        (decideAll obstructors b.listing).get h) ∧
      ∀ h, h ∈ (removePredicates obstructors b).2.listing.handles ↔
        h ∈ (decideAll obstructors b.listing).handles ∧
          ∀ run ∈ obstructorCopies obstructors (decideAll obstructors b.listing), h ∉ run := by
  rw [removePredicates_eq, removeCopies,
    Listing.foldl_remove_eq_restrict (wf_decideAll wf obstructors)]
  refine ⟨fun h => by rw [Listing.get_restrict], fun h => ?_⟩
  rw [Listing.handles_restrict, List.mem_filter]
  simp

/-- If one item of a list stands in front of another one, something stands right behind it. -/
theorem exists_pair_isInfix {α : Type} {xs : List α} {a b : α} (h : [a, b].Sublist xs) :
    ∃ c, [a, c] <:+: xs := by
  obtain ⟨front, back, rfl, ha, hb⟩ :=
    List.append_sublist_iff.1 (show ([a] ++ [b]).Sublist xs from h)
  obtain ⟨first, second, rfl⟩ := List.append_of_mem (List.singleton_sublist.1 ha)
  cases hrest : second ++ back with
  | nil =>
    obtain ⟨-, rfl⟩ := List.append_eq_nil_iff.1 hrest
    exact absurd hb (by simp)
  | cons c rest =>
    exact ⟨c, first, rest, by simp [hrest]⟩

/-- The copies that are taken out were copies before. -/
theorem ToldApart.copies_decideAll (apart : ToldApart obstructors b) (wf : b.listing.WellFormed)
    (jumps : BranchesJump b.listing) (loads : LoadsRead b.listing) {run : List Handle}
    (hrun : run ∈ obstructorCopies obstructors (decideAll obstructors b.listing)) :
    run ∈ obstructorCopies obstructors b.listing := by
  have d := decides_decideAll obstructors b.listing
  obtain ⟨x, y, m, rfl, hstands, hmem, hget, hplace⟩ := mem_obstructorCopies_iff.1 hrun
  have hget' : b.listing.get x = .field .getstatic m := by
    rcases d.nodes x with hsame | ⟨t, -, hjump⟩
    · exact hsame.symm.trans hget
    · rw [hjump] at hget
      cases hget
  rw [d.holds_eq (by decide +kernel) (by decide +kernel)] at hplace
  have hx := List.mem_of_mem_filter (hstands.subset List.mem_cons_self)
  have hy := hstands.subset (List.mem_cons_of_mem _ List.mem_cons_self)
  have hreals : (decideAll obstructors b.listing).reals =
      (decideAll obstructors b.listing).handles.filter b.listing.isReal :=
    List.filter_congr fun h _ => d.isReal_eq h
  have hsub : (decideAll obstructors b.listing).reals.Sublist b.listing.reals := by
    rw [hreals]
    exact d.sublist.filter _
  -- what stood right behind the load is still there, so it is the store
  obtain ⟨a, hnext⟩ := exists_pair_isInfix (hstands.sublist.trans hsub)
  have hstays : a ∈ (decideAll obstructors b.listing).handles := by
    by_contra hgone
    have hlinked := Listing.mem_handles_of_isInfix hnext (List.mem_cons_of_mem _ List.mem_cons_self)
    obtain ⟨run, hdecided, ha⟩ := exists_of_gone hlinked hgone
    obtain ⟨a', c', op, t, rfl, hpair, -, hbranch, hop⟩ :=
      exists_of_mem_decidedBranches jumps loads hdecided
    rcases List.mem_pair.1 ha with rfl | rfl
    · exact apart.unbroken x a c' m hmem hget' hnext hdecided
    · -- then the load stands in front of a decided branch, and goes itself
      obtain rfl := eq_of_pair_isInfix_right wf.nodup_reals hnext hpair
      exact (decideAll_inside wf hdecided hbranch hop).1 hx
  have hpair : [x, a] <:+: (decideAll obstructors b.listing).reals := by
    refine pair_isInfix_of_sublist wf.nodup_reals hsub (hstands.subset List.mem_cons_self) ?_ hnext
    rw [hreals]
    exact List.mem_filter.2 ⟨hstays, List.of_mem_filter (hnext.subset (by simp))⟩
  obtain rfl := eq_of_pair_isInfix (wf.nodup_reals.sublist hsub) hpair hstands
  exact mem_obstructorCopies_iff.2 ⟨x, a, m, rfl, hnext, hmem, hget', hplace⟩

/-- A store that goes belongs to a copy. -/
theorem ToldApart.exists_copy (apart : ToldApart obstructors b) (wf : b.listing.WellFormed)
    (jumps : BranchesJump b.listing) (loads : LoadsRead b.listing) {slot : UInt16}
    (hlinked : h ∈ b.listing.handles) (hstores : (b.listing.get h).stored? = some slot)
    (hgone : h ∉ (removePredicates obstructors b).2.listing.handles) :
    ∃ x, [x, h] ∈ obstructorCopies obstructors b.listing := by
  rw [(removePredicates_left wf obstructors).2, not_and_or] at hgone
  rcases hgone with hgone | hgone
  · -- what is decided stores nothing
    obtain ⟨run, hdecided, hh⟩ := exists_of_gone hlinked hgone
    obtain ⟨a, c, op, t, rfl, -, hload, hbranch, -⟩ :=
      exists_of_mem_decidedBranches jumps loads hdecided
    rcases List.mem_pair.1 hh with rfl | rfl
    · rcases hload with ⟨m, -, hget⟩ | ⟨slot', hget⟩ <;> rw [hget] at hstores <;> cases hstores
    · rw [hbranch] at hstores
      cases hstores
  · push Not at hgone
    obtain ⟨run, hrun, hh⟩ := hgone
    have hcopy := apart.copies_decideAll wf jumps loads hrun
    obtain ⟨x, y, m, rfl, -, -, hget, -⟩ := mem_obstructorCopies_iff.1 hcopy
    rcases List.mem_pair.1 hh with rfl | rfl
    · rw [hget] at hstores
      cases hstores
    · exact ⟨x, hcopy⟩

/-! ### Executions of the body -/

section

open Machine

variable {V W : Type} {M : Machine V W} {start s : Frame V W} {passed : List (Visit V W)}

/-- Where control has come to an instruction past others, the instruction was rightly rewritten or
left. -/
structure RemovedRightly (M : Machine V W) (b b' : Body) (passed : List (Visit V W)) (h : Handle)
    (s : Frame V W) : Prop where
  /-- A branch that is rewritten goes on: a branch on false that became a jump at its target, and a
  branch on true that is gone at the next instruction. -/
  branch : ∀ op t, op = .ifeq ∨ op = .ifne → b.listing.get h = .jump op t →
    h ∉ b'.listing.handles ∨ b'.listing.get h ≠ b.listing.get h →
    (∃ e s', M.Effect h (b.listing.get h) s e s') ∧
      ∀ e s', M.Effect h (b.listing.get h) s e s' →
        op = .ifeq ∧ h ∈ b'.listing.handles ∧ b'.listing.get h = .jump .goto t ∧ e = .target t ∨
        op = .ifne ∧ h ∉ b'.listing.handles ∧ e = .below
  /-- What is left does not read what a store has left in a slot that is gone. -/
  read : ∀ slot y, h ∈ b'.listing.handles → (b.listing.get h).loaded? = some slot →
    Slot.lastStore? b.listing slot (passed.map (·.handle)) = some y → y ∈ b'.listing.handles

/-- A branch that is rewritten was decided. -/
theorem exists_decided (wf : b.listing.WellFormed) {op : Opcode} {t : Label}
    (hlinked : h ∈ b.listing.handles) (hget : b.listing.get h = .jump op t)
    (hop : op = .ifeq ∨ op = .ifne)
    (hchanged : h ∉ (removePredicates obstructors b).2.listing.handles ∨
      (removePredicates obstructors b).2.listing.get h ≠ b.listing.get h) :
    ∃ run ∈ decidedBranches obstructors b.listing, h ∈ run := by
  by_contra hout
  push Not at hout
  obtain ⟨hgetLeft, hmemLeft⟩ := removePredicates_left wf obstructors
  obtain ⟨hsame, hmem⟩ := foldl_decideBranch_outside hout b.listing
  have hsame : (decideAll obstructors b.listing).get h = b.listing.get h := hsame
  rcases hchanged with hgone | hdiffers
  · have hstore : storePlace.accepts op = false := by
      rcases hop with rfl | rfl <;> decide +kernel
    exact hgone ((hmemLeft h).2 ⟨hmem.2 hlinked, fun run hrun =>
      not_mem_copy_of_jump (hsame.trans hget) hstore hrun⟩)
  · exact hdiffers ((hgetLeft h).trans hsame)

/-- Where the copies of flow obstructors can be told apart from other stores, every branch that is
rewritten goes the way it is rewritten whenever control comes to it, and nothing that is left reads a
copy that is gone. -/
theorem removePredicates_rightly (wf : b.listing.WellFormed) (jumps : BranchesJump b.listing)
    (loads : LoadsRead b.listing) (apart : ToldApart obstructors b)
    (zero : ∀ m ∈ obstructors, M.PushesZero (.field .getstatic m))
    (execution : M.Execution b start passed h s) :
    RemovedRightly M b (removePredicates obstructors b).2 passed h s where
  branch := by
    intro op t hop hget hchanged
    have hlinked := List.mem_of_mem_filter execution.mem_reals
    obtain ⟨run, hdecided, hh⟩ := exists_decided wf hlinked hget hop hchanged
    obtain ⟨a, c, op', t', rfl, hstands, hload, hbranch, -⟩ :=
      exists_of_mem_decidedBranches jumps loads hdecided
    obtain rfl : h = c := by
      rcases List.mem_pair.1 hh with rfl | rfl
      · rcases hload with ⟨m, -, hload⟩ | ⟨slot, hload⟩ <;> rw [hload] at hget <;> cases hget
      · rfl
    cases hget.symm.trans hbranch
    obtain ⟨v, stack, hstack, hzero⟩ :=
      (apart.knowsZeros wf jumps loads zero execution).top a (.inl hdecided)
    obtain ⟨hgetLeft, hmemLeft⟩ := removePredicates_left wf obstructors
    rw [hget]
    refine ⟨?_, fun e s' effect => ?_⟩
    · obtain ⟨_, slots, world⟩ := s
      cases hstack
      exact ⟨_, _, .branch hop⟩
    · obtain ⟨v', stack', hstack', rfl, -⟩ := effect.of_branch hop
      cases hstack.symm.trans hstack'
      rw [hzero, hgetLeft, hmemLeft]
      rcases (decideAll_inside wf hdecided hget hop).2 with ⟨rfl, hstays, hjump⟩ | ⟨rfl, hgone⟩
      · exact .inl ⟨rfl, ⟨hstays, fun run hrun => not_mem_copy_of_jump hjump (by decide +kernel) hrun⟩,
          hjump, rfl⟩
      · exact .inr ⟨rfl, fun hand => hgone hand.1, rfl⟩
  read := by
    intro slot y hstays hloaded hlast
    by_contra hgone
    obtain ⟨v, hv, rfl⟩ := List.mem_map.1 (List.mem_of_find?_eq_some hlast)
    have hstores : (b.listing.get v.handle).stored? = some slot := by
      simpa using List.find?_some hlast
    have hlinked := List.mem_of_mem_filter (execution.mem_reals_of_mem v hv)
    obtain ⟨x, hcopy⟩ := apart.exists_copy wf jumps loads hlinked hstores hgone
    refine apart.unread h slot x v.handle (fun c hdecided => ?_) hloaded
      (hlast ▸ execution.provides slot) hcopy
    -- the load in front of a decided branch is gone
    obtain ⟨a', c', op, t, heq, -, -, hbranch, hop⟩ :=
      exists_of_mem_decidedBranches jumps loads hdecided
    cases heq
    exact (decideAll_inside wf hdecided hbranch hop).1
      (((removePredicates_left wf obstructors).2 h).1 hstays).1

end

/-- A machine of numbers on which static fields hold zero. -/
def zeroMachine : Machine Nat Unit where
  isZero v := v == 0
  address h := h
  add v amount := (v + amount.toInt).toNat
  Acts i stack _ t? stack' _ := t? = none ∧
    ((∃ m, i = .field .getstatic m) ∧ stack' = 0 :: stack ∨ i = .plain ⟨4⟩ ∧ stack' = 1 :: stack)
  Raises _ _ _ _ _ := False
  Catches _ _ := True

/-- Nothing in any slot. -/
def emptyFrame : Frame Nat Unit where
  stack := []
  slots _ := none
  world := ()

/-- A flow obstructor. -/
def flowField : Member := ⟨"a", "ob", "Z"⟩

/-- The machine with a zero in every field pushes zero for the obstructor. -/
theorem pushesZero_flowField :
    ∀ m ∈ [flowField], zeroMachine.PushesZero (.field .getstatic m) := by
  rintro m - stack world t? stack' world' ⟨ht, ⟨-, rfl⟩ | ⟨hne, -⟩⟩
  · exact ⟨ht, 0, rfl, rfl⟩
  · cases hne

/-- A body that branches on a copy of a flow obstructor and then uses the slot for a number that it
returns. -/
def returnedSlot : Body where
  listing :=
    { nodes := #[⟨.field .getstatic flowField, none⟩, ⟨.slot .istore 2, none⟩,
        ⟨.slot .iload 2, none⟩, ⟨.jump .ifne 8, none⟩, ⟨.plain ⟨4⟩, none⟩,
        ⟨.slot .istore 2, none⟩, ⟨.slot .iload 2, none⟩, ⟨.plain .ireturn, none⟩, ⟨.label, none⟩,
        ⟨.plain .iconst0, none⟩, ⟨.plain .ireturn, none⟩]
      order := #[0, 1, 2, 3, 4, 5, 6, 7, 8, 9, 10] }
  maxStack := 1
  maxLocals := 3

/-- One branch of the body is on an obstructor. -/
theorem decidedBranches_returnedSlot :
    decidedBranches [flowField] returnedSlot.listing = [[2, 3]] := by
  rw [decidedBranches, copySlots, copies, runs_obstructorPredicate, runs_obstructorCopy]
  decide +kernel

/-- One copy of the obstructor is removed from the body. -/
theorem obstructorCopies_returnedSlot :
    obstructorCopies [flowField] returnedSlot.listing = [[0, 1]] := by
  rw [obstructorCopies, runs_obstructorCopy]
  decide +kernel

/-- Which stores provide the value of the slot. -/
def returnedSources : List (Option Handle × Handle) :=
  [(none, 0), (none, 1), (some 1, 2), (some 1, 3), (some 1, 4), (some 1, 5), (some 1, 9),
    (some 1, 10), (some 5, 6), (some 5, 7)]

/-- What provides the value of the slot is one of the sources that are listed. -/
theorem mem_returnedSources {source : Option Handle} {h : Handle}
    (provides : returnedSlot.Provides 2 source h) : (source, h) ∈ returnedSources := by
  have hstore : ∀ p ∈ returnedSources, (returnedSlot.listing.get p.2).stored? = some 2 →
      ∀ n ∈ returnedSlot.successors p.2, (some p.2, n) ∈ returnedSources := by
    decide +kernel
  have hpass : ∀ p ∈ returnedSources, (returnedSlot.listing.get p.2).stored? ≠ some 2 →
      ∀ n ∈ returnedSlot.successors p.2, (p.1, n) ∈ returnedSources := by
    decide +kernel
  induction provides with
  | entry first =>
    cases first
    decide
  | store _ stores next ih => exact hstore _ ih stores _ next
  | pass _ passes next ih => exact hpass _ ih passes _ next

/-- All loads of the body read the slot. -/
theorem loaded?_returnedSlot {h : Handle} {slot : UInt16}
    (hloaded : (returnedSlot.listing.get h).loaded? = some slot) : slot = 2 ∧ (h = 2 ∨ h = 6) := by
  have hlt : h < 11 := by
    by_contra hge
    have hnone : returnedSlot.listing.nodes[h]? = none := Array.getElem?_eq_none (Nat.le_of_not_lt hge)
    rw [Listing.get, hnone] at hloaded
    cases hloaded
  interval_cases h <;> cases hloaded
  · exact ⟨rfl, .inl rfl⟩
  · exact ⟨rfl, .inr rfl⟩

/-- The body tells obstructors and other values apart. -/
theorem toldApart_returnedSlot : ToldApart [flowField] returnedSlot where
  copied := by
    rw [decidedBranches_returnedSlot, obstructorCopies_returnedSlot]
    intro a c slot source hrun hloaded provides
    cases List.mem_singleton.1 hrun
    obtain ⟨rfl, -⟩ := loaded?_returnedSlot hloaded
    have hsource : source = some 1 := by
      have hmem := mem_returnedSources provides
      simpa [returnedSources] using hmem
    exact ⟨0, 1, hsource, List.mem_singleton.2 rfl⟩
  unread := by
    rw [decidedBranches_returnedSlot, obstructorCopies_returnedSlot]
    intro h slot x y hother hloaded provides hcopy
    cases List.mem_singleton.1 hcopy
    obtain ⟨rfl, rfl | rfl⟩ := loaded?_returnedSlot hloaded
    · exact hother 3 (List.mem_singleton.2 rfl)
    · exact absurd (mem_returnedSources provides) (by decide)
  unentered := by
    rw [decidedBranches_returnedSlot, obstructorCopies_returnedSlot]
    rintro run (hrun | hrun) <;> cases List.mem_singleton.1 hrun <;> decide +kernel
  unbroken := by
    rw [decidedBranches_returnedSlot]
    intro x a c m hmem hget hnext hrun
    cases List.mem_singleton.1 hrun
    have hpair : [1, 2] <:+: returnedSlot.listing.reals := by decide +kernel
    have wf : returnedSlot.listing.WellFormed := ⟨by decide, by decide⟩
    obtain rfl := eq_of_pair_isInfix_right wf.nodup_reals hnext hpair
    cases hget

/-- The copy is read in front of the branch. -/
theorem execution_returnedSlot :
    ∃ passed slots, zeroMachine.Execution returnedSlot emptyFrame passed 3 ⟨[0], slots, ()⟩ ∧
      slots 2 = some 0 := by
  have hentered : zeroMachine.Execution returnedSlot emptyFrame [] 0 ⟨[], emptyFrame.slots, ()⟩ :=
    .entry rfl
  have hread : zeroMachine.Execution returnedSlot emptyFrame _ 1 ⟨[0], emptyFrame.slots, ()⟩ :=
    hentered.step (.act rfl ⟨rfl, .inl ⟨⟨flowField, rfl⟩, rfl⟩⟩) (.below rfl rfl)
  have hstored : zeroMachine.Execution returnedSlot emptyFrame _ 2
      ⟨[], Function.update emptyFrame.slots 2 (some 0), ()⟩ :=
    hread.step (.store (by decide)) (.below rfl rfl)
  exact ⟨_, _, hstored.step (.load (by decide) rfl) (.below rfl rfl), rfl⟩

/-- The branch of the body goes the way that it is rewritten. -/
theorem removePredicates_rightly_returnedSlot :
    returnedSlot.listing.WellFormed ∧ BranchesJump returnedSlot.listing ∧
    LoadsRead returnedSlot.listing ∧ ToldApart [flowField] returnedSlot ∧
    (∀ m ∈ [flowField], zeroMachine.PushesZero (.field .getstatic m)) ∧
    ∃ passed s, zeroMachine.Execution returnedSlot emptyFrame passed 3 s ∧
      RemovedRightly zeroMachine returnedSlot (removePredicates [flowField] returnedSlot).2 passed 3
        s := by
  have wf : returnedSlot.listing.WellFormed := ⟨by decide, by decide⟩
  have jumps : BranchesJump returnedSlot.listing := by decide +kernel
  have loads : LoadsRead returnedSlot.listing := by decide +kernel
  obtain ⟨passed, slots, execution, -⟩ := execution_returnedSlot
  exact ⟨wf, jumps, loads, toldApart_returnedSlot, pushesZero_flowField, passed, _, execution,
    removePredicates_rightly wf jumps loads toldApart_returnedSlot pushesZero_flowField execution⟩

/-! ### A slot that is branched on twice -/

/-- A body that branches on a copy of a flow obstructor and then uses the slot for a number that it
branches on. -/
def branchedSlot : Body where
  listing :=
    { nodes := #[⟨.field .getstatic flowField, none⟩, ⟨.slot .istore 2, none⟩,
        ⟨.slot .iload 2, none⟩, ⟨.jump .ifne 10, none⟩, ⟨.plain ⟨4⟩, none⟩, ⟨.slot .istore 2, none⟩,
        ⟨.slot .iload 2, none⟩, ⟨.jump .ifeq 10, none⟩, ⟨.plain ⟨4⟩, none⟩, ⟨.plain .ireturn, none⟩,
        ⟨.label, none⟩, ⟨.plain .iconst0, none⟩, ⟨.plain .ireturn, none⟩]
      order := #[0, 1, 2, 3, 4, 5, 6, 7, 8, 9, 10, 11, 12] }
  maxStack := 1
  maxLocals := 3

/-- The second branch reads a number other than zero. -/
theorem execution_branchedSlot :
    ∃ passed slots, zeroMachine.Execution branchedSlot emptyFrame passed 7 ⟨[1], slots, ()⟩ := by
  have hentered : zeroMachine.Execution branchedSlot emptyFrame [] 0 ⟨[], emptyFrame.slots, ()⟩ :=
    .entry rfl
  have hread : zeroMachine.Execution branchedSlot emptyFrame _ 1 ⟨[0], emptyFrame.slots, ()⟩ :=
    hentered.step (.act rfl ⟨rfl, .inl ⟨⟨flowField, rfl⟩, rfl⟩⟩) (.below rfl rfl)
  have hcopied : zeroMachine.Execution branchedSlot emptyFrame _ 2
      ⟨[], Function.update emptyFrame.slots 2 (some 0), ()⟩ :=
    hread.step (.store (by decide)) (.below rfl rfl)
  have hloaded : zeroMachine.Execution branchedSlot emptyFrame _ 3
      ⟨[0], Function.update emptyFrame.slots 2 (some 0), ()⟩ :=
    hcopied.step (.load (by decide) rfl) (.below rfl rfl)
  have hpassed : zeroMachine.Execution branchedSlot emptyFrame _ 4
      ⟨[], Function.update emptyFrame.slots 2 (some 0), ()⟩ :=
    hloaded.step (e := .below) (.branch (.inr rfl)) (.below rfl rfl)
  have hnumber : zeroMachine.Execution branchedSlot emptyFrame _ 5
      ⟨[1], Function.update emptyFrame.slots 2 (some 0), ()⟩ :=
    hpassed.step (.act rfl ⟨rfl, .inr ⟨rfl, rfl⟩⟩) (.below rfl rfl)
  have hstored : zeroMachine.Execution branchedSlot emptyFrame _ 6
      ⟨[], Function.update (Function.update emptyFrame.slots 2 (some 0)) 2 (some 1), ()⟩ :=
    hnumber.step (.store (by decide)) (.below rfl rfl)
  exact ⟨_, _, hstored.step (.load (by decide) rfl) (.below rfl rfl)⟩

/-- The branch on the other number is decided as if the copy was still in the slot: it falls through,
but becomes a jump. -/
theorem removePredicates_misjudges_reused_slot :
    branchedSlot.listing.WellFormed ∧ BranchesJump branchedSlot.listing ∧
    LoadsRead branchedSlot.listing ∧
    (∀ m ∈ [flowField], zeroMachine.PushesZero (.field .getstatic m)) ∧
    branchedSlot.listing.get 7 = .jump .ifeq 10 ∧
    (removePredicates [flowField] branchedSlot).2.listing.get 7 = .jump .goto 10 ∧
    ∃ passed s, zeroMachine.Execution branchedSlot emptyFrame passed 7 s ∧
      (∀ e s', zeroMachine.Effect 7 (branchedSlot.listing.get 7) s e s' → e = .below) ∧
      ¬RemovedRightly zeroMachine branchedSlot (removePredicates [flowField] branchedSlot).2 passed 7
        s := by
  have wf : branchedSlot.listing.WellFormed := ⟨by decide, by decide⟩
  have hget : branchedSlot.listing.get 7 = .jump .ifeq 10 := rfl
  -- The branch is decided, since the slot it reads is that of the copy, although another value is
  -- in it by then.
  have hdecided : [6, 7] ∈ decidedBranches [flowField] branchedSlot.listing := by
    have hruns : decidedBranches [flowField] branchedSlot.listing = [[2, 3], [6, 7]] := by
      rw [decidedBranches, copySlots, copies, runs_obstructorPredicate, runs_obstructorCopy]
      decide +kernel
    rw [hruns]
    decide
  have hjump : (removePredicates [flowField] branchedSlot).2.listing.get 7 = .jump .goto 10 := by
    rcases (decideAll_inside wf hdecided hget (.inl rfl)).2 with ⟨-, -, hjump⟩ | ⟨hne, -⟩
    · exact ((removePredicates_left wf [flowField]).1 7).trans hjump
    · cases hne
  obtain ⟨passed, slots, execution⟩ := execution_branchedSlot
  have hbelow : ∀ e s', zeroMachine.Effect 7 (branchedSlot.listing.get 7) ⟨[1], slots, ()⟩ e s' →
      e = .below := by
    intro e s' effect
    obtain ⟨v, stack, hstack, rfl, -⟩ := effect.of_branch (.inl rfl)
    cases hstack
    rfl
  -- Control can only go on below, so a jump in its place is wrong.
  refine ⟨wf, by decide +kernel, by decide +kernel, pushesZero_flowField, hget, hjump, passed, _,
    execution, hbelow, fun rightly => ?_⟩
  have hchanged : (removePredicates [flowField] branchedSlot).2.listing.get 7 ≠
      branchedSlot.listing.get 7 := by
    rw [hjump, hget]
    decide
  obtain ⟨⟨e, s', effect⟩, hgoes⟩ := rightly.branch .ifeq 10 (.inl rfl) hget (.inr hchanged)
  cases hbelow e s' effect
  rcases hgoes _ s' effect with ⟨-, -, -, hne⟩ | ⟨hne, -⟩ <;> cases hne

/-! ### A copy that is read without a branch -/

/-- A body that returns a copy of a flow obstructor. -/
def returnedCopy : Body where
  listing :=
    { nodes := #[⟨.field .getstatic flowField, none⟩, ⟨.slot .istore 2, none⟩,
        ⟨.slot .iload 2, none⟩, ⟨.plain .ireturn, none⟩]
      order := #[0, 1, 2, 3] }
  maxStack := 1
  maxLocals := 3

/-- The copy goes although the load that reads it is left. -/
theorem removePredicates_leaves_read :
    returnedCopy.listing.WellFormed ∧ BranchesJump returnedCopy.listing ∧
    LoadsRead returnedCopy.listing ∧
    (removePredicates [flowField] returnedCopy).2.listing.handles = [2, 3] ∧
    ∃ passed s, zeroMachine.Execution returnedCopy emptyFrame passed 2 s ∧
      Slot.lastStore? returnedCopy.listing 2 (passed.map (·.handle)) = some 1 ∧
      ¬RemovedRightly zeroMachine returnedCopy (removePredicates [flowField] returnedCopy).2 passed 2
        s := by
  have hleft : (removePredicates [flowField] returnedCopy).2.listing.handles = [2, 3] := by
    rw [removePredicates, copies, runs_obstructorPredicate, runs_obstructorCopy]
    dsimp only
    rw [runs_obstructorCopy]
    decide +kernel
  have hentered : zeroMachine.Execution returnedCopy emptyFrame [] 0 ⟨[], emptyFrame.slots, ()⟩ :=
    .entry rfl
  have hread : zeroMachine.Execution returnedCopy emptyFrame _ 1 ⟨[0], emptyFrame.slots, ()⟩ :=
    hentered.step (.act rfl ⟨rfl, .inl ⟨⟨flowField, rfl⟩, rfl⟩⟩) (.below rfl rfl)
  have hstored : zeroMachine.Execution returnedCopy emptyFrame _ 2
      ⟨[], Function.update emptyFrame.slots 2 (some 0), ()⟩ :=
    hread.step (.store (by decide)) (.below rfl rfl)
  refine ⟨⟨by decide, by decide⟩, by decide +kernel, by decide +kernel, hleft, _, _, hstored, rfl,
    fun rightly => ?_⟩
  have hkept := rightly.read 2 1 (by rw [hleft]; decide) rfl rfl
  rw [hleft] at hkept
  exact absurd hkept (by decide)

end Idiom

end Unscramble
