import Unscramble.Proofs.Slot.Split

/-! # Subroutines

A call of a subroutine jumps to it and leaves the position behind the call as return address. The
subroutine keeps the address in a slot, and `RET` goes on at the address that its slot holds. The
flow graph has no edge for that: there a call is a jump that control can also pass, and nothing
follows a `RET`. So a path of the graph goes past the subroutines that have returned, and a load
keeps its store if none of those wrote the slot in the meantime.

Main definitions: `Goes`, `Execution`, `unreturned`. Main statements: `Execution.path`,
`Execution.split`, `split_keeps_stores_of_unreturned`. -/

namespace Unscramble.Slot

/-! ### Executions -/

/-- An instruction that control passed. -/
structure Passage where
  /-- The instruction. -/
  handle : Handle
  /-- The return address that it stored. -/
  address : Option Handle
deriving DecidableEq, Repr

/-- The instruction calls a subroutine. -/
def isCall (l : Listing) (h : Handle) : Bool :=
  (l.get h).hasOpcode .jsr

/-- The instruction returns from a subroutine. -/
def isReturn (l : Listing) (h : Handle) : Bool :=
  (l.get h).hasOpcode .ret

/-- The instruction calls a subroutine and leaves `n` as return address. -/
def returnsTo (l : Listing) (n h : Handle) : Bool :=
  isCall l h && l.next? h == some n

/-- The return address that a slot holds. -/
def held? (l : Listing) (slot : UInt16) (passed : List Passage) : Option Handle :=
  (passed.find? fun p => (l.get p.handle).stored? == some slot).bind (·.address)

/-- What an instruction can store as a return address: nothing, or for `ASTORE` an address that some
call has left. -/
def MayStore (l : Listing) (passed : List Passage) (h : Handle) (address : Option Handle) : Prop :=
  ∀ a, address = some a →
    (l.get h).hasOpcode .astore = true ∧ ∃ p ∈ passed, returnsTo l a p.handle = true

/-- Control goes from one instruction to another after the passed ones. -/
inductive Goes (b : Body) (passed : List Passage) (h n : Handle) : Prop
  /-- The instruction has to do with no subroutine. -/
  | plain (call : isCall b.listing h = false) (ret : isReturn b.listing h = false)
      (step : Step b h n)
  /-- A subroutine begins. -/
  | call (call : isCall b.listing h = true) (mem : n ∈ (b.listing.get h).targets)
      (linked : n ∈ b.listing.handles)
  /-- A subroutine is left for the address that a slot holds. -/
  | ret (ret : isReturn b.listing h = true) (slot : UInt16)
      (reads : (b.listing.get h).loaded? = some slot)
      (holds : held? b.listing slot passed = some n)

/-- Control comes from the entry to an instruction past others, which are listed with the latest
first. -/
inductive Execution (b : Body) : List Passage → Handle → Prop
  /-- Control enters. -/
  | entry {h : Handle} (first : b.listing.first? = some h) : Execution b [] h
  /-- Control goes on. -/
  | step {passed : List Passage} {h n : Handle} {address : Option Handle}
      (before : Execution b passed h) (stores : MayStore b.listing passed h address)
      (goes : Goes b passed h n) : Execution b (⟨h, address⟩ :: passed) n

/-- The passed instructions, the latest first, without the subroutines that have returned. In front of
`n`, which a subroutine has just returned to if `returning`, the latest ones are left out back to the
call that left `n` as return address. -/
def unreturned (l : Listing) (n : Handle) (returning : Bool) : List Handle → List Handle
  | [] => []
  | h :: passed =>
    if (if returning then returnsTo l n h else !isReturn l h) then
      h :: unreturned l h false passed
    else unreturned l n true passed

variable {b : Body} {l : Listing} {passed : List Passage} {h n : Handle} {slot : UInt16}

/-- Control goes to linked instructions if the addresses in slots are linked. -/
theorem Goes.linked (goes : Goes b passed h n) (haddress : ∀ slot,
    held? b.listing slot passed = some n → n ∈ b.listing.handles) : n ∈ b.listing.handles := by
  cases goes with
  | plain _ _ step =>
    cases step with
    | pass _ next => exact Listing.mem_handles_of_next? next
    | target _ linked => exact linked
    | caught _ _ _ _ linked => exact linked
  | call _ _ linked => exact linked
  | ret _ slot _ holds => exact haddress slot holds

/-- The address that a slot holds was left by a call. -/
theorem Execution.exists_returnsTo (execution : Execution b passed h)
    (holds : held? b.listing slot passed = some n) :
    ∃ p ∈ passed, returnsTo b.listing n p.handle = true := by
  -- every address that was stored was left by a call
  have hall : ∀ p ∈ passed, ∀ a, p.address = some a →
      ∃ q ∈ passed, returnsTo b.listing a q.handle = true := by
    clear holds
    induction execution with
    | entry _ => simp
    | step _ stores _ ih =>
      intro p hp a ha
      rcases List.mem_cons.1 hp with rfl | hp
      · obtain ⟨q, hq, hcall⟩ := (stores a ha).2
        exact ⟨q, List.mem_cons_of_mem _ hq, hcall⟩
      · obtain ⟨q, hq, hcall⟩ := ih p hp a ha
        exact ⟨q, List.mem_cons_of_mem _ hq, hcall⟩
  obtain ⟨p, hfind, ha⟩ := Option.bind_eq_some_iff.1 holds
  exact hall p (List.mem_of_find?_eq_some hfind) n ha

/-- A return address is linked. -/
theorem mem_handles_of_returnsTo (hcall : returnsTo l n h = true) : n ∈ l.handles := by
  rw [returnsTo, Bool.and_eq_true, beq_iff_eq] at hcall
  exact Listing.mem_handles_of_next? hcall.2

/-- An execution leads to linked instructions. -/
theorem Execution.linked (execution : Execution b passed h) : h ∈ b.listing.handles := by
  cases execution with
  | entry first =>
    rw [Listing.first?_eq_head?] at first
    exact List.mem_of_mem_head? first
  | step before _ goes =>
    refine goes.linked fun slot holds => ?_
    obtain ⟨p, -, hcall⟩ := before.exists_returnsTo holds
    exact mem_handles_of_returnsTo hcall

/-- An execution passes linked instructions. -/
theorem Execution.passed_linked (execution : Execution b passed h) :
    ∀ p ∈ passed, p.handle ∈ b.listing.handles := by
  induction execution with
  | entry _ => simp
  | step before _ _ ih =>
    intro p hp
    rcases List.mem_cons.1 hp with rfl | hp
    · exact before.linked
    · exact ih p hp

/-! ### Paths past the subroutines that have returned -/

/-- A call of a subroutine is not terminal. -/
theorem isTerminal_of_isCall (hcall : isCall l h = true) : (l.get h).isTerminal = false := by
  rw [isCall, Instruction.hasOpcode, beq_iff_eq] at hcall
  rw [Instruction.isTerminal, hcall]
  rfl

/-- No instruction both calls a subroutine and returns from one. -/
theorem isReturn_of_isCall (hcall : isCall l h = true) : isReturn l h = false := by
  rw [isCall, Instruction.hasOpcode, beq_iff_eq] at hcall
  rw [isReturn, Instruction.hasOpcode, hcall]
  rfl

/-- Control passes a call to the address that the call leaves. -/
theorem step_of_returnsTo (hcall : returnsTo b.listing n h = true) : Step b h n := by
  rw [returnsTo, Bool.and_eq_true, beq_iff_eq] at hcall
  exact .pass (isTerminal_of_isCall hcall.1) hcall.2

/-- Without the subroutines that have returned, an execution is a path. -/
theorem Execution.path (execution : Execution b passed h) :
    Path b (unreturned b.listing h false (passed.map (·.handle))) h := by
  -- at the same time, the part up to any call leads to the address that the call left
  suffices hboth : Path b (unreturned b.listing h false (passed.map (·.handle))) h ∧
      ∀ n, (∃ p ∈ passed, returnsTo b.listing n p.handle = true) →
        Path b (unreturned b.listing n true (passed.map (·.handle))) n from hboth.1
  induction execution with
  | entry first => exact ⟨.entry first, by simp⟩
  | @step passed x n address before stores goes ih =>
    obtain ⟨hpath, hcalls⟩ := ih
    refine ⟨?_, fun a ha => ?_⟩
    · rw [List.map_cons, unreturned]
      cases goes with
      | plain _ ret step =>
        rw [ret]
        exact .step hpath step
      | call call mem linked =>
        rw [isReturn_of_isCall call]
        exact .step hpath (.target mem linked)
      | ret ret slot reads holds =>
        rw [ret]
        exact hcalls n (before.exists_returnsTo holds)
    · rw [List.map_cons, unreturned]
      simp only [if_true]
      by_cases hx : returnsTo b.listing a x = true
      · rw [if_pos hx]
        exact .step hpath (step_of_returnsTo hx)
      · rw [if_neg hx]
        refine hcalls a ?_
        obtain ⟨p, hp, hcall⟩ := ha
        rcases List.mem_cons.1 hp with rfl | hp
        · exact absurd hcall hx
        · exact ⟨p, hp, hcall⟩

/-! ### What a split keeps -/

namespace Renumbered

variable {firstLocal : Nat} {l' : Listing} {new : Group → UInt16} {slot' : UInt16}

/-- The instructions that write the slot a load names now wrote the slot it named. -/
theorem stored?_of_loaded? (r : Renumbered firstLocal b l' new) (hh : h ∈ b.listing.handles)
    (hload : (b.listing.get h).loaded? = some slot) (hload' : (l'.get h).loaded? = some slot')
    {x : Handle} (hx : x ∈ b.listing.handles) (hstored : (l'.get x).stored? = some slot') :
    (b.listing.get x).stored? = some slot := by
  obtain ⟨j, hj⟩ := List.mem_iff_getElem?.1 hh
  have haccess : accessesSlot (b.listing.get h) = true := by
    rw [accessesSlot, hload]
    rfl
  obtain ⟨g, hg, hmem, -, -⟩ := exists_group firstLocal (mem_accesses hj haccess)
  rw [r.members g hg _ hmem, Instruction.loaded?_withSlot, hload] at hload'
  cases hload'
  exact r.stored?_of_stored? hg hmem (Instruction.slot?_of_loaded? hload) hx hstored

/-- Calls stay calls. -/
theorem isCall_eq (r : Renumbered firstLocal b l' new) (x : Handle) :
    isCall l' x = isCall b.listing x := by
  rw [isCall, isCall, Instruction.hasOpcode, Instruction.hasOpcode, r.opcode?_eq]

/-- Returns stay returns. -/
theorem isReturn_eq (r : Renumbered firstLocal b l' new) (x : Handle) :
    isReturn l' x = isReturn b.listing x := by
  rw [isReturn, isReturn, Instruction.hasOpcode, Instruction.hasOpcode, r.opcode?_eq]

/-- Calls leave the same address. -/
theorem returnsTo_eq (r : Renumbered firstLocal b l' new) (n x : Handle) :
    returnsTo l' n x = returnsTo b.listing n x := by
  rw [returnsTo, returnsTo, r.isCall_eq, r.next?_eq]

/-- Instructions can store the same addresses. -/
theorem mayStore (r : Renumbered firstLocal b l' new) {address : Option Handle}
    (stores : MayStore b.listing passed h address) : MayStore l' passed h address := by
  intro a ha
  obtain ⟨hop, p, hp, hcall⟩ := stores a ha
  rw [Instruction.hasOpcode, ← r.opcode?_eq] at hop
  exact ⟨hop, p, hp, (r.returnsTo_eq a p.handle).trans hcall⟩

/-- If the last store that an execution passed is also the last one outside the subroutines that have
returned, the split keeps the passage of that store. -/
theorem find?_eq (r : Renumbered firstLocal b l' new) (wf : b.listing.WellFormed)
    (execution : Execution b passed h) (hload : (b.listing.get h).loaded? = some slot) {s : Handle}
    (hlast : lastStore? b.listing slot (passed.map (·.handle)) = some s)
    (hunreturned : lastStore? b.listing slot
      (unreturned b.listing h false (passed.map (·.handle))) = some s) :
    ∃ slot', (l'.get h).loaded? = some slot' ∧
      (passed.find? fun p => (l'.get p.handle).stored? == some slot') =
        passed.find? fun p => (b.listing.get p.handle).stored? == some slot := by
  obtain ⟨slot', hload', hkept, -⟩ := r.lastStore?_eq wf execution.path hload
  refine ⟨slot', hload', ?_⟩
  -- the store writes the slot that the load names now
  have hstored' : (l'.get s).stored? = some slot' := by
    rw [hunreturned, lastStore?] at hkept
    simpa using List.find?_some hkept
  rw [lastStore?, List.find?_map, Option.map_eq_some_iff] at hlast
  obtain ⟨p, hfind, rfl⟩ := hlast
  have hfind : (passed.find? fun p => (b.listing.get p.handle).stored? == some slot) = some p :=
    hfind
  rw [hfind]
  obtain ⟨-, front, back, hs, hfront⟩ := List.find?_eq_some_iff_append.1 hfind
  rw [List.find?_eq_some_iff_append]
  refine ⟨by simpa using hstored', front, back, hs, ?_⟩
  -- and nothing that came later writes it
  intro q hq
  have hnot := hfront q hq
  simp only [Bool.not_eq_true', beq_eq_false_iff_ne, ne_eq] at hnot ⊢
  intro hq'
  have hlinked := execution.passed_linked q (by rw [hs]; simp [hq])
  exact hnot (r.stored?_of_loaded? execution.linked hload hload' hlinked hq')

end Renumbered

/-- No subroutine that has returned hides the store that the instruction at the end of an execution
reads from: the last store that was passed is the last one outside of these subroutines. -/
def ReadsUnreturned (l : Listing) (passed : List Passage) (h : Handle) : Prop :=
  ∀ slot, (l.get h).loaded? = some slot → ∀ s,
    lastStore? l slot (passed.map (·.handle)) = some s →
      lastStore? l slot (unreturned l h false (passed.map (·.handle))) = some s

/-- If no subroutine that has returned hides the address that a `RET` reads, an execution is one of
the split body. -/
theorem Renumbered.execution {firstLocal : Nat} {l' : Listing} {new : Group → UInt16}
    (r : Renumbered firstLocal b l' new) (wf : b.listing.WellFormed) {maxLocals : UInt16}
    (execution : Execution b passed h)
    (hreads : ∀ p rest, p :: rest <:+ passed → isReturn b.listing p.handle = true →
      ReadsUnreturned b.listing rest p.handle) :
    Execution { b with listing := l', maxLocals } passed h := by
  induction execution with
  | entry first => exact .entry (r.first?_eq.trans first)
  | @step passed x n address before stores goes ih =>
    refine .step (ih fun p rest hs => hreads p rest (hs.trans (List.suffix_cons _ _)))
      (r.mayStore stores) ?_
    cases goes with
    | plain call ret step =>
      exact .plain ((r.isCall_eq x).trans call) ((r.isReturn_eq x).trans ret) (r.step step)
    | call call mem linked =>
      rw [← r.targets_eq x] at mem
      exact .call ((r.isCall_eq x).trans call) mem (r.handles.symm ▸ linked)
    | ret ret slot reads holds =>
      -- the slot holds the address of the last store, which is the same in the split body
      obtain ⟨p, hfind, ha⟩ := Option.bind_eq_some_iff.1 holds
      have hlast : lastStore? b.listing slot (passed.map (·.handle)) = some p.handle := by
        rw [lastStore?, List.find?_map]
        exact congrArg (Option.map (·.handle)) hfind
      have hunreturned := hreads ⟨x, address⟩ passed (List.suffix_refl _) ret slot reads _ hlast
      obtain ⟨slot', reads', hsame⟩ := r.find?_eq wf before reads hlast hunreturned
      refine .ret ((r.isReturn_eq x).trans ret) slot' reads' ?_
      change (passed.find? fun p => (l'.get p.handle).stored? == some slot').bind (·.address) = _
      rw [hsame]
      exact holds

/-- Splitting slots keeps which store an instruction reads from in an execution with subroutines, if no
subroutine that has returned wrote the slot after that store. If this is so for every `RET` on the
way, the execution is one of the split body. It does not matter what keeps the sets of accesses. -/
theorem split_keeps_stores_of_unreturned {U : UnionFind} (hU : U.Lawful) (method : Method)
    (b b' : Body) (report : Split) (wf : b.listing.WellFormed)
    (hsplit : splitBy U method b = .ok (report, b'))
    (passed : List Passage) (h : Handle) (execution : Execution b passed h) (slot : UInt16)
    (hload : (b.listing.get h).loaded? = some slot) (s : Handle)
    (hlast : lastStore? b.listing slot (passed.map (·.handle)) = some s)
    (hunreturned : lastStore? b.listing slot
      (unreturned b.listing h false (passed.map (·.handle))) = some s) :
    (∃ slot', (b'.listing.get h).loaded? = some slot' ∧
      lastStore? b'.listing slot' (passed.map (·.handle)) = some s) ∧
      ((∀ p rest, p :: rest <:+ passed → isReturn b.listing p.handle = true →
        ReadsUnreturned b.listing rest p.handle) → Execution b' passed h) := by
  rw [splitBy_eq hU] at hsplit
  obtain ⟨new, r, heq⟩ := renumbered_split wf hsplit
  obtain ⟨slot', hload', hsame⟩ := r.find?_eq wf execution hload hlast hunreturned
  refine ⟨⟨slot', hload', ?_⟩, fun hreads => ?_⟩
  · rw [← hlast, lastStore?, lastStore?, List.find?_map, List.find?_map]
    exact congrArg (Option.map (·.handle)) hsame
  · rw [heq]
    exact r.execution wf execution hreads

/-- A method that returns an integer. -/
def callingMethod : Method where
  owner := "A"
  name := "f"
  descriptor := "()I"
  access := .staticFlag

/-- A body that keeps a value in a slot, calls a subroutine and returns the value. The subroutine keeps
its return address in a slot and writes a slot. -/
def callingBody (value address written maxLocals : UInt16) : Body where
  listing :=
    { nodes := #[⟨.plain ⟨3⟩, none⟩, ⟨.slot .istore value, none⟩, ⟨.jump .jsr 5, none⟩,
        ⟨.slot .iload value, none⟩, ⟨.plain .ireturn, none⟩, ⟨.label, none⟩,
        ⟨.slot .astore address, none⟩, ⟨.plain ⟨4⟩, none⟩, ⟨.slot .istore written, none⟩,
        ⟨.slot .ret address, none⟩]
      order := #[0, 1, 2, 3, 4, 5, 6, 7, 8, 9] }
  maxLocals

/-- What control has passed when the subroutine has returned. -/
def callingPassed : List Passage :=
  [⟨9, none⟩, ⟨8, none⟩, ⟨7, none⟩, ⟨6, some 3⟩, ⟨5, none⟩, ⟨2, none⟩, ⟨1, none⟩, ⟨0, none⟩]

/-- The subroutine returns to the instruction behind the call if its slot still holds the address. -/
theorem execution_callingBody {value address written maxLocals : UInt16}
    (holds : held? (callingBody value address written maxLocals).listing address
      (callingPassed.drop 1) = some 3) :
    Execution (callingBody value address written maxLocals) callingPassed 3 := by
  have hother : ∀ {passed : List Passage} {h : Handle},
      MayStore (callingBody value address written maxLocals).listing passed h none := nofun
  have hlinked : 5 ∈ [0, 1, 2, 3, 4, 5, 6, 7, 8, 9] := by decide
  have hbegins : Execution (callingBody value address written maxLocals)
      [⟨2, none⟩, ⟨1, none⟩, ⟨0, none⟩] 5 :=
    .step (.step (.step (.entry rfl) hother (.plain rfl rfl (.pass rfl rfl))) hother
      (.plain rfl rfl (.pass rfl rfl))) hother (.call rfl (List.mem_singleton.2 rfl) hlinked)
  have hstores : Execution (callingBody value address written maxLocals)
      [⟨6, some 3⟩, ⟨5, none⟩, ⟨2, none⟩, ⟨1, none⟩, ⟨0, none⟩] 7 := by
    refine .step (.step hbegins hother (.plain rfl rfl (.pass rfl rfl))) ?_
      (.plain rfl rfl (.pass rfl rfl))
    rintro a ⟨⟩
    exact ⟨rfl, ⟨2, none⟩, by decide, rfl⟩
  exact .step (.step (.step hstores hother (.plain rfl rfl (.pass rfl rfl))) hother
    (.plain rfl rfl (.pass rfl rfl))) hother (.ret rfl address rfl holds)

/-- The caller reads its value from where it stored it, also in other slots. -/
theorem split_keeps_stores_of_unreturned_calling :
    split callingMethod (callingBody 1 0 2 3) = .ok (⟨3, 4, 3, true⟩, callingBody 0 1 2 3) ∧
      Execution (callingBody 1 0 2 3) callingPassed 3 ∧
      lastStore? (callingBody 1 0 2 3).listing 1 (callingPassed.map (·.handle)) = some 1 ∧
      ∃ slot, ((callingBody 0 1 2 3).listing.get 3).loaded? = some slot ∧
        lastStore? (callingBody 0 1 2 3).listing slot (callingPassed.map (·.handle)) = some 1 := by
  have hsplit : split callingMethod (callingBody 1 0 2 3) =
      .ok (⟨3, 4, 3, true⟩, callingBody 0 1 2 3) := by cbv
  have wf : (callingBody 1 0 2 3).listing.WellFormed := ⟨by decide, by decide⟩
  have hexecution : Execution (callingBody 1 0 2 3) callingPassed 3 :=
    execution_callingBody rfl
  obtain ⟨hkept, -⟩ := split_keeps_stores_of_unreturned Partition.lawful_unionFind callingMethod
    (callingBody 1 0 2 3) (callingBody 0 1 2 3) ⟨3, 4, 3, true⟩ wf hsplit callingPassed 3 hexecution
    1 rfl 1 rfl rfl
  exact ⟨hsplit, hexecution, rfl, hkept⟩

/-- A subroutine that writes the caller's slot writes another one in the split body, so the caller
reads its own value there. -/
theorem split_hides_store_of_subroutine :
    split callingMethod (callingBody 0 1 0 2) = .ok (⟨3, 1, 3, true⟩, callingBody 0 1 2 3) ∧
      Execution (callingBody 0 1 0 2) callingPassed 3 ∧
      ((callingBody 0 1 0 2).listing.get 3).loaded? = some 0 ∧
      lastStore? (callingBody 0 1 0 2).listing 0 (callingPassed.map (·.handle)) = some 8 ∧
      Execution (callingBody 0 1 2 3) callingPassed 3 ∧
      ((callingBody 0 1 2 3).listing.get 3).loaded? = some 0 ∧
      lastStore? (callingBody 0 1 2 3).listing 0 (callingPassed.map (·.handle)) = some 1 :=
  ⟨by cbv, execution_callingBody rfl, rfl, rfl, execution_callingBody rfl, rfl, rfl⟩

end Unscramble.Slot
