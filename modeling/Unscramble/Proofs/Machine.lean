import Unscramble.Proofs.Flow.Normal
import Unscramble.Proofs.Stage.Locks

/-! # Running a body

A body runs on a machine with an operand stack and local slots. What loads, stores, copies on the
stack, jumps, subroutines and branches on zero do is the same on every machine. What the other
instructions do to the stack and to everything else, and which exceptions they raise, is up to the
machine; none of them touches the slots.

Main definitions: `Frame`, `Machine`, `Machine.Effect`, `Machine.Leads`, `Machine.Execution`,
`Machine.Shows`. Main statements: `Machine.Execution.mem_reals`, `Machine.Shows.trans`. -/

namespace Unscramble

open Idiom

/-- Whether an instruction does the same on every machine. -/
def Instruction.isFixed {L : Type} : Instruction L → Bool
  | .slot _ _ | .increment _ _ => true
  | .plain op => op == .dup
  | .jump op _ => op == .ifeq || op == .ifne || op == .goto || op == .jsr
  | _ => false

/-- What the instructions of a body work on. -/
structure Frame (V W : Type) where
  /-- The operand stack, its top first. -/
  stack : List V
  /-- The local slots, as far as they were written. -/
  slots : UInt16 → Option V
  /-- Everything else. -/
  world : W

/-- How control leaves an instruction. -/
inductive Exit (V : Type) where
  /-- For the next instruction. -/
  | below
  /-- For a label. -/
  | target (t : Label)
  /-- For the instruction behind a subroutine call. -/
  | back (call : Handle)
  /-- With an exception. -/
  | raised (x : V)

/-- A machine that bodies run on. -/
structure Machine (V W : Type) where
  /-- Whether a value is the number zero. -/
  isZero : V → Bool
  /-- The return address that a subroutine call leaves. -/
  address : Handle → V
  /-- The sum of a number and an amount. -/
  add : V → Int16 → V
  /-- What an instruction that is not fixed can do to the stack and the world. Control goes on at a
  label, or at the next instruction. -/
  Acts : Instruction Label → List V → W → Option Label → List V → W → Prop
  /-- The exceptions that such an instruction can raise. -/
  Raises : Instruction Label → List V → W → V → W → Prop
  /-- The exceptions that belong to a class; all, if there is no class. -/
  Catches : V → Option String → Prop

namespace Machine

variable {V W : Type}

/-- What an instruction can do to a frame. -/
inductive Effect (M : Machine V W) (h : Handle) :
    Instruction Label → Frame V W → Exit V → Frame V W → Prop
  /-- A load pushes what its slot holds. -/
  | load {op : Opcode} {n : UInt16} {v : V} {stack : List V} {slots : UInt16 → Option V} {world : W}
      (loads : op.isLoad = true) (holds : slots n = some v) :
      Effect M h (.slot op n) ⟨stack, slots, world⟩ .below ⟨v :: stack, slots, world⟩
  /-- A store pops what its slot holds from then on. -/
  | store {op : Opcode} {n : UInt16} {v : V} {stack : List V} {slots : UInt16 → Option V} {world : W}
      (stores : op.isStore = true) :
      Effect M h (.slot op n) ⟨v :: stack, slots, world⟩ .below
        ⟨stack, Function.update slots n (some v), world⟩
  /-- A subroutine is left for the address in a slot. -/
  | ret {n : UInt16} {call : Handle} {stack : List V} {slots : UInt16 → Option V} {world : W}
      (holds : slots n = some (M.address call)) :
      Effect M h (.slot .ret n) ⟨stack, slots, world⟩ (.back call) ⟨stack, slots, world⟩
  /-- A number in a slot is changed. -/
  | increment {n : UInt16} {amount : Int16} {v : V} {stack : List V} {slots : UInt16 → Option V}
      {world : W} (holds : slots n = some v) :
      Effect M h (.increment n amount) ⟨stack, slots, world⟩ .below
        ⟨stack, Function.update slots n (some (M.add v amount)), world⟩
  /-- The top of the stack is copied. -/
  | dup {v : V} {stack : List V} {slots : UInt16 → Option V} {world : W} :
      Effect M h (.plain .dup) ⟨v :: stack, slots, world⟩ .below ⟨v :: v :: stack, slots, world⟩
  /-- A jump. -/
  | goto {t : Label} {s : Frame V W} : Effect M h (.jump .goto t) s (.target t) s
  /-- A subroutine call pushes its return address. -/
  | call {t : Label} {stack : List V} {slots : UInt16 → Option V} {world : W} :
      Effect M h (.jump .jsr t) ⟨stack, slots, world⟩ (.target t)
        ⟨M.address h :: stack, slots, world⟩
  /-- A branch pops a number: one on zero is taken for zero, the other one for any other number. -/
  | branch {op : Opcode} {t : Label} {v : V} {stack : List V} {slots : UInt16 → Option V} {world : W}
      (branches : op = .ifeq ∨ op = .ifne) :
      Effect M h (.jump op t) ⟨v :: stack, slots, world⟩
        (if M.isZero v = (op == .ifeq) then .target t else .below) ⟨stack, slots, world⟩
  /-- What is not fixed acts. -/
  | act {i : Instruction Label} {stack stack' : List V} {slots : UInt16 → Option V} {world world' : W}
      {t? : Option Label} (free : i.isFixed = false)
      (acts : M.Acts i stack world t? stack' world') :
      Effect M h i ⟨stack, slots, world⟩ (t?.elim .below .target) ⟨stack', slots, world'⟩
  /-- What is not fixed can raise an exception, which is left alone on the stack. -/
  | raise {i : Instruction Label} {stack : List V} {slots : UInt16 → Option V} {world world' : W}
      {x : V} (free : i.isFixed = false) (raises : M.Raises i stack world x world') :
      Effect M h i ⟨stack, slots, world⟩ (.raised x) ⟨[x], slots, world'⟩

/-- Which instruction control comes to when it leaves another one. -/
inductive Leads (M : Machine V W) (b : Body) (h : Handle) : Exit V → Handle → Prop
  /-- The next one, unless control never falls through. -/
  | below {n : Handle} (running : (b.listing.get h).isTerminal = false)
      (next : realAfter? b.listing h = some n) : Leads M b h .below n
  /-- The one at a target. -/
  | target {t : Label} {n : Handle} (mem : t ∈ (b.listing.get h).targets)
      (linked : t ∈ b.listing.handles) (next : b.listing.nextReal? t = some n) :
      Leads M b h (.target t) n
  /-- The one behind a subroutine call. -/
  | back {c n : Handle} (linked : c ∈ b.listing.handles)
      (calls : (b.listing.get c).hasOpcode .jsr = true) (next : realAfter? b.listing c = some n) :
      Leads M b h (.back c) n
  /-- The one at the handler of the first range that covers the instruction and catches the
  exception. -/
  | caught {x : V} {front back : List (Guard Label)} {g : Guard Label} {n : Handle}
      (guards : b.guards = front ++ g :: back) (covers : Flow.Covers b.listing g h)
      (catches : M.Catches x g.catches)
      (first : ∀ other ∈ front, Flow.Covers b.listing other h → ¬M.Catches x other.catches)
      (linked : g.handler ∈ b.listing.handles) (next : b.listing.nextReal? g.handler = some n) :
      Leads M b h (.raised x) n

/-- An instruction that was executed, with the frame that it found. -/
structure Visit (V W : Type) where
  /-- The instruction. -/
  handle : Handle
  /-- The frame in front of it. -/
  frame : Frame V W

/-- Control comes to an instruction with a frame, past others, which are listed with the latest
first. -/
inductive Execution (M : Machine V W) (b : Body) (start : Frame V W) :
    List (Visit V W) → Handle → Frame V W → Prop
  /-- Control enters. -/
  | entry {h : Handle} (first : b.listing.reals.head? = some h) : Execution M b start [] h start
  /-- Control goes on. -/
  | step {passed : List (Visit V W)} {h n : Handle} {s s' : Frame V W} {e : Exit V}
      (before : Execution M b start passed h s) (effect : M.Effect h (b.listing.get h) s e s')
      (leads : M.Leads b h e n) : Execution M b start (⟨h, s⟩ :: passed) n s'

end Machine

/-! ### Real instructions one after the other -/

namespace Listing

variable {l : Listing} {a h n t : Handle}

/-- The real instruction behind another one is the first that follows. -/
theorem realAfter?_eq_head? (l : Listing) (h : Handle) : realAfter? l h = (l.follow h).head? :=
  (List.head?_filter ..).symm

/-- What stands behind a real instruction stands next to it. -/
theorem realAfter?_eq_some_iff (wf : l.WellFormed) (hreal : l.isReal h = true) :
    realAfter? l h = some n ↔ [h, n] <:+: l.reals := by
  rw [realAfter?_eq_head?]
  constructor
  · intro hn
    obtain ⟨rest, hrest⟩ := List.head?_eq_some_iff.1 hn
    have hm : h ∈ l.handles := by
      by_contra hm
      rw [follow, after_eq_tail, onward_eq_nil hm] at hrest
      cases hrest
    have hsuffix := (l.onward_suffix h).filter l.isReal
    rw [onward_eq_cons hm, List.filter_cons_of_pos hreal] at hsuffix
    change h :: l.follow h <:+ l.reals at hsuffix
    rw [hrest] at hsuffix
    exact (List.prefix_append [h, n] rest).isInfix.trans hsuffix.isInfix
  · rintro ⟨front, back, hs⟩
    have hs : l.handles.filter l.isReal = front ++ h :: (n :: back) := by
      rw [← reals, ← hs]
      simp
    -- The listing is split where its real instructions are; what is real behind the first split
    -- starts with the next one.
    obtain ⟨first, second, hhandles, -, hsecond⟩ := List.filter_eq_append_iff.1 hs
    obtain ⟨labels, third, rfl, -, -, hthird⟩ := List.filter_eq_cons_iff.1 hsecond
    have hsplit : l.handles = (first ++ labels) ++ h :: third := by
      rw [hhandles, List.append_assoc]
    rw [(follow_of_split wf hsplit).1, hthird]
    rfl

/-- From a linked handle on control comes to a linked real instruction. -/
theorem mem_reals_of_nextReal? (hm : t ∈ l.handles) (hn : l.nextReal? t = some n) : n ∈ l.reals := by
  rw [nextReal?, ← onward_eq_cons hm] at hn
  exact List.mem_filter.2 ⟨(l.onward_suffix t).subset (List.mem_of_find?_eq_some hn),
    List.find?_some hn⟩

/-- The real instruction behind another one is real. -/
theorem mem_reals_of_realAfter? (hn : realAfter? l h = some n) : n ∈ l.reals :=
  List.mem_filter.2 ⟨(l.after_suffix h).subset (List.mem_of_find?_eq_some hn), List.find?_some hn⟩

end Listing

namespace Machine

variable {V W : Type} {M : Machine V W} {b : Body} {start s s' : Frame V W}
  {passed : List (Visit V W)} {h n : Handle} {e : Exit V}

/-- Control comes to linked real instructions. -/
theorem Leads.mem_reals (leads : M.Leads b h e n) : n ∈ b.listing.reals := by
  cases leads with
  | below _ next => exact Listing.mem_reals_of_realAfter? next
  | target _ linked next => exact Listing.mem_reals_of_nextReal? linked next
  | back _ _ next => exact Listing.mem_reals_of_realAfter? next
  | caught _ _ _ _ linked next => exact Listing.mem_reals_of_nextReal? linked next

/-- An execution stands at real instructions. -/
theorem Execution.mem_reals (execution : M.Execution b start passed h s) : h ∈ b.listing.reals := by
  cases execution with
  | entry first => exact List.mem_of_mem_head? first
  | step _ _ leads => exact leads.mem_reals

/-- How control goes on depends on the sequence and the ranges only. -/
theorem Leads.congr {b' : Body} (hlisting : b'.listing = b.listing) (hguards : b'.guards = b.guards)
    (leads : M.Leads b h e n) : M.Leads b' h e n := by
  cases leads with
  | below running next => exact .below (hlisting ▸ running) (hlisting ▸ next)
  | target mem linked next => exact .target (hlisting ▸ mem) (hlisting ▸ linked) (hlisting ▸ next)
  | back linked calls next => exact .back (hlisting ▸ linked) (hlisting ▸ calls) (hlisting ▸ next)
  | caught guards covers catches first linked next =>
    exact .caught (hguards ▸ guards) (hlisting ▸ covers) catches (hlisting ▸ first)
      (hlisting ▸ linked) (hlisting ▸ next)

/-- An execution depends on the instructions and ranges only. -/
theorem Execution.congr {b' : Body} (hlisting : b'.listing = b.listing)
    (hguards : b'.guards = b.guards) (execution : M.Execution b start passed h s) :
    M.Execution b' start passed h s := by
  induction execution with
  | entry first => exact .entry (hlisting ▸ first)
  | step _ effect leads ih => exact .step ih (hlisting ▸ effect) (leads.congr hlisting hguards)

/-! ### The effect of fixed instructions -/

/-- A load pushes the value of its slot. -/
theorem Effect.of_load {op : Opcode} {slot : UInt16} (hop : op.isLoad = true)
    (effect : M.Effect h (.slot op slot) s e s') :
    ∃ v, s.slots slot = some v ∧ e = .below ∧ s' = ⟨v :: s.stack, s.slots, s.world⟩ := by
  cases effect with
  | load _ holds => exact ⟨_, holds, rfl, rfl⟩
  | store stores =>
    exfalso
    obtain ⟨byte⟩ := op
    revert byte
    decide +kernel
  | ret holds => exact absurd hop (by decide)
  | act free _ => cases free
  | raise free _ => cases free

/-- A store pops a value and leaves it in its slot. -/
theorem Effect.of_store {op : Opcode} {slot : UInt16} (hop : op.isStore = true)
    (effect : M.Effect h (.slot op slot) s e s') :
    ∃ v stack, s.stack = v :: stack ∧ e = .below ∧
      s' = ⟨stack, Function.update s.slots slot (some v), s.world⟩ := by
  cases effect with
  | load loads _ =>
    exfalso
    obtain ⟨byte⟩ := op
    revert byte
    decide +kernel
  | store _ => exact ⟨_, _, rfl, rfl, rfl⟩
  | ret holds => exact absurd hop (by decide)
  | act free _ => cases free
  | raise free _ => cases free

/-- Copying the top of the stack pushes it once more. -/
theorem Effect.of_dup (effect : M.Effect h (.plain .dup) s e s') :
    ∃ v stack, s.stack = v :: stack ∧ e = .below ∧ s' = ⟨v :: v :: stack, s.slots, s.world⟩ := by
  cases effect with
  | dup => exact ⟨_, _, rfl, rfl, rfl⟩
  | act free _ => cases free
  | raise free _ => cases free

/-- A branch pops a value and jumps if the value is zero, or if it is not. -/
theorem Effect.of_branch {op : Opcode} {t : Label} (hop : op = .ifeq ∨ op = .ifne)
    (effect : M.Effect h (.jump op t) s e s') :
    ∃ v stack, s.stack = v :: stack ∧
      e = (if M.isZero v = (op == .ifeq) then .target t else .below) ∧
      s' = ⟨stack, s.slots, s.world⟩ := by
  cases effect with
  | goto => exact absurd hop (by decide)
  | call => exact absurd hop (by decide)
  | branch _ => exact ⟨_, _, rfl, rfl, rfl⟩
  | act free _ => rcases hop with rfl | rfl <;> cases free
  | raise free _ => rcases hop with rfl | rfl <;> cases free

/-! ### What another body shows -/

/-- What was executed, apart from hidden instructions. -/
def shown (hidden : Handle → Bool) (passed : List (Visit V W)) : List (Visit V W) :=
  passed.filter fun v => !hidden v.handle

/-- Apart from hidden instructions, a body does what another one does: where control comes in the
one, it comes in the other, with the same frame and past the same instructions with the same frames.
-/
def Shows (M : Machine V W) (hidden : Handle → Bool) (b b' : Body) : Prop :=
  ∀ (start : Frame V W) (passed : List (Visit V W)) (h : Handle) (s : Frame V W),
    hidden h = false → M.Execution b start passed h s →
      ∃ passed', M.Execution b' start passed' h s ∧ shown hidden passed' = shown hidden passed

variable {hidden hidden' : Handle → Bool} {b' b'' : Body}

/-- A hidden passage is not shown. -/
theorem shown_cons_of_hidden (hh : hidden h = true) : shown hidden (⟨h, s⟩ :: passed) =
    shown hidden passed :=
  List.filter_cons_of_neg (by simp [hh])

/-- A passage that is not hidden is shown. -/
theorem shown_cons_of_not_hidden (hh : hidden h = false) : shown hidden (⟨h, s⟩ :: passed) =
    ⟨h, s⟩ :: shown hidden passed :=
  List.filter_cons_of_pos (by simp [hh])

/-- A body shows its own executions. -/
theorem Shows.refl (M : Machine V W) (hidden : Handle → Bool) (b : Body) : M.Shows hidden b b :=
  fun _ passed _ _ _ execution => ⟨passed, execution, rfl⟩

/-- A body that shows what another one shows of a third shows that one's executions. -/
theorem Shows.trans (first : M.Shows hidden b b') (second : M.Shows hidden b' b'') :
    M.Shows hidden b b'' := by
  intro start passed h s hh execution
  obtain ⟨passed', execution', hsame⟩ := first start passed h s hh execution
  obtain ⟨passed'', execution'', hsame'⟩ := second start passed' h s hh execution'
  exact ⟨passed'', execution'', hsame'.trans hsame⟩

/-- More can be hidden. -/
theorem Shows.hide (shows : M.Shows hidden b b') (hmore : ∀ h, hidden h = true → hidden' h = true) :
    M.Shows hidden' b b' := by
  have htwice : ∀ passed : List (Visit V W),
      shown hidden' (shown hidden passed) = shown hidden' passed := by
    intro passed
    rw [shown, shown, shown, List.filter_filter]
    refine List.filter_congr fun v _ => ?_
    cases hv : hidden v.handle with
    | false => simp
    | true => simp [hmore _ hv]
  intro start passed h s hh execution
  have hh' : hidden h = false := by
    by_contra hne
    rw [hmore h (by simpa using hne)] at hh
    cases hh
  obtain ⟨passed', execution', hsame⟩ := shows start passed h s hh' execution
  exact ⟨passed', execution', by rw [← htwice passed', hsame, htwice]⟩

/-- What is shown depends on the sequence and the ranges only. -/
theorem Shows.of_eq (hlisting : b'.listing = b.listing) (hguards : b'.guards = b.guards) :
    M.Shows hidden b b' :=
  fun _ passed _ _ _ execution => ⟨passed, execution.congr hlisting hguards, rfl⟩

end Machine

/-- The labels that control can be transferred to: those of jumps and switches, and the handlers. -/
def Body.entries (b : Body) : List Label :=
  b.guards.map (·.handler) ++ b.listing.handles.flatMap fun h => (b.listing.get h).targets

end Unscramble
