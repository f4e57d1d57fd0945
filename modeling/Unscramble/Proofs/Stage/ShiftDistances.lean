import Unscramble.Binary.Form
import Unscramble.Proofs.Binary.Pool
import Unscramble.Proofs.Machine
import Unscramble.Proofs.Stage.Idioms

/-! # Shifts by masked distances

A shift takes its distance modulo the width of the number that it shifts. The distances that are
pushed directly in front of shifts are replaced by what the shifts use of them, so each shift makes
of every number what it made of it before, and the body does what it did.

Main definitions: `shift?`, `ShiftsBy`, `Machine.Calculates`, `Alike`, `MasksDistances`. Main
statements: `shift?_masked`, `SameDistances.execution`, `masksDistances_maskShifts`. -/

namespace Unscramble

/-- Whether the opcode is that of a shift. -/
def Opcode.isShift (op : Opcode) : Bool :=
  op.isIntShift || op.isLongShift

/-- The number of bits of what is shifted. -/
def Opcode.shiftWidth (op : Opcode) : Nat :=
  if op.isLongShift then 64 else 32

namespace Idiom

open Pattern Binary

/-! ### What shifts make of numbers -/

/-- A number that can be shifted. -/
inductive Number where
  /-- A number of 32 bits. -/
  | int (n : Int32)
  /-- A number of 64 bits. -/
  | long (n : Int64)
deriving DecidableEq, Repr

/-- What a shift makes of some bits. The distance is taken modulo their number. -/
def shiftBits {width : Nat} (op : Opcode) (bits : BitVec width) (distance : Int32) :
    BitVec width :=
  let k := (distance.toInt % width).toNat
  if op == .ishl || op == .lshl then bits <<< k
  else if op == .ishr || op == .lshr then bits.sshiftRight k
  else bits >>> k

/-- What a shift makes of a number; `none` if the number has the other width. -/
def shift? (op : Opcode) (distance : Int32) : Number → Option Number
  | .int n => if op.isLongShift then none else some (.int ⟨⟨shiftBits op n.toBitVec distance⟩⟩)
  | .long n => if op.isLongShift then some (.long ⟨⟨shiftBits op n.toBitVec distance⟩⟩) else none

/-- Distances that agree modulo the width make the same of every number. -/
theorem shift?_congr {op : Opcode} {d d' : Int32}
    (h : d'.toInt % op.shiftWidth = d.toInt % op.shiftWidth) (v : Number) :
    shift? op d' v = shift? op d v := by
  unfold Opcode.shiftWidth at h
  cases v with
  | int n =>
    rw [shift?, shift?]
    split
    · rfl
    · next hint =>
      rw [if_neg hint] at h
      rw [shiftBits, shiftBits, h]
  | long n =>
    rw [shift?, shift?]
    split
    · next hlong =>
      rw [if_pos hlong] at h
      rw [shiftBits, shiftBits, h]
    · rfl

/-- Masking with one bit less than a power of two is taking the remainder. -/
theorem toInt_and_mask (n : Int32) {k : Nat} (hk : k < 31) :
    (n &&& Int32.ofInt (2 ^ k - 1)).toInt = n.toInt % 2 ^ k := by
  have hpos : 1 ≤ 2 ^ k := Nat.one_le_two_pow
  have hlt : 2 ^ k < 2 ^ 31 := Nat.pow_lt_pow_right (by decide) hk
  have hmask : (Int32.ofInt (2 ^ k - 1)).toBitVec.toNat = 2 ^ k - 1 := by
    have hcast : (2 : Int) ^ k - 1 = ((2 ^ k - 1 : Nat) : Int) := by
      push_cast [hpos]
      rfl
    rw [hcast, Int32.toBitVec_ofInt, BitVec.ofInt_natCast, BitVec.toNat_ofNat,
      Nat.mod_eq_of_lt (by omega)]
  have hand : (n &&& Int32.ofInt (2 ^ k - 1)).toBitVec.toNat = n.toBitVec.toNat % 2 ^ k := by
    rw [Int32.toBitVec_and, BitVec.toNat_and, hmask, Nat.and_two_pow_sub_one_eq_mod]
  have hmod : n.toBitVec.toNat % 2 ^ k < 2 ^ k := Nat.mod_lt _ (by omega)
  -- the sign of the number counts for a multiple of the power
  have hsign : ∀ a : Int, (a - 2 ^ 32) % 2 ^ k = a % 2 ^ k := by
    intro a
    have hmultiple : (2 : Int) ^ 32 = 2 ^ k * 2 ^ (32 - k) := by
      rw [← pow_add]
      congr 1
      omega
    rw [hmultiple]
    exact Int.sub_mul_emod_self_left ..
  rw [← Int32.toInt_toBitVec, BitVec.toInt_eq_toNat_of_lt (by rw [hand]; omega), hand,
    ← Int32.toInt_toBitVec, BitVec.toInt_eq_toNat_cond]
  split
  · push_cast
    rfl
  · push_cast
    exact (hsign _).symm

/-- What is used of a distance is its remainder. -/
theorem toInt_masked {i : Instruction Label} {op : Opcode} (hop : i.opcode? = some op) (n : Int32) :
    (n &&& distanceMask i).toInt = n.toInt % op.shiftWidth := by
  have hlong := toInt_and_mask n (k := 6) (by decide)
  have hint := toInt_and_mask n (k := 5) (by decide)
  rw [distanceMask, Opcode.shiftWidth, hop, Option.any_some]
  split
  · exact hlong
  · exact hint

/-- A shift makes the same of a number when its distance is masked. -/
theorem shift?_masked {i : Instruction Label} {op : Opcode} (hop : i.opcode? = some op) (n : Int32)
    (v : Number) : shift? op (n &&& distanceMask i) v = shift? op n v := by
  refine shift?_congr ?_ v
  rw [toInt_masked hop, Int.emod_emod_of_dvd _ (dvd_refl _)]

/-- A masked distance is one that the shift does not exceed. -/
theorem toInt_masked_bounds {i : Instruction Label} {op : Opcode} (hop : i.opcode? = some op)
    (n : Int32) :
    0 ≤ (n &&& distanceMask i).toInt ∧ (n &&& distanceMask i).toInt < op.shiftWidth := by
  have hpos : (0 : Int) < op.shiftWidth := by
    rw [Opcode.shiftWidth]
    split <;> decide
  rw [toInt_masked hop]
  exact ⟨Int.emod_nonneg _ hpos.ne', Int.emod_lt_of_pos _ hpos⟩

/-! ### The shortest push of a distance -/

/-- Among the instructions that push a number, this one takes the fewest bytes, and nothing has to
join the pool for it. -/
def IsShortestPush (i : Instruction Label) (n : Int32) : Prop :=
  i.pushedInt? = some n ∧
    ∀ (other : Instruction Label) (raw raw' : Option RawForm) (p p' : Pool) (form : Form),
      other.pushedInt? = some n → Form.choose other raw p = (.ok form, p') →
        ∃ shortest, Form.choose i raw' p = (.ok shortest, p) ∧
          ∀ start, shortest.size start ≤ form.size start

/-- A push of a number is one of three instructions. -/
theorem pushedInt?_cases {i : Instruction Label} {n : Int32} (h : i.pushedInt? = some n) :
    (∃ op, i = .plain op ∧ op.isSmallConstant = true ∧ -1 ≤ n.toInt ∧ n.toInt ≤ 5) ∨
      (∃ op, i = .immediate op n ∧ (op = .bipush ∨ op = .sipush)) ∨ i = .push (.int n) := by
  unfold Instruction.pushedInt? at h
  split at h
  · next op =>
    obtain ⟨hsmall, hn⟩ := Option.ite_none_right_eq_some.1 h
    refine .inl ⟨op, rfl, hsmall, ?_⟩
    obtain rfl := Option.some.inj hn
    obtain ⟨byte⟩ := op
    revert byte
    decide +kernel
  · next op m =>
    obtain ⟨hop, hn⟩ := Option.ite_none_right_eq_some.1 h
    obtain rfl := Option.some.inj hn
    refine .inr (.inl ⟨op, rfl, ?_⟩)
    simpa using hop
  · next m =>
    obtain rfl := Option.some.inj h
    exact .inr (.inr rfl)
  · cases h

/-- A push of a number takes a byte, and two unless the number is small. -/
theorem size_of_pushedInt? {i : Instruction Label} {n : Int32} (h : i.pushedInt? = some n)
    {raw : Option RawForm} {p p' : Pool} {form : Form}
    (hform : Form.choose i raw p = (.ok form, p'))
    (start : Nat) : 1 ≤ form.size start ∧ (n.toInt < -1 ∨ 5 < n.toInt → 2 ≤ form.size start) := by
  -- A push of a number is an opcode, an immediate or a load of a constant.
  rcases pushedInt?_cases h with ⟨op, rfl, -, hlow, hhigh⟩ | ⟨op, rfl, -⟩ | rfl
  · obtain rfl : Form.fixed [op.byte] = form := Except.ok.inj (Prod.mk.inj hform).1
    exact ⟨le_refl 1, by omega⟩
  · obtain rfl : Form.fixed (immediateBytes op n) = form := Except.ok.inj (Prod.mk.inj hform).1
    have hlength : 2 ≤ (immediateBytes op n).length := by
      unfold immediateBytes
      split
      · exact Nat.le_succ 2
      · exact le_refl 2
    exact ⟨by rw [Form.size]; omega, fun _ => hlength⟩
  · obtain ⟨bytes, q, hbytes, hreturn⟩ := poolBind_eq_ok hform
    obtain rfl : Form.fixed bytes = form := Except.ok.inj (Prod.mk.inj hreturn).1
    obtain ⟨index, q', -, hwritten⟩ := poolBind_eq_ok hbytes
    have hlength : 2 ≤ bytes.length := by
      rw [show (Constant.int n).isWide = false from rfl, if_neg Bool.false_ne_true] at hwritten
      split at hwritten
      · obtain rfl := Except.ok.inj (Prod.mk.inj hwritten).1
        exact le_refl 2
      · obtain rfl := Except.ok.inj (Prod.mk.inj hwritten).1
        exact Nat.le_succ 2
    exact ⟨by rw [Form.size]; omega, fun _ => hlength⟩

/-- What pushes a number of eight bits does so in the fewest bytes. -/
theorem isShortestPush_pushInt {n : Int32} (hlow : -128 ≤ n.toInt) (hhigh : n.toInt ≤ 127) :
    IsShortestPush (.pushInt n) n := by
  refine ⟨Instruction.pushedInt?_pushInt n, fun other raw raw' p p' form hother hform => ?_⟩
  have hsize := size_of_pushedInt? hother hform
  unfold Instruction.pushInt
  dsimp only
  split
  · exact ⟨_, rfl, fun start => (hsize start).1⟩
  · next hsmall =>
    rw [if_pos (by simp [hlow, hhigh])]
    refine ⟨_, rfl, fun start => (hsize start).2 ?_⟩
    simp only [Bool.and_eq_true, decide_eq_true_eq] at hsmall
    omega

/-! ### Shifts by constants -/

/-- A number is pushed directly in front of a shift: labels and line markers may stand between. -/
structure ShiftsBy (l : Listing) (distance shift : Handle) (n : Int32) (op : Opcode) : Prop where
  /-- The shift is the next real instruction. -/
  next : [distance, shift] <:+: l.reals
  /-- The number is the distance. -/
  pushes : (l.get distance).pushedInt? = some n
  /-- The opcode is that of the shift. -/
  opcode : (l.get shift).opcode? = some op
  /-- It is one of a shift. -/
  shifts : op.isShift = true

/-- The opcodes of shifts are those of the pattern. -/
theorem accepts_shiftPlace (op : Opcode) : shiftPlace.accepts op = op.isShift := by
  obtain ⟨byte⟩ := op
  revert byte
  decide +kernel

/-- What the opcodes of small numbers are and are not. -/
theorem isSmallConstant_facts (op : Opcode) (h : op.isSmallConstant = true) :
    constantPlace.accepts op = true ∧ op.isTerminal = false ∧ op ≠ .jsr := by
  have hmem : op ∈ [⟨2⟩, ⟨3⟩, ⟨4⟩, ⟨5⟩, ⟨6⟩, ⟨7⟩, ⟨8⟩] := by
    obtain ⟨byte⟩ := op
    revert byte
    decide +kernel
  clear h
  revert op
  decide +kernel

/-- Pushes of numbers are among the constants of the pattern. -/
theorem accepts_of_pushedInt? {i : Instruction Label} {n : Int32} (h : i.pushedInt? = some n) :
    i.opcode?.any constantPlace.accepts = true := by
  rcases pushedInt?_cases h with ⟨op, rfl, hsmall, -⟩ | ⟨op, rfl, rfl | rfl⟩ | rfl
  · exact (isSmallConstant_facts op hsmall).1
  · show constantPlace.accepts .bipush = true
    decide +kernel
  · show constantPlace.accepts .sipush = true
    decide +kernel
  · show constantPlace.accepts .ldc = true
    decide +kernel

/-- A shift pushes no number. -/
theorem not_isShift_of_pushedInt? {i : Instruction Label} {n : Int32} {op : Opcode}
    (h : i.pushedInt? = some n) (hop : i.opcode? = some op) : op.isShift = false := by
  have hconstant := accepts_of_pushedInt? h
  rw [hop] at hconstant
  rw [← accepts_shiftPlace]
  exact constant_ne_shift op hconstant

/-- The shifts by constants that push a number are runs of the pattern. -/
theorem pair_mem_runs_iff {l : Listing} {a b : Handle} {n : Int32}
    (hn : (l.get a).pushedInt? = some n) :
    [a, b] ∈ constantShift.runs l ↔ ∃ op, ShiftsBy l a b n op := by
  rw [mem_runs_constantShift_iff]
  constructor
  · rintro ⟨a', b', heq, hnext, -, hb⟩
    cases heq
    obtain ⟨op, hop, haccepts⟩ := (Option.any_eq_true _ _).1 hb
    exact ⟨op, hnext, hn, hop, (accepts_shiftPlace op).symm.trans haccepts⟩
  · rintro ⟨op, hnext, -, hop, hshift⟩
    refine ⟨a, b, rfl, hnext, accepts_of_pushedInt? hn, (Option.any_eq_true _ _).2 ⟨op, hop, ?_⟩⟩
    exact (accepts_shiftPlace op).trans hshift

/-- Some distances have changed to others that shifts make the same of. -/
structure SameDistances (l l' : Listing) : Prop where
  /-- The sequence stays. -/
  handles : l'.handles = l.handles
  /-- What has changed is a distance. -/
  nodes : ∀ h, l'.get h = l.get h ∨
    ∃ shift n n' op, ShiftsBy l h shift n op ∧ (l'.get h).pushedInt? = some n' ∧
      ∀ v, shift? op n' v = shift? op n v

/-- What a push of a number has in common with every other one. -/
theorem isReal_of_pushedInt? {i : Instruction Label} {n : Int32} (h : i.pushedInt? = some n) :
    i.isReal = true := by
  obtain ⟨op, hop, -⟩ := (Option.any_eq_true _ _).1 (accepts_of_pushedInt? h)
  exact Option.isSome_of_eq_some hop

/-- What pushes a number does not end a path. -/
theorem isTerminal_of_pushedInt? {i : Instruction Label} {n : Int32} (h : i.pushedInt? = some n) :
    i.isTerminal = false := by
  rcases pushedInt?_cases h with ⟨op, rfl, hsmall, -⟩ | ⟨op, rfl, rfl | rfl⟩ | rfl
  · exact (isSmallConstant_facts op hsmall).2.1
  all_goals rfl

/-- What pushes a number calls no subroutine. -/
theorem not_jsr_of_pushedInt? {i : Instruction Label} {n : Int32} (h : i.pushedInt? = some n) :
    i.hasOpcode .jsr = false := by
  rcases pushedInt?_cases h with ⟨op, rfl, hsmall, -⟩ | ⟨op, rfl, rfl | rfl⟩ | rfl
  · exact beq_eq_false_iff_ne.2 fun heq =>
      (isSmallConstant_facts op hsmall).2.2 (Option.some.inj heq)
  all_goals rfl

namespace SameDistances

variable {l l' : Listing}

/-- Shifts have not changed. -/
theorem get_shift (h : SameDistances l l') {b : Handle} {op : Opcode}
    (hop : (l.get b).opcode? = some op) (hshift : op.isShift = true) : l'.get b = l.get b := by
  refine (h.nodes b).resolve_right ?_
  rintro ⟨b', n, n', op', hby, -⟩
  rw [not_isShift_of_pushedInt? hby.pushes hop] at hshift
  cases hshift

/-- The same instructions are real where distances are the same. -/
theorem isReal_eq (h : SameDistances l l') : l'.isReal = l.isReal := by
  funext a
  unfold Listing.isReal
  rcases h.nodes a with hsame | ⟨b, n, n', op, hby, hn', -⟩
  · rw [hsame]
  · rw [isReal_of_pushedInt? hn', isReal_of_pushedInt? hby.pushes]

/-- The real instructions are the same where distances are. -/
theorem reals_eq (h : SameDistances l l') : l'.reals = l.reals :=
  Listing.reals_congr h.handles fun _ _ => congrFun h.isReal_eq _

/-- Distances that are the same as others are so the other way round. -/
theorem symm (h : SameDistances l l') : SameDistances l' l where
  handles := h.handles.symm
  nodes := by
    intro a
    refine (h.nodes a).imp Eq.symm ?_
    rintro ⟨b, n, n', op, hby, hn', hmakes⟩
    have hget := h.get_shift hby.opcode hby.shifts
    exact ⟨b, n', n, op, ⟨h.reals_eq ▸ hby.next, hn', hget ▸ hby.opcode, hby.shifts⟩, hby.pushes,
      fun v => (hmakes v).symm⟩

/-- A push in front of a shift is one before and after. -/
theorem shiftsBy (h : SameDistances l l') (wf : l.WellFormed) {a b : Handle} {n : Int32}
    {op : Opcode} (hby : ShiftsBy l a b n op) :
    ∃ n', ShiftsBy l' a b n' op ∧ ∀ v, shift? op n' v = shift? op n v := by
  have hget := h.get_shift hby.opcode hby.shifts
  have hnext : [a, b] <:+: l'.reals := h.reals_eq ▸ hby.next
  rcases h.nodes a with hsame | ⟨b', m, n', op', hby', hn', hmakes⟩
  · exact ⟨n, ⟨hnext, hsame ▸ hby.pushes, hget ▸ hby.opcode, hby.shifts⟩, fun _ => rfl⟩
  · cases eq_of_pair_isInfix wf.nodup_reals hby.next hby'.next
    obtain rfl : op = op' := Option.some.inj (hby.opcode.symm.trans hby'.opcode)
    obtain rfl : n = m := Option.some.inj (hby.pushes.symm.trans hby'.pushes)
    exact ⟨n', ⟨hnext, hn', hget ▸ hby.opcode, hby.shifts⟩, hmakes⟩

end SameDistances

/-! ### Running with other distances -/

/-- A machine calculates with numbers: pushes of numbers push them, shifts by numbers shift, and
neither does anything else. -/
structure Calculates {V W : Type} (M : Machine V W) (number : Number → V) : Prop where
  /-- Different numbers are different values. -/
  injective : Function.Injective number
  /-- What pushes a number only does that. -/
  push : ∀ {i : Instruction Label} {n : Int32}, i.pushedInt? = some n →
    ∀ stack world t? stack' world', M.Acts i stack world t? stack' world' ↔
      t? = none ∧ stack' = number (.int n) :: stack ∧ world' = world
  /-- A shift puts a number in the place of one and of a distance. -/
  shift : ∀ {i : Instruction Label} {op : Opcode}, i.opcode? = some op → op.isShift = true →
    ∀ stack world t? stack' world', M.Acts i stack world t? stack' world' ↔
      t? = none ∧ world' = world ∧ ∃ d v v' rest, stack = number (.int d) :: number v :: rest ∧
        shift? op d v = some v' ∧ stack' = number v' :: rest
  /-- No exception comes from a push of a number. -/
  push_raises : ∀ {i : Instruction Label} {n : Int32}, i.pushedInt? = some n →
    ∀ stack world x world', ¬M.Raises i stack world x world'
  /-- Nor does one come from a shift. -/
  shift_raises : ∀ {i : Instruction Label} {op : Opcode}, i.opcode? = some op →
    op.isShift = true → ∀ stack world x world', ¬M.Raises i stack world x world'

/-- Frames in front of an instruction that are the same, except that in front of a shift there may
be another distance on the stack of which the shift makes the same. -/
inductive Alike {V W : Type} (number : Number → V) (i : Instruction Label) :
    Frame V W → Frame V W → Prop
  /-- The same frame. -/
  | same {s : Frame V W} : Alike number i s s
  /-- Another distance. -/
  | shift {op : Opcode} {d d' : Int32} {stack : List V} {slots : UInt16 → Option V} {world : W}
      (opcode : i.opcode? = some op) (shifts : op.isShift = true)
      (makes : ∀ v, shift? op d' v = shift? op d v) :
      Alike number i ⟨number (.int d) :: stack, slots, world⟩
        ⟨number (.int d') :: stack, slots, world⟩

/-- Whatever one body does, the other one does with frames that are alike. -/
def Follows {V W : Type} (M : Machine V W) (number : Number → V) (b b' : Body) : Prop :=
  ∀ (start : Frame V W) (passed : List (Machine.Visit V W)) (h : Handle) (s : Frame V W),
    M.Execution b start passed h s →
      ∃ passed' s', M.Execution b' start passed' h s' ∧ Alike number (b.listing.get h) s s' ∧
        List.Forall₂ (fun v v' => v'.handle = v.handle ∧
          Alike number (b.listing.get v.handle) v.frame v'.frame) passed passed'

section Running

variable {V W : Type} {M : Machine V W} {number : Number → V} {h : Handle} {s s' : Frame V W}
  {e : Exit V} {i : Instruction Label}

/-- Pushing a number goes on with the number on the stack. -/
theorem Calculates.of_push (hM : Calculates M number) {n : Int32} (hn : i.pushedInt? = some n)
    (effect : M.Effect h i s e s') :
    e = .below ∧ s' = ⟨number (.int n) :: s.stack, s.slots, s.world⟩ := by
  cases effect with
  | act free acts =>
    obtain ⟨rfl, rfl, rfl⟩ := (hM.push hn ..).1 acts
    exact ⟨rfl, rfl⟩
  | raise free raises => exact (hM.push_raises hn _ _ _ _ raises).elim
  | _ => cases hn

/-- A machine that calculates can push a number. -/
theorem Calculates.effect_push (hM : Calculates M number) {n : Int32} (hn : i.pushedInt? = some n)
    (s : Frame V W) : M.Effect h i s .below ⟨number (.int n) :: s.stack, s.slots, s.world⟩ := by
  have hfree : i.isFixed = false := by
    rcases pushedInt?_cases hn with ⟨op, rfl, hsmall, -⟩ | ⟨op, rfl, -⟩ | rfl
    · rw [Instruction.isFixed, beq_eq_false_iff_ne]
      rintro rfl
      cases hsmall
    · rfl
    · rfl
  have hacts : M.Acts i s.stack s.world none (number (.int n) :: s.stack) s.world :=
    (hM.push hn ..).2 ⟨rfl, rfl, rfl⟩
  exact .act hfree hacts

/-- No opcode of a shift is one that is fixed. -/
theorem not_fixed_of_isShift {op : Opcode} (h : op.isShift = true) :
    op.isLoad = false ∧ op.isStore = false ∧
      op ∉ [.ret, .dup, .goto, .jsr, .ifeq, .ifne, .iinc] := by
  obtain ⟨byte⟩ := op
  revert byte
  decide +kernel

/-- Shifting goes on with the shifted number in place of the number and the distance. -/
theorem Calculates.of_shift (hM : Calculates M number) {op : Opcode} (hop : i.opcode? = some op)
    (hshift : op.isShift = true) (effect : M.Effect h i s e s') :
    i.isFixed = false ∧ e = .below ∧ ∃ d v v' rest, s.stack = number (.int d) :: number v :: rest ∧
      shift? op d v = some v' ∧ s' = ⟨number v' :: rest, s.slots, s.world⟩ := by
  obtain ⟨hload, hstore, hfixed⟩ := not_fixed_of_isShift hshift
  cases effect with
  | load loads _ =>
    obtain rfl := Option.some.inj hop
    rw [loads] at hload
    cases hload
  | store stores =>
    obtain rfl := Option.some.inj hop
    rw [stores] at hstore
    cases hstore
  | branch branches =>
    obtain rfl := Option.some.inj hop
    rcases branches with rfl | rfl <;> exact absurd (by decide) hfixed
  | act free acts =>
    obtain ⟨rfl, rfl, d, v, v', rest, rfl, hv, rfl⟩ := (hM.shift hop hshift ..).1 acts
    exact ⟨free, rfl, d, v, v', rest, rfl, hv, rfl⟩
  | raise free raises => exact (hM.shift_raises hop hshift _ _ _ _ raises).elim
  | _ =>
    obtain rfl := Option.some.inj hop
    exact absurd (by decide) hfixed

/-- A machine that calculates can shift. -/
theorem Calculates.effect_shift (hM : Calculates M number) {op : Opcode}
    (hop : i.opcode? = some op) (hshift : op.isShift = true) (free : i.isFixed = false) {d : Int32}
    {v v' : Number} (hv : shift? op d v = some v') {rest : List V} {slots : UInt16 → Option V}
    {world : W} :
    M.Effect h i ⟨number (.int d) :: number v :: rest, slots, world⟩ .below
      ⟨number v' :: rest, slots, world⟩ := by
  have hacts : M.Acts i (number (.int d) :: number v :: rest) world none (number v' :: rest)
      world := (hM.shift hop hshift ..).2 ⟨rfl, rfl, d, v, v', rest, rfl, hv, rfl⟩
  exact .act free hacts

variable {b b' : Body} {n : Handle}

/-- Control goes on as before: distances have nothing to do with it. -/
theorem SameDistances.leads (hsame : SameDistances b.listing b'.listing)
    (hguards : b'.guards = b.guards) (leads : M.Leads b h e n) : M.Leads b' h e n := by
  have hafter : ∀ k, b'.listing.after k = b.listing.after k := by
    intro k
    rw [Listing.after, Listing.after, hsame.handles]
  have honward : ∀ k, b'.listing.onward k = b.listing.onward k := by
    intro k
    rw [Listing.onward, Listing.onward, hsame.handles]
  have hnextReal : ∀ k, b'.listing.nextReal? k = b.listing.nextReal? k := by
    intro k
    rw [Listing.nextReal?, Listing.nextReal?, hafter, hsame.isReal_eq]
  have hrealAfter : ∀ k, realAfter? b'.listing k = realAfter? b.listing k := by
    intro k
    rw [realAfter?, realAfter?, hafter, hsame.isReal_eq]
  have hcovers : ∀ g k, Flow.Covers b'.listing g k ↔ Flow.Covers b.listing g k := by
    intro g k
    rw [Flow.Covers, Flow.Covers, honward, hafter]
  -- Control asks for order, targets and what is real; the pushes of distances differ in none of
  -- these.
  cases leads with
  | below running next =>
    refine .below ?_ ((hrealAfter h).trans next)
    rcases hsame.nodes h with heq | ⟨_, _, n', _, _, hn', _⟩
    · rw [heq, running]
    · exact isTerminal_of_pushedInt? hn'
  | target mem linked next =>
    refine .target ?_ (hsame.handles ▸ linked) ((hnextReal _).trans next)
    rcases hsame.nodes h with heq | ⟨_, _, _, _, hby, _⟩
    · rwa [heq]
    · rw [Instruction.targets_of_pushedInt? hby.pushes] at mem
      cases mem
  | @back c _ linked calls next =>
    refine .back (hsame.handles ▸ linked) ?_ ((hrealAfter _).trans next)
    rcases hsame.nodes c with heq | ⟨_, _, _, _, hby, _⟩
    · rw [heq, calls]
    · rw [not_jsr_of_pushedInt? hby.pushes] at calls
      cases calls
  | caught guards covers catches first linked next =>
    exact .caught (hguards.trans guards) ((hcovers _ _).2 covers) catches
      (fun other hother hcovered => first other hother ((hcovers _ _).1 hcovered))
      (hsame.handles ▸ linked) ((hnextReal _).trans next)

/-- One step with another distance: a push pushes it, and its shift makes the same of it. -/
theorem SameDistances.step (hsame : SameDistances b.listing b'.listing) (wf : b.listing.WellFormed)
    (hM : Calculates M number) {s₁ : Frame V W} (hreal : h ∈ b.listing.reals)
    (alike : Alike number (b.listing.get h) s s') (effect : M.Effect h (b.listing.get h) s e s₁)
    (leads : M.Leads b h e n) :
    ∃ s₁', M.Effect h (b'.listing.get h) s' e s₁' ∧ Alike number (b.listing.get n) s₁ s₁' := by
  cases alike with
  | same =>
    rcases hsame.nodes h with heq | ⟨shift, m, m', op, hby, hm', hmakes⟩
    · exact ⟨s₁, heq ▸ effect, .same⟩
    · obtain ⟨rfl, rfl⟩ := hM.of_push hby.pushes effect
      refine ⟨_, hM.effect_push hm' s, ?_⟩
      cases leads with
      | below _ next =>
        have hnext := (Listing.realAfter?_eq_some_iff wf (List.mem_filter.1 hreal).2).1 next
        cases eq_of_pair_isInfix wf.nodup_reals hby.next hnext
        exact .shift hby.opcode hby.shifts hmakes
  | shift hop hshift hmakes =>
    rw [hsame.get_shift hop hshift]
    obtain ⟨free, rfl, d, v, v', rest, hstack, hv, rfl⟩ := hM.of_shift hop hshift effect
    obtain ⟨hd, rfl⟩ := List.cons.inj hstack
    cases hM.injective hd
    exact ⟨_, hM.effect_shift hop hshift free ((hmakes v).trans hv), .same⟩

/-- A run with other distances. The induction is on the run; frames that are alike carry it. -/
theorem SameDistances.follows (hsame : SameDistances b.listing b'.listing)
    (wf : b.listing.WellFormed) (hguards : b'.guards = b.guards) (hM : Calculates M number) :
    Follows M number b b' := by
  intro start passed h s execution
  induction execution with
  | entry first => exact ⟨[], start, .entry (hsame.reals_eq ▸ first), .same, .nil⟩
  | step before effect leads ih =>
    obtain ⟨passed', s', execution', alike, hpassed⟩ := ih
    obtain ⟨s₁', effect', alike'⟩ := hsame.step wf hM before.mem_reals alike effect leads
    exact ⟨_, s₁', .step execution' effect' (hsame.leads hguards leads), alike',
      .cons ⟨rfl, alike⟩ hpassed⟩

end Running

/-! ### Masking the distances of a body -/

/-- Some distances have been masked. -/
structure Masks (l l' : Listing) : Prop where
  /-- The sequence stays. -/
  order : l'.order = l.order
  /-- What has changed is a distance of which the shift did not use everything. -/
  nodes : ∀ h, l'.nodes[h]? = l.nodes[h]? ∨
    ∃ shift n op, ShiftsBy l h shift n op ∧ n &&& distanceMask (l.get shift) ≠ n ∧
      l'.nodes[h]? = some ⟨.pushInt (n &&& distanceMask (l.get shift)), none⟩

namespace Masks

variable {l l' : Listing}

/-- A listing is masked as it is. -/
theorem refl (l : Listing) : Masks l l :=
  ⟨rfl, fun _ => .inl rfl⟩

/-- Masking keeps the handles. -/
theorem handles (h : Masks l l') : l'.handles = l.handles := by
  rw [Listing.handles, Listing.handles, h.order]

/-- Masking leaves an instruction or replaces a distance by the one within bounds. -/
theorem get_cases (h : Masks l l') (a : Handle) : l'.get a = l.get a ∨
    ∃ shift n op, ShiftsBy l a shift n op ∧ n &&& distanceMask (l.get shift) ≠ n ∧
      l'.get a = .pushInt (n &&& distanceMask (l.get shift)) := by
  refine (h.nodes a).imp ?_ ?_
  · intro hnode
    rw [Listing.get, Listing.get, hnode]
  · rintro ⟨shift, n, op, hby, hchanged, hnode⟩
    exact ⟨shift, n, op, hby, hchanged, by rw [Listing.get, hnode]⟩

/-- A masked distance is as good as the distance. -/
theorem sameDistances (h : Masks l l') : SameDistances l l' where
  handles := h.handles
  nodes := by
    intro a
    refine (h.get_cases a).imp_right ?_
    rintro ⟨shift, n, op, hby, -, hget⟩
    refine ⟨shift, n, _, op, hby, ?_, shift?_masked hby.opcode n⟩
    rw [hget, Instruction.pushedInt?_pushInt]

/-- Masking keeps a listing well formed. -/
theorem wellFormed (h : Masks l l') (wf : l.WellFormed) : l'.WellFormed where
  nodup := h.handles ▸ wf.nodup
  lt_capacity := by
    intro a ha
    rw [h.handles] at ha
    obtain ⟨node, hnode⟩ : ∃ node, l.nodes[a]? = some node :=
      ⟨_, Array.getElem?_eq_getElem (wf.lt_capacity a ha)⟩
    rcases h.nodes a with hsame | ⟨_, _, _, -, -, hnew⟩
    · exact (Array.getElem?_eq_some_iff.1 (hsame.trans hnode)).1
    · exact (Array.getElem?_eq_some_iff.1 hnew).1

/-- One more distance is masked. It may have been masked before. -/
theorem maskShift (h : Masks l l') (wf : l.WellFormed) {run : List Handle}
    (hrun : run ∈ constantShift.runs l) (count : Nat) :
    Masks l (Idiom.maskShift (count, l') run).2 := by
  obtain ⟨a, b, rfl, hnext, -, hb⟩ := mem_runs_constantShift_iff.1 hrun
  obtain ⟨op, hop, haccepts⟩ := (Option.any_eq_true _ _).1 hb
  have hshift : op.isShift = true := (accepts_shiftPlace op).symm.trans haccepts
  have hget : l'.get b = l.get b := h.sameDistances.get_shift hop hshift
  have ha : a < l'.capacity := (h.wellFormed wf).lt_capacity a
    (h.handles ▸ Listing.mem_handles_of_isInfix hnext List.mem_cons_self)
  dsimp only [Idiom.maskShift]
  rw [hget]
  split
  · exact h
  · next n hn =>
    split
    · exact h
    · next hchanged =>
      -- a distance that has been masked would not change again
      have hsame : l'.get a = l.get a := by
        refine (h.get_cases a).resolve_right ?_
        rintro ⟨shift, m, op', hby, -, hm⟩
        cases eq_of_pair_isInfix wf.nodup_reals hnext hby.next
        rw [hm, Instruction.pushedInt?_pushInt] at hn
        obtain rfl := Option.some.inj hn
        rw [Int32.and_assoc, Int32.and_self] at hchanged
        exact hchanged rfl
      refine ⟨h.order, fun k => ?_⟩
      rw [Listing.replace, Array.getElem?_modify]
      split
      · next hk =>
        subst hk
        refine .inr ⟨b, n, op, ⟨hnext, hsame ▸ hn, hop, hshift⟩, hchanged, ?_⟩
        rw [Array.getElem?_eq_getElem ha]
        rfl
      · exact h.nodes k

/-- Masking the distances of several runs is masking. -/
theorem foldl (wf : l.WellFormed) {runs : List (List Handle)}
    (hruns : ∀ run ∈ runs, run ∈ constantShift.runs l) {state : Nat × Listing}
    (h : Masks l state.2) : Masks l (runs.foldl Idiom.maskShift state).2 := by
  induction runs generalizing state with
  | nil => exact h
  | cons run runs ih =>
    exact ih (fun run hrun => hruns run (List.mem_cons_of_mem _ hrun))
      (h.maskShift wf (hruns run List.mem_cons_self) state.1)

end Masks

/-- The rest of the body is left alone. -/
theorem maskShifts_eq (p : Pattern) (b : Body) :
    (maskShifts p b).2 = { b with listing := (maskShifts p b).2.listing } :=
  rfl

/-- The stage for shift distances masks. -/
theorem masks_maskShifts {b : Body} (wf : b.listing.WellFormed) :
    Masks b.listing (maskShifts constantShift b).2.listing := by
  rw [listing_maskShifts]
  exact Masks.foldl wf (fun _ hrun => hrun) (Masks.refl b.listing)

/-- Masking the distances of a body. -/
structure MasksDistances (b b' : Body) : Prop where
  /-- Only the instructions are concerned. -/
  rest : b' = { b with listing := b'.listing }
  /-- Of these, only pushes of numbers directly in front of shifts. -/
  changes : Masks b.listing b'.listing
  /-- Each such push is one afterwards, its shift makes of every number what it made of it before,
  and if it is another push, it is the shortest one. -/
  distances : ∀ {distance shift n op}, ShiftsBy b.listing distance shift n op →
    ∃ n', ShiftsBy b'.listing distance shift n' op ∧ (∀ v, shift? op n' v = shift? op n v) ∧
      (b'.listing.get distance ≠ b.listing.get distance →
        IsShortestPush (b'.listing.get distance) n')
  /-- Afterwards each of them is less than the width of what is shifted. -/
  bounds : ∀ {distance shift n op}, ShiftsBy b'.listing distance shift n op →
    0 ≤ n.toInt ∧ n.toInt < op.shiftWidth
  /-- The bodies do the same on every machine that calculates. -/
  follows : ∀ {V W : Type} (M : Machine V W) (number : Number → V), Calculates M number →
    Follows M number b b' ∧ Follows M number b' b
  /-- Nothing is left to mask. -/
  again : maskShifts constantShift b' = (0, b')

/-- Masking leaves no distance of which a shift does not use everything. -/
theorem maskShifts_masked {b : Body} (wf : b.listing.WellFormed) {distance shift : Handle}
    {n : Int32} {op : Opcode}
    (hby : ShiftsBy (maskShifts constantShift b).2.listing distance shift n op) :
    n &&& distanceMask ((maskShifts constantShift b).2.listing.get shift) = n := by
  have hmasks := masks_maskShifts wf
  obtain ⟨m, hby', -⟩ := hmasks.sameDistances.symm.shiftsBy (hmasks.wellFormed wf) hby
  have hrun := (pair_mem_runs_iff hby'.pushes).2 ⟨op, hby'⟩
  have hrefl : MasksConstants b.listing b.listing := ⟨rfl, rfl, fun _ _ => rfl, fun _ h => h⟩
  have hmasked := (foldl_maskShift wf (fun _ hrun => hrun) (0, b.listing) hrefl).2 _ _ hrun
    (.inl hrun)
  rw [← listing_maskShifts] at hmasked
  exact hmasked n hby.pushes

/-- Masking does that to every body. -/
theorem masksDistances_maskShifts (b : Body) (wf : b.listing.WellFormed) :
    MasksDistances b (maskShifts constantShift b).2 := by
  have hmasks := masks_maskShifts wf
  have hsame := hmasks.sameDistances
  have wf' := hmasks.wellFormed wf
  have hbounds : ∀ {distance shift n op},
      ShiftsBy (maskShifts constantShift b).2.listing distance shift n op →
        0 ≤ n.toInt ∧ n.toInt < op.shiftWidth := by
    intro distance shift n op hby
    have hbounds := toInt_masked_bounds hby.opcode n
    rwa [maskShifts_masked wf hby] at hbounds
  refine ⟨maskShifts_eq .., hmasks, ?_, hbounds, ?_, ?_⟩
  -- A distance that was changed is now a number of the width, so the shortest push of it is
  -- written.
  · intro distance shift n op hby
    obtain ⟨n', hby', hmakes⟩ := hsame.shiftsBy wf hby
    refine ⟨n', hby', hmakes, fun hchanged => ?_⟩
    obtain ⟨_, m, _, -, -, hget⟩ := (hmasks.get_cases distance).resolve_left hchanged
    have hpushes := hby'.pushes
    rw [hget, Instruction.pushedInt?_pushInt] at hpushes
    rw [hget, Option.some.inj hpushes]
    obtain ⟨hlow, hhigh⟩ := hbounds hby'
    have hwidth : op.shiftWidth ≤ 64 := by
      rw [Opcode.shiftWidth]
      split <;> decide
    exact isShortestPush_pushInt (by omega) (by omega)
  · intro V W M number hM
    have hguards : (maskShifts constantShift b).2.guards = b.guards := by rw [maskShifts_eq]
    exact ⟨hsame.follows wf hguards hM, hsame.symm.follows wf' hguards.symm hM⟩
  · refine maskShifts_of_masked fun run hrun => ?_
    obtain ⟨distance, shift, rfl, -⟩ := mem_runs_constantShift_iff.1 hrun
    refine ⟨distance, shift, rfl, fun n hn => ?_⟩
    obtain ⟨op, hby⟩ := (pair_mem_runs_iff hn).1 hrun
    exact maskShifts_masked wf hby

/-- A machine that pushes numbers and shifts them, and does nothing else. -/
def calculator : Machine Number Unit where
  isZero v := v == .int 0
  address h := .int (Int32.ofNat h)
  add v _ := v
  Acts i stack _ t? stack' _ := t? = none ∧
    ((∃ n, i.pushedInt? = some n ∧ stack' = .int n :: stack) ∨
      ∃ op, i.opcode? = some op ∧ op.isShift = true ∧ ∃ d v v' rest, stack = .int d :: v :: rest ∧
        shift? op d v = some v' ∧ stack' = v' :: rest)
  Raises _ _ _ _ _ := False
  Catches _ _ := False

/-- The calculator calculates. -/
theorem calculates_calculator : Calculates calculator id where
  injective := Function.injective_id
  push := by
    intro i n hn stack world t? stack' world'
    constructor
    · rintro ⟨rfl, ⟨m, hm, rfl⟩ | ⟨op, hop, hshift, -⟩⟩
      · cases hn.symm.trans hm
        exact ⟨rfl, rfl, rfl⟩
      · rw [not_isShift_of_pushedInt? hn hop] at hshift
        cases hshift
    · rintro ⟨rfl, rfl, -⟩
      exact ⟨rfl, .inl ⟨n, hn, rfl⟩⟩
  shift := by
    intro i op hop hshift stack world t? stack' world'
    constructor
    · rintro ⟨rfl, ⟨m, hm, rfl⟩ | ⟨op', hop', -, hacts⟩⟩
      · rw [not_isShift_of_pushedInt? hm hop] at hshift
        cases hshift
      · cases hop.symm.trans hop'
        exact ⟨rfl, rfl, hacts⟩
    · rintro ⟨rfl, -, hacts⟩
      exact ⟨rfl, .inr ⟨op, hop, hshift, hacts⟩⟩
  push_raises := fun _ _ _ _ _ h => h
  shift_raises := fun _ _ _ _ _ _ h => h

/-- A body that shifts by 35 with a label in between, and a number of 64 bits by -1. -/
def shiftingBody : Body where
  listing := {
    nodes := #[⟨.plain ⟨4⟩, none⟩, ⟨.immediate .bipush 35, none⟩, ⟨.label, none⟩,
      ⟨.plain .ishl, none⟩, ⟨.slot .lload 1, none⟩, ⟨.push (.int (-1)), none⟩,
      ⟨.plain .lushr, none⟩]
    order := #[0, 1, 2, 3, 4, 5, 6] }

/-- The first shift becomes one by 3, the second one by 63. -/
theorem masksDistances_shiftingBody :
    shiftingBody.listing.WellFormed ∧
      (maskShifts constantShift shiftingBody).2.listing.instructions =
        [.plain ⟨4⟩, .plain ⟨6⟩, .label, .plain .ishl, .slot .lload 1, .immediate .bipush 63,
          .plain .lushr] ∧
      MasksDistances shiftingBody (maskShifts constantShift shiftingBody).2 ∧
      Follows calculator id shiftingBody (maskShifts constantShift shiftingBody).2 := by
  have wf : shiftingBody.listing.WellFormed := ⟨by decide, by decide⟩
  have hmasks := masksDistances_maskShifts shiftingBody wf
  refine ⟨wf, ?_, hmasks, (hmasks.follows calculator id calculates_calculator).1⟩
  rw [listing_maskShifts, runs_constantShift]
  decide +kernel

end Idiom

end Unscramble
