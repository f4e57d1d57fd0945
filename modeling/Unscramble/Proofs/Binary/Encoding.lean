import Unscramble.Proofs.Binary.Layout

/-! # The thirteen encodings

A form keeps the bytes of an instruction that leads nowhere, so that its size is their number. Here
each kind of instruction has an encoding of its own, with a table of sizes and a table of emitters,
and forms have the sizes and the bytes that these tables say.

Main definitions: `Encoding`, `Encoding.size`, `Encoding.bytes`, `Encoding.choose`, `Encoding.form`,
`Encoding.displacements`. Main statements: `Encoding.size_form`, `Encoding.bytes_form`,
`Encoding.choose_form`, `Encoding.bytes_displacement`. -/

namespace Unscramble.Binary

/-- The encoding chosen for an instruction. -/
inductive Encoding where
  /-- A label or a line marker. -/
  | pseudo
  /-- An opcode. -/
  | plain (op : Opcode)
  /-- An opcode and a byte. -/
  | byte (op : Opcode) (operand : UInt8)
  /-- An opcode and a 16-bit word. -/
  | short (op : Opcode) (operand : UInt16)
  /-- A load, a store or a return from a subroutine. -/
  | access (op : Opcode) (slot : UInt16) (form : SlotForm)
  /-- An increment. -/
  | increment (slot : UInt16) (amount : Int16) (wide : Bool)
  /-- A jump. -/
  | jump (op : Opcode) (target : Label) (wide : Bool)
  /-- A push of a constant of the pool. -/
  | push (op : Opcode) (index : UInt16)
  /-- A call through an interface. -/
  | interfaceCall (index : UInt16) (count : UInt8)
  /-- A dynamic call. -/
  | dynamicCall (index : UInt16)
  /-- A creation of nested arrays. -/
  | newArrays (index : UInt16) (dims : UInt8)
  /-- A table switch. -/
  | table (low high : Int32) (otherwise : Label) (targets : List Label)
  /-- A lookup switch. -/
  | lookup (otherwise : Label) (cases : List (Int32 × Label))
deriving Repr, Inhabited

namespace Encoding

/-- The number of bytes of an encoding that starts at an offset. -/
def size (start : Nat) : Encoding → Nat
  | .pseudo => 0
  | .plain _ => 1
  | .byte _ _ => 2
  | .short _ _ => 3
  | .access _ _ .compact => 1
  | .access _ _ .normal => 2
  | .access _ _ .wide => 4
  | .increment _ _ wide => if wide then 6 else 3
  | .jump _ _ wide => if wide then 5 else 3
  | .push op _ => if op == .ldc then 2 else 3
  | .interfaceCall _ _ | .dynamicCall _ => 5
  | .newArrays _ _ => 4
  | .table _ _ _ targets => 1 + switchPadding start + 12 + 4 * targets.length
  | .lookup _ cases => 1 + switchPadding start + 8 + 8 * cases.length

/-- The bytes of an encoding that leads nowhere. -/
def ownBytes : Encoding → Bytes
  | .plain op => [op.byte]
  | .byte op operand => [op.byte, operand]
  | .short op operand => op.byte :: word16 operand
  | .access op slot .compact => [(compactOpcode op slot).byte]
  | .access op slot .normal => [op.byte, slot.toUInt8]
  | .access op slot .wide => [Opcode.wide.byte, op.byte] ++ word16 slot
  | .increment slot amount true =>
    [Opcode.wide.byte, Opcode.iinc.byte] ++ word16 slot ++ word16 amount.toUInt16
  | .increment slot amount false =>
    [Opcode.iinc.byte, slot.toUInt8, amount.toUInt16.toUInt8]
  | .push op index => if op == .ldc then [op.byte, index.toUInt8] else op.byte :: word16 index
  | .interfaceCall index count => Opcode.invokeinterface.byte :: word16 index ++ [count, 0]
  | .dynamicCall index => Opcode.invokedynamic.byte :: word16 index ++ [0, 0]
  | .newArrays index dims => Opcode.multianewarray.byte :: word16 index ++ [dims]
  | .pseudo | .jump _ _ _ | .table _ _ _ _ | .lookup _ _ => []

/-- The bytes of an encoding that starts at an offset, given the offsets of the labels. -/
def bytes (offsetOf : Label → Except Malformation Nat) (start : Nat) :
    Encoding → Except Malformation Bytes
  | .jump op target wide => do
    let delta : Int := (← offsetOf target : Nat) - (start : Int)
    if wide then
      return (if op == .goto then Opcode.gotoW else Opcode.jsrW).byte :: signed32 delta
    else return op.byte :: signed16 delta
  | .table low high otherwise targets => do
    let first ← Form.displacement offsetOf start otherwise
    let rest ← targets.mapM (Form.displacement offsetOf start)
    return Opcode.tableswitch.byte :: List.replicate (switchPadding start) 0 ++ first ++
      signed32 low.toInt ++ signed32 high.toInt ++ rest.flatten
  | .lookup otherwise cases => do
    let first ← Form.displacement offsetOf start otherwise
    let rest ← cases.mapM fun (key, label) => do
      return signed32 key.toInt ++ (← Form.displacement offsetOf start label)
    return Opcode.lookupswitch.byte :: List.replicate (switchPadding start) 0 ++ first ++
      count32 cases.length ++ rest.flatten
  | e => return e.ownBytes

/-- The form that stands for an encoding. -/
def form : Encoding → Form
  | .jump op target wide => .jump op target wide
  | .table low high otherwise targets => .table low high otherwise targets
  | .lookup otherwise cases => .lookup otherwise cases
  | e => .fixed e.ownBytes

/-- Chooses the encoding of an instruction. What it refers to joins the pool. -/
def choose (insn : Instruction Label) (raw : Option RawForm) : PoolM Encoding := do
  match insn with
  | .label | .line _ => return .pseudo
  | .plain op => return .plain op
  | .immediate op operand =>
    if op == .sipush then return .short op operand.toUInt32.toUInt16
    else return .byte op operand.toUInt32.toUInt8
  | .slot op slot => return .access op slot (slotForm op slot raw)
  | .increment slot amount =>
    return .increment slot amount
      (raw.any (·.wide) || 0xff < slot || amount < -128 || 127 < amount)
  | .jump op target => return .jump op target (raw.any fun r => r.op == .gotoW || r.op == .jsrW)
  | .push c =>
    let i ← reuse raw (holdsConstant c) (Pool.constant c)
    if c.isWide then return .push .ldc2W i
    else if i ≤ 0xff && !raw.any (·.op == .ldcW) then return .push .ldc i
    else return .push .ldcW i
  | .ofClass op name => return .short op (← classIndex raw name)
  | .field op m => return .short op (← memberIndex raw m .field)
  | .invoke op m viaInterface =>
    let i ← memberIndex raw m (if viaInterface then .interfaceMethod else .method)
    if op == .invokeinterface then
      return .interfaceCall i (1 + Descriptor.argumentSlots m.descriptor).toUInt8
    else return .short op i
  | .invokeDynamic call =>
    return .dynamicCall
      (← reuse raw (fun p i => answers call (p.dynamicAt i)) (Pool.invokeDynamic call))
  | .newArrays name dims => return .newArrays (← classIndex raw name) dims
  | .tableSwitch low high otherwise targets => return .table low high otherwise targets
  | .lookupSwitch otherwise cases => return .lookup otherwise cases

/-! ### Forms -/

/-- The table of sizes agrees with the table of emitters. -/
theorem size_form (e : Encoding) (start : Nat) : e.form.size start = e.size start := by
  cases e with
  | access op slot form => cases form <;> rfl
  | increment slot amount wide => cases wide <;> rfl
  | push op index =>
    show (ownBytes (.push op index)).length = size start (.push op index)
    rw [ownBytes, size]
    split <;> rfl
  | _ => rfl

/-- A form spells what the emitter of its encoding does. -/
theorem bytes_form (e : Encoding) (offsetOf : Label → Except Malformation Nat) (start : Nat) :
    e.form.bytes offsetOf start = e.bytes offsetOf start := by
  cases e with
  | jump op target wide =>
    cases wide with
    | false => rfl
    | true =>
      rw [form, Form.bytes, bytes, Form.displacement]
      cases offsetOf target <;> rfl
  | _ => rfl

/-- A form is chosen as its encoding is. -/
theorem choose_form (insn : Instruction Label) (raw : Option RawForm) :
    Form.choose insn raw = form <$> choose insn raw := by
  -- Where no entry of the pool is asked for, both sides compute; otherwise the same entry is asked
  -- for first, and the continuations agree.
  cases insn with
  | immediate op operand =>
    rw [Form.choose, choose, immediateBytes]
    split <;> rfl
  | slot op slot =>
    rw [Form.choose, choose, slotBytes]
    cases slotForm op slot raw <;> rfl
  | increment slot amount =>
    rw [Form.choose, choose, incrementBytes, map_pure]
    cases raw.any (·.wide) || decide (0xff < slot) || decide (amount < -128) ||
      decide (127 < amount) <;> rfl
  | push c =>
    rw [Form.choose, choose, pushBytes, map_bind, bind_assoc]
    refine bind_congr fun i => ?_
    split
    · rfl
    · split <;> rfl
  | invoke op m viaInterface =>
    rw [Form.choose, choose, invokeBytes, map_bind, bind_assoc]
    refine bind_congr fun i => ?_
    dsimp only
    split
    · next hop =>
      rw [beq_iff_eq.1 hop]
      rfl
    · rfl
  | ofClass => rw [Form.choose, choose, map_bind]; rfl
  | field => rw [Form.choose, choose, map_bind]; rfl
  | invokeDynamic => rw [Form.choose, choose, map_bind]; rfl
  | newArrays => rw [Form.choose, choose, map_bind]; rfl
  | _ => rfl

/-! ### Displacements -/

end Encoding

/-- A displacement among the bytes of an instruction. -/
structure Displacement where
  /-- How many bytes of the instruction stand in front of it. -/
  place : Nat
  /-- Whether it takes 32 bits, and not 16. -/
  wide : Bool
  /-- The label that it leads to. -/
  label : Label

/-- The number of bytes of a displacement. -/
def Displacement.width (d : Displacement) : Nat :=
  if d.wide then 4 else 2

/-- The bytes of a displacement that leads this far. -/
def Displacement.word (d : Displacement) (delta : Int) : Bytes :=
  if d.wide then signed32 delta else signed16 delta

/-- A displacement takes as many bytes as it is wide. -/
@[simp] theorem Displacement.length_word (d : Displacement) (delta : Int) :
    (d.word delta).length = d.width := by
  rw [word, width]
  split
  · exact length_signed32 delta
  · exact length_signed16 delta

/-- A displacement of this distance stands in its place among some bytes. -/
def Displacement.StandsIn (d : Displacement) (delta : Int) (chunk : Bytes) : Prop :=
  ∃ front back, chunk = front ++ d.word delta ++ back ∧ front.length = d.place

/-- Chunks of one length, and what stands in front of each. -/
theorem exists_of_getElem?_flatten {α : Type} {R : α → Bytes → Prop} {items : List α}
    {chunks : List Bytes} {n i : Nat} (h : List.Forall₂ R items chunks)
    (hlength : ∀ a bs, R a bs → bs.length = n) {a : α} (hi : items[i]? = some a) :
    ∃ bs front back, R a bs ∧ chunks.flatten = front ++ bs ++ back ∧ front.length = n * i := by
  induction h generalizing i with
  | nil => cases hi
  | @cons x bs items chunks hfirst hrest ih =>
    cases i with
    | zero =>
      cases hi
      exact ⟨bs, [], chunks.flatten, hfirst, rfl, rfl⟩
    | succ i =>
      obtain ⟨bs', front, back, hbs', hflat, hfront⟩ := ih hi
      refine ⟨bs', bs ++ front, back, hbs', ?_, ?_⟩
      · rw [List.flatten_cons, hflat, List.append_assoc, List.append_assoc, List.append_assoc]
      · rw [List.length_append, hlength x bs hfirst, hfront, Nat.mul_succ, Nat.add_comm]

namespace Encoding

/-- The displacements of an encoding that starts at an offset. -/
def displacements (start : Nat) : Encoding → List Displacement
  | .jump _ target wide => [⟨1, wide, target⟩]
  | .table _ _ otherwise targets =>
    ⟨1 + switchPadding start, true, otherwise⟩ :: targets.zipIdx.map fun (label, i) =>
      ⟨1 + switchPadding start + 12 + 4 * i, true, label⟩
  | .lookup otherwise cases =>
    ⟨1 + switchPadding start, true, otherwise⟩ :: cases.zipIdx.map fun (c, i) =>
      ⟨1 + switchPadding start + 8 + 8 * i + 4, true, c.2⟩
  | _ => []

section

variable {offsetOf : Label → Except Malformation Nat} {start : Nat} {chunk : Bytes}
  {d : Displacement}

/-- A jump has one displacement, behind its opcode. -/
theorem bytes_displacement_jump {op : Opcode} {target : Label} {wide : Bool}
    (h : (Encoding.jump op target wide).bytes offsetOf start = .ok chunk) :
    ∃ offset : Nat, offsetOf target = .ok offset ∧
      (⟨1, wide, target⟩ : Displacement).StandsIn (offset - (start : Int)) chunk := by
  obtain ⟨offset, hoffset, h⟩ := exceptBind_eq_ok_iff.1 h
  refine ⟨offset, hoffset, ?_⟩
  cases wide with
  | false =>
    cases h
    exact ⟨[op.byte], [], by rw [List.append_nil]; rfl, rfl⟩
  | true =>
    cases h
    exact ⟨[(if op == .goto then Opcode.gotoW else Opcode.jsrW).byte], [],
      by rw [List.append_nil]; rfl, rfl⟩

/-- The displacement of the default of a table stands behind the padding, those of the cases behind
the bounds, four bytes each. -/
theorem bytes_displacement_table {low high : Int32} {otherwise : Label} {targets : List Label}
    (h : (Encoding.table low high otherwise targets).bytes offsetOf start = .ok chunk)
    (hd : d ∈ (Encoding.table low high otherwise targets).displacements start) :
    ∃ offset : Nat, offsetOf d.label = .ok offset ∧
      d.StandsIn (offset - (start : Int)) chunk := by
  obtain ⟨first, hfirst, h⟩ := exceptBind_eq_ok_iff.1 h
  obtain ⟨offset, hoffset, rfl⟩ := displacement_eq_ok_iff.1 hfirst
  obtain ⟨rest, hrest, h⟩ := exceptBind_eq_ok_iff.1 h
  cases h
  rcases List.mem_cons.1 hd with rfl | hd
  · refine ⟨offset, hoffset, Opcode.tableswitch.byte :: List.replicate (switchPadding start) 0,
      signed32 low.toInt ++ signed32 high.toInt ++ rest.flatten, ?_, ?_⟩
    · simp [Displacement.word]
    · simp [Nat.add_comm]
  · obtain ⟨⟨label, i⟩, hi, rfl⟩ := List.mem_map.1 hd
    obtain ⟨word, front, back, hword, hflat, hfront⟩ := exists_of_getElem?_flatten
      (mapM_eq_ok_iff.1 hrest) (n := 4) (fun label bs hbs => by
        obtain ⟨offset, -, rfl⟩ := displacement_eq_ok_iff.1 hbs
        exact length_signed32 _) (List.mem_zipIdx_iff_getElem?.1 hi)
    obtain ⟨target, htarget, rfl⟩ := displacement_eq_ok_iff.1 hword
    refine ⟨target, htarget, Opcode.tableswitch.byte :: List.replicate (switchPadding start) 0 ++
      signed32 (offset - (start : Int)) ++ signed32 low.toInt ++ signed32 high.toInt ++ front,
      back, ?_, ?_⟩
    · simp [Displacement.word, hflat]
    · simp [hfront]
      omega

/-- As for a table, but behind the count, eight bytes each: the key stands before the displacement.
-/
theorem bytes_displacement_lookup {otherwise : Label} {keyed : List (Int32 × Label)}
    (h : (Encoding.lookup otherwise keyed).bytes offsetOf start = .ok chunk)
    (hd : d ∈ (Encoding.lookup otherwise keyed).displacements start) :
    ∃ offset : Nat, offsetOf d.label = .ok offset ∧
      d.StandsIn (offset - (start : Int)) chunk := by
  obtain ⟨first, hfirst, h⟩ := exceptBind_eq_ok_iff.1 h
  obtain ⟨offset, hoffset, rfl⟩ := displacement_eq_ok_iff.1 hfirst
  obtain ⟨rest, hrest, h⟩ := exceptBind_eq_ok_iff.1 h
  cases h
  rcases List.mem_cons.1 hd with rfl | hd
  · refine ⟨offset, hoffset, Opcode.lookupswitch.byte :: List.replicate (switchPadding start) 0,
      count32 keyed.length ++ rest.flatten, ?_, ?_⟩
    · simp [Displacement.word]
    · simp [Nat.add_comm]
  · obtain ⟨⟨c, i⟩, hi, rfl⟩ := List.mem_map.1 hd
    obtain ⟨word, front, back, hword, hflat, hfront⟩ := exists_of_getElem?_flatten
      (mapM_eq_ok_iff.1 hrest) (n := 8) (fun c bs hbs => by
        obtain ⟨word, hword, hbs⟩ := exceptBind_eq_ok_iff.1 hbs
        obtain ⟨offset, -, rfl⟩ := displacement_eq_ok_iff.1 hword
        cases hbs
        simp) (List.mem_zipIdx_iff_getElem?.1 hi)
    obtain ⟨own, hown, hword⟩ := exceptBind_eq_ok_iff.1 hword
    obtain ⟨target, htarget, rfl⟩ := displacement_eq_ok_iff.1 hown
    cases hword
    refine ⟨target, htarget, Opcode.lookupswitch.byte :: List.replicate (switchPadding start) 0 ++
      signed32 (offset - (start : Int)) ++ count32 keyed.length ++ front ++ signed32 c.1.toInt,
      back, ?_, ?_⟩
    · simp [Displacement.word, hflat]
    · simp [hfront]
      omega

/-- Every displacement of an encoding stands in its place, and tells how far its label is. -/
theorem bytes_displacement {e : Encoding} (h : e.bytes offsetOf start = .ok chunk)
    (hd : d ∈ e.displacements start) : ∃ offset : Nat, offsetOf d.label = .ok offset ∧
      d.StandsIn (offset - (start : Int)) chunk := by
  cases e with
  | jump op target wide =>
    cases List.mem_singleton.1 hd
    exact bytes_displacement_jump h
  | table => exact bytes_displacement_table h hd
  | lookup => exact bytes_displacement_lookup h hd
  | _ => cases hd

end

end Encoding

end Unscramble.Binary
