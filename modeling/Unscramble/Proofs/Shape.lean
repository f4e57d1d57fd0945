import Unscramble.Proofs.Binary.Form
import Unscramble.Proofs.Decimal
import Unscramble.Proofs.Tidy.Fingerprint

/-! # What shapes tell

The shape of a listing shows each instruction as a text. If opcodes belong to their instructions and
names end where the text says, this tells the instruction, with the positions of the labels that it
names. What it does not show are the keys of switches, whether a call is one of an interface method,
and the bits of a NaN.

Main definitions: `Instruction.IsTold`, `Instruction.unshown?`. Main statements:
`Constant.text_inj`, `Instruction.eq_of_shapeText`, `Listing.instructions_of_shape`. -/

namespace Unscramble

open Tidy Text

/-! ### Constants -/

/-- The text of a natural number tells the number. -/
theorem repr_inj {m n : Nat} (h : m.repr = n.repr) : m = n := by
  have hdigits := congrArg String.toList h
  rw [Nat.toList_repr, Nat.toList_repr] at hdigits
  rw [← Nat.ofDigitChars_ten_toDigits (n := m), hdigits, Nat.ofDigitChars_ten_toDigits]

/-- The text of an integer tells the integer. -/
theorem toString_int_inj {m n : Int} (h : toString m = toString n) : m = n := by
  rw [← Decimal.readInt_toString m, h, Decimal.readInt_toString]

/-- The text of a quoted text tells the text. -/
theorem quoted_inj {s t : String} (h : quoted s = quoted t) : s = t := by
  have h := congrArg String.toList h
  rw [← List.append_nil (quoted s).toList, ← List.append_nil (quoted t).toList] at h
  exact (quoted_append_inj h).1

/-- What the text of a constant does not show: the bits of a NaN. -/
def Constant.unshown? : Constant → Option Nat
  | .float bits =>
    match Decimal.single.magnitude bits.toNat with
    | .nan => some bits.toNat
    | _ => none
  | .double bits =>
    match Decimal.double.magnitude bits.toNat with
    | .nan => some bits.toNat
    | _ => none
  | _ => none

/-- Constants with one text are of one kind. -/
theorem Constant.kindWord_eq {c c' : Constant} (h : c.text = c'.text) :
    kindWord c = kindWord c' := by
  have hwords : ∀ word ∈ ["Int", "Float", "Long", "Double", "String", "Class", "MethodType",
      "MethodHandle", "Dynamic"], ' ' ∉ word.toList ∧ '(' ∉ word.toList := by
    decide
  have hmark : ∀ c : Constant, ' ' ∉ (kindWord c).toList ∧ '(' ∉ (kindWord c).toList := by
    intro c
    cases c <;> exact hwords _ (by simp [kindWord])
  have hword : ∀ c : Constant,
      c.text.toList.takeWhile (fun x => x != ' ' && x != '(') = (kindWord c).toList := by
    intro c
    obtain ⟨rest, htext, -⟩ := exists_toList_text c
    have hin : ∀ x ∈ (kindWord c).toList, (x != ' ' && x != '(') = true := by
      intro x hx
      rw [Bool.and_eq_true, bne_iff_ne, bne_iff_ne]
      constructor <;> rintro rfl
      · exact (hmark c).1 hx
      · exact (hmark c).2 hx
    have hstop : ((if isRecord c then ' ' else '(') != ' ' &&
        (if isRecord c then ' ' else '(') != '(') = false := by
      split <;> rfl
    rw [htext, List.takeWhile_append_of_pos hin, List.takeWhile_cons_of_neg (by simp [hstop]),
      List.append_nil]
  rw [← String.toList_inj, ← hword, ← hword, h]

/-- The text of a call through a bootstrap method tells the parts of it. -/
theorem Constant.dynamicText_inj {bootstrap bootstrap' : UInt16}
    {name name' descriptor descriptor' : String}
    (h : (Constant.dynamic bootstrap name descriptor).text =
      (Constant.dynamic bootstrap' name' descriptor').text) :
    bootstrap = bootstrap' ∧ name = name' ∧ descriptor = descriptor' := by
  have htext : ∀ (bootstrap : UInt16) (name descriptor : String),
      (Constant.dynamic bootstrap name descriptor).text.toList =
        "Dynamic \x7b bootstrap: ".toList ++ (bootstrap.toNat.repr.toList ++ ',' ::
          (" name: ".toList ++ ((quoted name).toList ++ (", descriptor: ".toList ++
            ((quoted descriptor).toList ++ " \x7d".toList))))) := by
    intro bootstrap name descriptor
    simp [Constant.text, Constant.recordText]
  have hcomma : ∀ n : Nat, ',' ∉ n.repr.toList := fun n => not_mem_toString_nat (by decide)
  have h := congrArg String.toList h
  rw [htext, htext, List.append_cancel_left_eq, append_cons_inj (hcomma _) (hcomma _),
    List.append_cancel_left_eq] at h
  obtain ⟨hbootstrap, -, h⟩ := h
  obtain ⟨hname, h⟩ := quoted_append_inj h
  rw [List.append_cancel_left_eq] at h
  obtain ⟨hdescriptor, -⟩ := quoted_append_inj h
  exact ⟨UInt16.toNat_inj.1 (repr_inj (String.toList_injective hbootstrap)), hname, hdescriptor⟩

/-- The text of a floating-point number tells its bits, or it is that of a NaN. -/
theorem Constant.floatText_inj {f : Decimal.Format} (hf : f.Small) {bits bits' : Nat}
    (hbits : bits < 2 ^ (f.fractionBits + f.exponentBits + 1))
    (hbits' : bits' < 2 ^ (f.fractionBits + f.exponentBits + 1))
    (h : f.text bits = f.text bits')
    (hunshown : (match f.magnitude bits with | .nan => some bits | _ => none) =
      match f.magnitude bits' with | .nan => some bits' | _ => none) : bits = bits' := by
  rcases Decimal.Format.text_inj hf hbits hbits' h with hsame | ⟨hnan, hnan'⟩
  · exact hsame
  · rw [hnan, hnan'] at hunshown
    exact Option.some.inj hunshown

/-- **The text of a constant tells the constant,** together with the bits if it is a NaN. -/
theorem Constant.text_inj {c c' : Constant} (h : c.text = c'.text)
    (hunshown : c.unshown? = c'.unshown?) : c = c' := by
  have hword := Constant.kindWord_eq h
  -- The word of its kind tells the constructor; what stands behind it tells the value.
  cases c with
  | int v =>
    cases c' with
    | int v' =>
      rw [Constant.text, Constant.text, String.append_left_inj, String.append_right_inj] at h
      rw [Int32.toInt_inj.1 (toString_int_inj h)]
    | _ => exact absurd hword (by simp [kindWord])
  | float bits =>
    cases c' with
    | float bits' =>
      rw [Constant.text, Constant.text, String.append_left_inj, String.append_right_inj] at h
      rw [UInt32.toNat_inj.1 (Constant.floatText_inj Decimal.Format.small_single bits.toNat_lt
        bits'.toNat_lt h hunshown)]
    | _ => exact absurd hword (by simp [kindWord])
  | long v =>
    cases c' with
    | long v' =>
      rw [Constant.text, Constant.text, String.append_left_inj, String.append_right_inj] at h
      rw [Int64.toInt_inj.1 (toString_int_inj h)]
    | _ => exact absurd hword (by simp [kindWord])
  | double bits =>
    cases c' with
    | double bits' =>
      rw [Constant.text, Constant.text, String.append_left_inj, String.append_right_inj] at h
      rw [UInt64.toNat_inj.1 (Constant.floatText_inj Decimal.Format.small_double bits.toNat_lt
        bits'.toNat_lt h hunshown)]
    | _ => exact absurd hword (by simp [kindWord])
  | string s =>
    cases c' with
    | string s' =>
      rw [Constant.text, Constant.text, String.append_left_inj, String.append_right_inj] at h
      rw [quoted_inj h]
    | _ => exact absurd hword (by simp [kindWord])
  | ofClass name =>
    cases c' with
    | ofClass name' =>
      rw [Constant.text, Constant.text, String.append_left_inj, String.append_right_inj] at h
      rw [quoted_inj h]
    | _ => exact absurd hword (by simp [kindWord])
  | methodType descriptor =>
    cases c' with
    | methodType descriptor' =>
      rw [Constant.text, Constant.text, String.append_left_inj, String.append_right_inj] at h
      rw [quoted_inj h]
    | _ => exact absurd hword (by simp [kindWord])
  | methodHandle kind member viaInterface =>
    cases c' with
    | methodHandle kind' member' viaInterface' =>
      obtain ⟨hkind, rfl, hflag⟩ := handleText_inj h
      have hflag : viaInterface = viaInterface' := by
        revert hflag
        cases viaInterface <;> cases viaInterface' <;> decide
      rw [UInt8.toNat_inj.1 (repr_inj hkind), hflag]
    | _ => exact absurd hword (by simp [kindWord])
  | dynamic bootstrap name descriptor =>
    cases c' with
    | dynamic bootstrap' name' descriptor' =>
      obtain ⟨rfl, rfl, rfl⟩ := Constant.dynamicText_inj h
      rfl
    | _ => exact absurd hword (by simp [kindWord])

/-! ### Words -/

/-- The kinds of instructions. -/
inductive Kind where
  | label
  | line
  | plain
  | immediate
  | slot
  | increment
  | jump
  | push
  | ofClass
  | field
  | invoke
  | invokeDynamic
  | tableSwitch
  | lookupSwitch
  | newArrays
deriving DecidableEq

/-- The kind of the instructions with an opcode. -/
def Opcode.kind? (op : Opcode) : Option Kind :=
  if Binary.isPlain op then some .plain
  else if op == .bipush || op == .sipush || op == .newarray then some .immediate
  else if Binary.takesSlot op then some .slot
  else if op == .iinc then some .increment
  else if Binary.leads op then some .jump
  else if op == .ldc then some .push
  else if Binary.namesClass op then some .ofClass
  else if Opcode.between .getstatic .putfield op then some .field
  else if Opcode.between .invokevirtual .invokeinterface op then some .invoke
  else if op == .invokedynamic then some .invokeDynamic
  else if op == .tableswitch then some .tableSwitch
  else if op == .lookupswitch then some .lookupSwitch
  else if op == .multianewarray then some .newArrays
  else none

/-- An opcode of a kind is one of those that there are. -/
theorem Opcode.byte_lt_of_kind? : ∀ op : Opcode, op.kind?.isSome = true → op.byte.toNat < 202 :=
  Binary.forall_opcode (by decide +kernel)

namespace Opcode

/-- The mnemonics of instructions whose texts name them. -/
theorem mnemonics_named : iinc.mnemonic = "IINC" ∧ ldc.mnemonic = "LDC" ∧
    invokedynamic.mnemonic = "INVOKEDYNAMIC" ∧ multianewarray.mnemonic = "MULTIANEWARRAY" := by
  decide +kernel

/-- The words for labels and line markers are no mnemonics. -/
theorem mnemonic_ne (op : Opcode) : op.mnemonic ≠ "LABEL" ∧ op.mnemonic ≠ "LINE" := by
  have hall : ∀ name ∈ "???" :: mnemonics.toList, name ≠ "LABEL" ∧ name ≠ "LINE" := by
    decide +kernel
  exact hall _ op.mnemonic_mem

end Opcode

namespace Instruction

variable {L : Type}

/-- The kind of an instruction. -/
def kind : Instruction L → Kind
  | .label => .label
  | .line _ => .line
  | .plain _ => .plain
  | .immediate _ _ => .immediate
  | .slot _ _ => .slot
  | .increment _ _ => .increment
  | .jump _ _ => .jump
  | .push _ => .push
  | .ofClass _ _ => .ofClass
  | .field _ _ => .field
  | .invoke _ _ _ => .invoke
  | .invokeDynamic _ => .invokeDynamic
  | .tableSwitch _ _ _ _ => .tableSwitch
  | .lookupSwitch _ _ => .lookupSwitch
  | .newArrays _ _ => .newArrays

/-- The text of an instruction tells its parts: the opcode is one of instructions of its kind, and
the names in a reference end where the text says. -/
structure IsTold (i : Instruction L) : Prop where
  /-- The opcode belongs to the kind. -/
  opcode : ∀ op, i.opcode? = some op → op.kind? = some i.kind
  /-- The class of a member has no point in its name, and the member no blank. -/
  member : ∀ op m, accessed? i = some (op, m) → '.' ∉ m.owner.toList ∧ ' ' ∉ m.name.toList
  /-- A parenthesis stands between the name and the types of a call through a bootstrap method. -/
  dynamic : ∀ call, i = .invokeDynamic call →
    '(' ∉ call.name.toList ∧ call.descriptor.toList.head? = some '('

/-- The word that the text of an instruction begins with. -/
def word (i : Instruction L) : String :=
  match i.opcode? with
  | some op => op.mnemonic
  | none => if i.isLabel then "LABEL" else "LINE"

/-- Instructions with one word have one opcode and are of one kind. -/
theorem opcode_eq_of_word {i j : Instruction L} (hi : i.IsTold) (hj : j.IsTold)
    (h : i.word = j.word) : i.opcode? = j.opcode? ∧ i.kind = j.kind := by
  -- Labels and line markers have no opcode, and their words are no mnemonics.
  have hmarker : ∀ i : Instruction L, i.opcode? = none →
      i.kind = if i.isLabel then .label else .line := by
    intro i hi
    cases i <;> first | rfl | cases hi
  rw [word, word] at h
  cases hop : i.opcode? with
  | none =>
    cases hop' : j.opcode? with
    | none =>
      rw [hop, hop'] at h
      refine ⟨rfl, ?_⟩
      rw [hmarker i hop, hmarker j hop']
      cases hlabel : i.isLabel <;> cases hlabel' : j.isLabel <;> rw [hlabel, hlabel'] at h <;>
        first | rfl | exact absurd h (by decide)
    | some op' =>
      rw [hop, hop'] at h
      cases hlabel : i.isLabel <;> rw [hlabel] at h
      · exact absurd h.symm (Opcode.mnemonic_ne op').2
      · exact absurd h.symm (Opcode.mnemonic_ne op').1
  | some op =>
    cases hop' : j.opcode? with
    | none =>
      rw [hop, hop'] at h
      cases hlabel : j.isLabel <;> rw [hlabel] at h
      · exact absurd h (Opcode.mnemonic_ne op).2
      · exact absurd h (Opcode.mnemonic_ne op).1
    | some op' =>
      rw [hop, hop'] at h
      have hkind := hi.opcode op hop
      have hkind' := hj.opcode op' hop'
      have hsame := Opcode.mnemonic_inj (Opcode.byte_lt_of_kind? op (by rw [hkind]; rfl))
        (Opcode.byte_lt_of_kind? op' (by rw [hkind']; rfl)) h
      subst hsame
      rw [hkind, Option.some.injEq] at hkind'
      exact ⟨rfl, hkind'⟩

variable {table table' : Array (Option Nat)} {i j : Instruction Label}

/-- A word has no blank. -/
theorem blank_not_mem_word (i : Instruction L) : ' ' ∉ i.word.toList := by
  rw [word]
  split
  · exact (not_mem_mnemonic _).1
  · split <;> decide

/-- The word of an instruction is all of its text or is over at a blank. -/
theorem exists_toList_shapeText (table : Array (Option Nat)) (i : Instruction Label) :
    ∃ rest, (shapeText table i).toList = i.word.toList ++ rest ∧
      (rest = [] ∨ rest.head? = some ' ') := by
  -- Most instructions are shown as a word, a blank and operands, and those with targets by their
  -- targets.
  have hword : ∀ (i : Instruction Label) (head operands : String), i.word = head →
      shapeText table i = head ++ " " ++ operands →
      ∃ rest, (shapeText table i).toList = i.word.toList ++ rest ∧
        (rest = [] ∨ rest.head? = some ' ') := by
    intro i head operands hhead htext
    refine ⟨' ' :: operands.toList, ?_, .inr rfl⟩
    rw [htext, toList_operandText, hhead]
  have hjump : i.targets ≠ [] → ∃ rest, (shapeText table i).toList = i.word.toList ++ rest ∧
      (rest = [] ∨ rest.head? = some ' ') := by
    intro htargets
    have hmnemonic : i.word = ((i.opcode?).getD .nop).mnemonic := by
      cases i <;> first | exact absurd rfl htargets | rfl
    rw [shapeText_of_targets htargets, toList_jumpText, hmnemonic]
    exact ⟨_, rfl, .inr rfl⟩
  cases i with
  | label => exact ⟨[], (List.append_nil _).symm, .inl rfl⟩
  | plain op => exact ⟨[], (List.append_nil _).symm, .inl rfl⟩
  | line n => exact hword _ _ _ rfl rfl
  | immediate op n => exact hword _ _ _ rfl rfl
  | slot op n => exact hword _ _ _ rfl rfl
  | ofClass op name => exact hword _ _ _ rfl rfl
  | field op m => exact hword _ _ _ rfl rfl
  | invoke op m viaInterface => exact hword _ _ _ rfl rfl
  | jump op target => exact hjump (List.cons_ne_nil _ _)
  | tableSwitch low high otherwise targets => exact hjump (by simp [Instruction.targets])
  | lookupSwitch otherwise cases => exact hjump (by simp [Instruction.targets])
  | increment n k =>
    refine hword _ "IINC" (toString n.toNat ++ " " ++ toString k.toInt) Opcode.mnemonics_named.1 ?_
    show "IINC " ++ toString n.toNat ++ " " ++ toString k.toInt = _
    rw [show "IINC " = "IINC" ++ " " from rfl]
    simp only [String.append_assoc]
  | push c => exact hword _ "LDC" c.text Opcode.mnemonics_named.2.1 rfl
  | invokeDynamic call =>
    refine hword _ "INVOKEDYNAMIC"
      (call.name ++ call.descriptor ++ " #" ++ toString call.bootstrap.toNat)
      Opcode.mnemonics_named.2.2.1 ?_
    show "INVOKEDYNAMIC " ++ call.name ++ call.descriptor ++ " #" ++
      toString call.bootstrap.toNat = _
    rw [show "INVOKEDYNAMIC " = "INVOKEDYNAMIC" ++ " " from rfl]
    simp only [String.append_assoc]
  | newArrays name dims =>
    refine hword _ "MULTIANEWARRAY" (name ++ " " ++ toString dims.toNat)
      Opcode.mnemonics_named.2.2.2 ?_
    show "MULTIANEWARRAY " ++ name ++ " " ++ toString dims.toNat = _
    rw [show "MULTIANEWARRAY " = "MULTIANEWARRAY" ++ " " from rfl]
    simp only [String.append_assoc]

/-- Equal texts begin with one word. -/
theorem word_eq_of_shapeText (h : shapeText table i = shapeText table' j) : i.word = j.word := by
  have hspan : ∀ (table : Array (Option Nat)) (i : Instruction Label),
      (shapeText table i).toList.takeWhile (· != ' ') = i.word.toList := by
    intro table i
    obtain ⟨rest, htext, hrest⟩ := exists_toList_shapeText table i
    have hin : ∀ c ∈ i.word.toList, (c != ' ') = true := by
      intro c hc
      rw [bne_iff_ne]
      rintro rfl
      exact blank_not_mem_word i hc
    rw [htext, List.takeWhile_append_of_pos hin]
    rcases hrest with rfl | hrest
    · simp
    · obtain ⟨rest, rfl⟩ := List.head?_eq_some_iff.1 hrest
      simp
  rw [← String.toList_inj, ← hspan table, ← hspan table', h]

/-! ### Operands -/

/-- The text of a label tells its position. -/
theorem labelText_inj {label label' : Label}
    (h : Listing.labelText table label = Listing.labelText table' label') :
    Listing.positionIn table label = Listing.positionIn table' label' := by
  have hmark : ∀ n : Nat, "@" ++ toString n ≠ "@?" := by
    intro n heq
    have htext : '@' :: (toString n).toList = ['@', '?'] := by
      rw [← String.toList_inj, String.toList_append] at heq
      exact heq
    have hmem : '?' ∈ (toString n).toList := by
      rw [(List.cons.inj htext).2]
      exact List.mem_singleton_self _
    exact not_mem_toString_nat (by decide) hmem
  rw [Listing.labelText, Listing.labelText] at h
  split at h
  · next n hn =>
    split at h
    · next n' hn' =>
      rw [String.append_right_inj] at h
      rw [hn, hn', repr_inj h]
    · exact absurd h (hmark n)
  · next hnone =>
    split at h
    · next n' hn' => exact absurd h.symm (hmark n')
    · next hnone' => rw [hnone, hnone']

/-- Texts that are joined by a character which is in none of them are told by the joined text. -/
theorem intercalate_inj {between : Char} {parts parts' : List (List Char)}
    (hparts : ∀ part ∈ parts, between ∉ part) (hparts' : ∀ part ∈ parts', between ∉ part)
    (hne : parts ≠ []) (hne' : parts' ≠ [])
    (h : [between].intercalate parts = [between].intercalate parts') : parts = parts' := by
  -- On the parts, for those of the other text: the first ones end at the first of the joining
  -- characters.
  induction parts generalizing parts' with
  | nil => exact absurd rfl hne
  | cons part parts ih =>
    obtain ⟨part', parts', rfl⟩ := List.exists_cons_of_ne_nil hne'
    obtain ⟨hpart, hrest⟩ := List.forall_mem_cons.1 hparts
    obtain ⟨hpart', hrest'⟩ := List.forall_mem_cons.1 hparts'
    cases parts with
    | nil =>
      cases parts' with
      | nil =>
        rw [List.intercalate_singleton, List.intercalate_singleton] at h
        rw [h]
      | cons next' rest' =>
        rw [List.intercalate_singleton, List.intercalate_cons_cons] at h
        exact absurd (h ▸ by simp) hpart
    | cons next rest =>
      cases parts' with
      | nil =>
        rw [List.intercalate_singleton, List.intercalate_cons_cons] at h
        exact absurd (h ▸ by simp) hpart'
      | cons next' rest' =>
        rw [List.intercalate_cons_cons, List.intercalate_cons_cons, List.append_assoc,
          List.append_assoc, List.singleton_append, List.singleton_append,
          append_cons_inj hpart' hpart] at h
        obtain ⟨rfl, -, h⟩ := h
        rw [ih hrest hrest' (List.cons_ne_nil _ _) (List.cons_ne_nil _ _) h]

/-- The texts of labels tell their positions. -/
theorem map_labelText_inj {labels labels' : List Label}
    (h : labels.map (Listing.labelText table) = labels'.map (Listing.labelText table')) :
    labels.map (Listing.positionIn table) = labels'.map (Listing.positionIn table') := by
  induction labels generalizing labels' with
  | nil => rw [List.map_eq_nil_iff.1 h.symm, List.map_nil, List.map_nil]
  | cons label labels ih =>
    cases labels' with
    | nil => cases h
    | cons label' labels' =>
      obtain ⟨hlabel, h⟩ := List.cons.inj h
      rw [List.map_cons, List.map_cons, labelText_inj hlabel, ih h]

/-- The text of the targets of a jump tells their positions. -/
theorem targetsText_inj {labels labels' : List Label} (hne : labels ≠ []) (hne' : labels' ≠ [])
    (h : ",".intercalate (labels.map (Listing.labelText table)) =
      ",".intercalate (labels'.map (Listing.labelText table'))) :
    labels.map (Listing.positionIn table) = labels'.map (Listing.positionIn table') := by
  have hcomma : ∀ (table : Array (Option Nat)) (labels : List Label),
      ∀ part ∈ (labels.map (Listing.labelText table)).map String.toList, ',' ∉ part := by
    intro table labels part hpart
    rw [List.map_map] at hpart
    obtain ⟨label, -, rfl⟩ := List.mem_map.1 hpart
    exact not_mem_labelText (by decide) (by decide) table label
  rw [← String.toList_inj, String.toList_intercalate, String.toList_intercalate] at h
  have hparts := intercalate_inj (hcomma table labels) (hcomma table' labels')
    (by simpa using hne) (by simpa using hne') h
  exact map_labelText_inj (List.map_injective_iff.2 (fun _ _ => String.toList_injective) hparts)

/-- What is joined by a blank and has a blank only behind it is told by the joined text. -/
theorem blank_inj {s s' t t' : String} (hs : ' ' ∉ s.toList) (hs' : ' ' ∉ s'.toList)
    (h : s ++ " " ++ t = s' ++ " " ++ t') : s = s' ∧ t = t' := by
  rw [← String.toList_inj, toList_operandText, toList_operandText, append_cons_inj hs' hs] at h
  exact ⟨String.toList_injective h.1, String.toList_injective h.2.2⟩

/-- What is joined by a mark and has that mark only in front of it is told by the joined text. -/
theorem mark_inj {mark : Char} {xs xs' ys ys' : List Char} (hy : mark ∉ ys) (hy' : mark ∉ ys')
    (h : xs ++ mark :: ys = xs' ++ mark :: ys') : xs = xs' ∧ ys = ys' := by
  have hreverse := congrArg List.reverse h
  rw [List.reverse_append, List.reverse_append, List.reverse_cons, List.reverse_cons,
    List.append_assoc, List.append_assoc, List.singleton_append, List.singleton_append,
    append_cons_inj (by simpa using hy') (by simpa using hy)] at hreverse
  exact ⟨List.reverse_injective hreverse.2.2, List.reverse_injective hreverse.1⟩

/-- The text of a call through a bootstrap method tells the call. -/
theorem callText_inj {call call' : DynamicCall} (hname : '(' ∉ call.name.toList)
    (hname' : '(' ∉ call'.name.toList) (hdescriptor : call.descriptor.toList.head? = some '(')
    (hdescriptor' : call'.descriptor.toList.head? = some '(')
    (h : call.name ++ call.descriptor ++ " #" ++ toString call.bootstrap.toNat =
      call'.name ++ call'.descriptor ++ " #" ++ toString call'.bootstrap.toNat) : call = call' := by
  have htext : ∀ call : DynamicCall,
      (call.name ++ call.descriptor ++ " #" ++ toString call.bootstrap.toNat).toList =
        (call.name.toList ++ call.descriptor.toList ++ [' ']) ++
          '#' :: (toString call.bootstrap.toNat).toList := by
    intro call
    simp
  have hdigits : ∀ n : Nat, '#' ∉ (toString n).toList := fun n => not_mem_toString_nat (by decide)
  rw [← String.toList_inj, htext, htext] at h
  -- The number stands behind the last mark, and the types behind the first bracket.
  obtain ⟨hfront, hbootstrap⟩ := mark_inj (hdigits _) (hdigits _) h
  rw [List.append_cancel_right_eq] at hfront
  obtain ⟨types, hcall⟩ := List.head?_eq_some_iff.1 hdescriptor
  obtain ⟨types', hcall'⟩ := List.head?_eq_some_iff.1 hdescriptor'
  rw [hcall, hcall', append_cons_inj hname' hname] at hfront
  obtain ⟨hnames, -, htypes⟩ := hfront
  have hdescriptors : call.descriptor = call'.descriptor := by
    rw [← String.toList_inj, hcall, hcall', htypes]
  obtain ⟨bootstrap, name, descriptor⟩ := call
  obtain ⟨bootstrap', name', descriptor'⟩ := call'
  cases String.toList_injective hnames
  cases hdescriptors
  cases UInt16.toNat_inj.1 (repr_inj (String.toList_injective hbootstrap))
  rfl

/-- What the shape of a listing does not show of an instruction. -/
inductive Unshown where
  /-- The least and the greatest key of a table switch. -/
  | bounds (low high : Int32)
  /-- The keys of a lookup switch. -/
  | keys (keys : List Int32)
  /-- Whether a call is one of an interface method. -/
  | viaInterface (viaInterface : Bool)
  /-- The bits of a NaN. -/
  | nan (bits : Nat)

/-- What the shape of a listing does not show of an instruction, if there is anything. -/
def unshown? : Instruction L → Option Unshown
  | .tableSwitch low high _ _ => some (.bounds low high)
  | .lookupSwitch _ cases => some (.keys (cases.map (·.1)))
  | .invoke _ _ viaInterface => some (.viaInterface viaInterface)
  | .push c => c.unshown?.map .nan
  | _ => none

/-- The texts of jumps and switches with one opcode tell the positions of their targets. -/
theorem targets_eq_of_shapeText (h : shapeText table i = shapeText table' j)
    (hop : i.opcode? = j.opcode?) (hi : i.targets ≠ []) (hj : j.targets ≠ []) :
    i.targets.map (Listing.positionIn table) = j.targets.map (Listing.positionIn table') := by
  rw [shapeText_of_targets hi, shapeText_of_targets hj, hop, String.append_right_inj] at h
  exact targetsText_inj hi hj h

/-! ### One kind of instruction each -/

/-- The operand of an instruction is told by what stands behind its mnemonic. -/
theorem operand_inj {head operand operand' : String}
    (h : head ++ " " ++ operand = head ++ " " ++ operand') : operand = operand' :=
  (String.append_right_inj _).1 h

/-- The text of a line marker tells the line. -/
theorem line_inj {n n' : UInt16} (h : shapeText table (.line n) = shapeText table' (.line n')) :
    n = n' := by
  have hn : "LINE" ++ " " ++ toString n.toNat = "LINE" ++ " " ++ toString n'.toNat := h
  exact UInt16.toNat_inj.1 (repr_inj (operand_inj hn))

/-- The text of an instruction with a number tells the number. -/
theorem immediate_inj {op : Opcode} {n n' : Int32}
    (h : shapeText table (.immediate op n) = shapeText table' (.immediate op n')) : n = n' := by
  have hn : op.mnemonic ++ " " ++ toString n.toInt = op.mnemonic ++ " " ++ toString n'.toInt := h
  exact Int32.toInt_inj.1 (toString_int_inj (operand_inj hn))

/-- The text of an access to a slot tells the slot. -/
theorem slot_inj {op : Opcode} {n n' : UInt16}
    (h : shapeText table (.slot op n) = shapeText table' (.slot op n')) : n = n' := by
  have hn : op.mnemonic ++ " " ++ toString n.toNat = op.mnemonic ++ " " ++ toString n'.toNat := h
  exact UInt16.toNat_inj.1 (repr_inj (operand_inj hn))

/-- The text of an increment tells the slot and by how much. -/
theorem increment_inj {n n' : UInt16} {k k' : Int16}
    (h : shapeText table (.increment n k) = shapeText table' (.increment n' k')) :
    n = n' ∧ k = k' := by
  have hnk : "IINC " ++ toString n.toNat ++ " " ++ toString k.toInt =
      "IINC " ++ toString n'.toNat ++ " " ++ toString k'.toInt := h
  rw [String.append_assoc, String.append_assoc, String.append_assoc, String.append_assoc,
    String.append_right_inj, ← String.append_assoc, ← String.append_assoc] at hnk
  obtain ⟨hn, hk⟩ := blank_inj (not_mem_toString_nat (by decide))
    (not_mem_toString_nat (by decide)) hnk
  exact ⟨UInt16.toNat_inj.1 (repr_inj hn), Int16.toInt_inj.1 (toString_int_inj hk)⟩

/-- The text of a jump tells the position of its target. -/
theorem jump_inj {op : Opcode} {target target' : Label}
    (h : shapeText table (.jump op target) = shapeText table' (.jump op target')) :
    Listing.positionIn table target = Listing.positionIn table' target' := by
  have htargets := targets_eq_of_shapeText h rfl (List.cons_ne_nil _ _) (List.cons_ne_nil _ _)
  exact (List.cons.inj htargets).1

/-- The text of a load tells the constant, apart from the bits of a NaN. -/
theorem push_inj {c c' : Constant} (h : shapeText table (.push c) = shapeText table' (.push c'))
    (hunshown : (push c : Instruction Label).unshown? = (push c' : Instruction Label).unshown?) :
    c = c' := by
  have hc : "LDC" ++ " " ++ c.text = "LDC" ++ " " ++ c'.text := h
  refine Constant.text_inj (operand_inj hc) (Option.map_injective (fun _ _ hbits => ?_) hunshown)
  injection hbits

/-- The text of an instruction with a class tells the class. -/
theorem ofClass_inj {op : Opcode} {name name' : String}
    (h : shapeText table (.ofClass op name) = shapeText table' (.ofClass op name')) :
    name = name' :=
  operand_inj (show op.mnemonic ++ " " ++ name = op.mnemonic ++ " " ++ name' from h)

/-- The text of an access to a field tells the field. -/
theorem field_inj {op : Opcode} {m m' : Member} (hi : (field op m : Instruction Label).IsTold)
    (hj : (field op m' : Instruction Label).IsTold)
    (h : shapeText table (.field op m) = shapeText table' (.field op m')) : m = m' := by
  have hm : op.mnemonic ++ " " ++ m.text = op.mnemonic ++ " " ++ m'.text := h
  obtain ⟨howner, hname⟩ := hi.member op m rfl
  obtain ⟨howner', hname'⟩ := hj.member op m' rfl
  exact text_inj_of_not_mem howner howner' hname hname' (operand_inj hm)

/-- The text of a call tells the method. -/
theorem invoke_inj {op : Opcode} {m m' : Member} {via via' : Bool}
    (hi : (invoke op m via : Instruction Label).IsTold)
    (hj : (invoke op m' via' : Instruction Label).IsTold)
    (h : shapeText table (.invoke op m via) = shapeText table' (.invoke op m' via')) : m = m' := by
  have hm : op.mnemonic ++ " " ++ m.text = op.mnemonic ++ " " ++ m'.text := h
  obtain ⟨howner, hname⟩ := hi.member op m rfl
  obtain ⟨howner', hname'⟩ := hj.member op m' rfl
  exact text_inj_of_not_mem howner howner' hname hname' (operand_inj hm)

/-- The text of a call through a bootstrap method tells the call. -/
theorem invokeDynamic_inj {call call' : DynamicCall}
    (hi : (invokeDynamic call : Instruction Label).IsTold)
    (hj : (invokeDynamic call' : Instruction Label).IsTold)
    (h : shapeText table (.invokeDynamic call) = shapeText table' (.invokeDynamic call')) :
    call = call' := by
  have hcall : "INVOKEDYNAMIC " ++ call.name ++ call.descriptor ++ " #" ++
      toString call.bootstrap.toNat = "INVOKEDYNAMIC " ++ call'.name ++ call'.descriptor ++
        " #" ++ toString call'.bootstrap.toNat := h
  simp only [String.append_assoc, String.append_right_inj] at hcall
  simp only [← String.append_assoc] at hcall
  obtain ⟨hname, hdescriptor⟩ := hi.dynamic call rfl
  obtain ⟨hname', hdescriptor'⟩ := hj.dynamic call' rfl
  exact callText_inj hname hname' hdescriptor hdescriptor' hcall

/-- The text of a table switch tells the positions of its targets. -/
theorem tableSwitch_inj {low low' high high' : Int32} {otherwise otherwise' : Label}
    {targets targets' : List Label}
    (h : shapeText table (.tableSwitch low high otherwise targets) =
      shapeText table' (.tableSwitch low' high' otherwise' targets')) :
    Listing.positionIn table otherwise = Listing.positionIn table' otherwise' ∧
      targets.map (Listing.positionIn table) = targets'.map (Listing.positionIn table') := by
  have htargets := targets_eq_of_shapeText h rfl (by simp [Instruction.targets])
    (by simp [Instruction.targets])
  rw [Instruction.targets, Instruction.targets, List.map_append, List.map_append] at htargets
  obtain ⟨htargets, hotherwise⟩ := List.append_inj' htargets rfl
  exact ⟨(List.cons.inj hotherwise).1, htargets⟩

/-- The text of a lookup switch tells the positions of its targets. -/
theorem lookupSwitch_inj {otherwise otherwise' : Label} {cases cases' : List (Int32 × Label)}
    (h : shapeText table (.lookupSwitch otherwise cases) =
      shapeText table' (.lookupSwitch otherwise' cases')) :
    Listing.positionIn table otherwise = Listing.positionIn table' otherwise' ∧
      cases.map (Listing.positionIn table ∘ (·.2)) =
        cases'.map (Listing.positionIn table' ∘ (·.2)) := by
  have htargets := targets_eq_of_shapeText h rfl (by simp [Instruction.targets])
    (by simp [Instruction.targets])
  rw [Instruction.targets, Instruction.targets, List.map_append, List.map_append, List.map_map,
    List.map_map] at htargets
  obtain ⟨htargets, hotherwise⟩ := List.append_inj' htargets rfl
  exact ⟨(List.cons.inj hotherwise).1, htargets⟩

/-- Keys and positions of a lookup switch are what its labels are mapped to. -/
theorem map_lookupSwitch (f : Label → Option Nat) (otherwise : Label)
    (cases : List (Int32 × Label)) : (lookupSwitch otherwise cases).map f =
      .lookupSwitch (f otherwise) ((cases.map (·.1)).zip (cases.map (f ∘ (·.2)))) := by
  rw [List.zip_map']
  rfl

/-- The text of an allocation of nested arrays tells the type and how many sizes are given. -/
theorem newArrays_inj {name name' : String} {dims dims' : UInt8}
    (h : shapeText table (.newArrays name dims) = shapeText table' (.newArrays name' dims')) :
    name = name' ∧ dims = dims' := by
  have hdims : "MULTIANEWARRAY " ++ name ++ " " ++ toString dims.toNat =
      "MULTIANEWARRAY " ++ name' ++ " " ++ toString dims'.toNat := h
  have hdigits : ∀ n : Nat, ' ' ∉ (toString n).toList := fun n => not_mem_toString_nat (by decide)
  -- the number stands behind the last blank
  rw [← String.toList_inj, toList_operandText, toList_operandText] at hdims
  obtain ⟨hname, hdims⟩ := mark_inj (hdigits _) (hdigits _) hdims
  rw [String.toList_inj, String.append_right_inj] at hname
  exact ⟨hname, UInt8.toNat_inj.1 (repr_inj (String.toList_injective hdims))⟩

/-- **The text of an instruction tells the instruction,** apart from what is not shown and the names
of labels: these have the same positions. -/
theorem eq_of_shapeText (hi : i.IsTold) (hj : j.IsTold)
    (h : shapeText table i = shapeText table' j) (hunshown : i.unshown? = j.unshown?) :
    i.map (Listing.positionIn table) = j.map (Listing.positionIn table') := by
  obtain ⟨hop, hkind⟩ := opcode_eq_of_word hi hj (word_eq_of_shapeText h)
  -- The opcode and the kind agree, so both instructions have one constructor; the rest of the text
  -- tells the operands.
  cases i with
  | label => cases j with
    | label => rfl
    | _ => cases hkind
  | line n => cases j with
    | line n' => exact congrArg line (line_inj h)
    | _ => cases hkind
  | plain op => cases j with
    | plain op' =>
      cases hop
      rfl
    | _ => cases hkind
  | immediate op n => cases j with
    | immediate op' n' =>
      cases hop
      exact congrArg (immediate op) (immediate_inj h)
    | _ => cases hkind
  | slot op n => cases j with
    | slot op' n' =>
      cases hop
      exact congrArg (slot op) (slot_inj h)
    | _ => cases hkind
  | increment n k => cases j with
    | increment n' k' =>
      obtain ⟨rfl, rfl⟩ := increment_inj h
      rfl
    | _ => cases hkind
  | jump op target => cases j with
    | jump op' target' =>
      cases hop
      exact congrArg (jump op) (jump_inj h)
    | _ => cases hkind
  | push c => cases j with
    | push c' => exact congrArg push (push_inj h hunshown)
    | _ => cases hkind
  | ofClass op name => cases j with
    | ofClass op' name' =>
      cases hop
      exact congrArg (ofClass op) (ofClass_inj h)
    | _ => cases hkind
  | field op m => cases j with
    | field op' m' =>
      cases hop
      exact congrArg (field op) (field_inj hi hj h)
    | _ => cases hkind
  | invoke op m via => cases j with
    | invoke op' m' via' =>
      cases hop
      cases hunshown
      exact congrArg (invoke op · via) (invoke_inj hi hj h)
    | _ => cases hkind
  | invokeDynamic call => cases j with
    | invokeDynamic call' => exact congrArg invokeDynamic (invokeDynamic_inj hi hj h)
    | _ => cases hkind
  | tableSwitch low high otherwise targets => cases j with
    | tableSwitch low' high' otherwise' targets' =>
      cases hunshown
      obtain ⟨hotherwise, htargets⟩ := tableSwitch_inj h
      exact congrArg₂ (tableSwitch low high) hotherwise htargets
    | _ => cases hkind
  | lookupSwitch otherwise cases => cases j with
    | lookupSwitch otherwise' cases' =>
      injection hunshown with hkeys
      injection hkeys with hkeys
      obtain ⟨hotherwise, htargets⟩ := lookupSwitch_inj h
      rw [map_lookupSwitch, map_lookupSwitch, hkeys, hotherwise, htargets]
    | _ => cases hkind
  | newArrays name dims => cases j with
    | newArrays name' dims' =>
      obtain ⟨rfl, rfl⟩ := newArrays_inj h
      rfl
    | _ => cases hkind

end Instruction

/-! ### Shapes -/

/-- A shape has the text of each instruction. -/
theorem Listing.shape_eq (l : Listing) : l.shape = l.instructions.map (shapeText l.positions) := rfl

/-- **The shape of a listing tells its instructions,** apart from what is not shown and the names of
labels: these have the same positions. -/
theorem Listing.instructions_of_shape {l l' : Listing} (hl : ∀ i ∈ l.instructions, i.IsTold)
    (hl' : ∀ i ∈ l'.instructions, i.IsTold) (hshape : l.shape = l'.shape)
    (hunshown : l.instructions.map Instruction.unshown? =
      l'.instructions.map Instruction.unshown?) :
    l.instructions.map (Instruction.map (positionIn l.positions)) =
      l'.instructions.map (Instruction.map (positionIn l'.positions)) := by
  have hall : ∀ {is js : List (Instruction Label)}, (∀ i ∈ is, i.IsTold) → (∀ j ∈ js, j.IsTold) →
      is.map (shapeText l.positions) = js.map (shapeText l'.positions) →
      is.map Instruction.unshown? = js.map Instruction.unshown? →
      is.map (Instruction.map (positionIn l.positions)) =
        js.map (Instruction.map (positionIn l'.positions)) := by
    -- On the instructions, for those of the other listing, with both tables fixed.
    intro is
    induction is with
    | nil =>
      intro js _ _ htexts _
      rw [List.map_eq_nil_iff.1 htexts.symm, List.map_nil, List.map_nil]
    | cons i is ih =>
      intro js his hjs htexts hunshown
      cases js with
      | nil => exact absurd htexts (List.cons_ne_nil _ _)
      | cons j js =>
        obtain ⟨hi, his⟩ := List.forall_mem_cons.1 his
        obtain ⟨hj, hjs⟩ := List.forall_mem_cons.1 hjs
        obtain ⟨htext, htexts⟩ := List.cons.inj htexts
        obtain ⟨hfirst, hunshown⟩ := List.cons.inj hunshown
        rw [List.map_cons, List.map_cons, Instruction.eq_of_shapeText hi hj htext hfirst,
          ih his hjs htexts hunshown]
  rw [shape_eq, shape_eq] at hshape
  exact hall hl hl' hshape hunshown

end Unscramble
