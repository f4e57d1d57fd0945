import Unscramble.Proofs.Naming.Arrival
import Unscramble.Proofs.Pattern.Spelling
import Unscramble.Proofs.Quoting
import Unscramble.Tidy.StaticMethods

/-! # What fingerprints tell

The fingerprint of a method is a text. If names have no points, blanks and line breaks in them, the
text tells the members that the instructions refer to, so methods with equal fingerprints still have
equal ones when members get new references.

Main definitions: `isLegible`, `isReadable`, `lineText`, `Plain`. Main statements:
`fingerprint_eq_iff`, `lineText_onInstruction`, `Plain.fingerprint_onBody`. -/

namespace Unscramble.Tidy

open Naming Text

/-! ### Legible names -/

/-- Whether a text has no point, no blank and no line break. -/
def isLegible (s : String) : Bool :=
  s.toList.all fun c => c != '.' && c != ' ' && c != '\n'

/-- Whether a text is legible and has no parenthesis, unlike a descriptor of a method. -/
def isLegibleClass (s : String) : Bool :=
  isLegible s && !s.toList.contains '('

/-- A legible text has neither dots nor blanks nor line breaks. -/
theorem of_isLegible {s : String} (h : isLegible s = true) :
    '.' ∉ s.toList ∧ ' ' ∉ s.toList ∧ '\n' ∉ s.toList := by
  have hall : ∀ c ∈ s.toList, c ≠ '.' ∧ c ≠ ' ' ∧ c ≠ '\n' := by
    simpa [isLegible, and_assoc] using h
  exact ⟨fun hc => (hall _ hc).1 rfl, fun hc => (hall _ hc).2.1 rfl, fun hc => (hall _ hc).2.2 rfl⟩

/-- A legible class has no parenthesis either. -/
theorem of_isLegibleClass {s : String} (h : isLegibleClass s = true) :
    '.' ∉ s.toList ∧ ' ' ∉ s.toList ∧ '\n' ∉ s.toList ∧ '(' ∉ s.toList := by
  obtain ⟨hlegible, hparenthesis⟩ := Bool.and_eq_true_iff.1 h
  obtain ⟨hpoint, hblank, hbreak⟩ := of_isLegible hlegible
  exact ⟨hpoint, hblank, hbreak, by simpa using hparenthesis⟩

/-- Whether the names in a reference are legible. -/
def isClear (m : Member) : Bool :=
  isLegibleClass m.owner && isLegible m.name && isLegible m.descriptor

/-- The parts of a clear reference are legible. -/
theorem of_isClear {m : Member} (h : isClear m = true) : isLegibleClass m.owner = true ∧
    isLegible m.name = true ∧ isLegible m.descriptor = true := by
  simpa [isClear, and_assoc] using h

/-- Whether the names in an instruction are legible. Handles are quoted, so theirs need not be. -/
def isReadable {L : Type} : Instruction L → Bool
  | .field _ m | .invoke _ m _ => isClear m
  | .ofClass _ name | .newArrays name _ => isLegible name
  | .invokeDynamic call => isLegible call.name && isLegible call.descriptor
  | _ => true

/-! ### Lines -/

/-- The text of an instruction, with the labels of a jump by their places. -/
def shapeText (table : Array (Option Nat)) (i : Instruction Label) : String :=
  match i.targets with
  | [] => i.text (Listing.labelText table)
  | targets => ((i.opcode?).getD .nop).mnemonic ++ " -> " ++
      ",".intercalate (targets.map (Listing.labelText table))

/-- What a fingerprint tells of an instruction. -/
def lineText (table : Array (Option Nat)) (i : Instruction Label) : String :=
  if i.pushedInt?.isSome then "(int)" else shapeText table i

/-- Whether an instruction is a line marker. -/
def isLine : Instruction Label → Bool
  | .line _ => true
  | _ => false

/-- The lines of a fingerprint. -/
def lines (l : Listing) : List String :=
  (l.instructions.filter fun i => !isLine i).map (lineText l.positions)

/-- What an instruction adds to a fingerprint. -/
theorem toList_fingerprintLine (table : Array (Option Nat)) {i : Instruction Label}
    (h : isLine i = false) :
    (fingerprintLine i (shapeText table i)).toList = '\n' :: (lineText table i).toList := by
  have hline : fingerprintLine i (shapeText table i) = "\n" ++ lineText table i := by
    cases i with
    | line => cases h
    | _ => rfl
  rw [hline, String.toList_append]
  rfl

/-- A fingerprint is the descriptor and the lines, each behind a line break. -/
theorem toList_fingerprint (m : Method) (b : Body) : (fingerprint m b).toList =
    m.descriptor.toList ++ (lines b.listing).flatMap fun line => '\n' :: line.toList := by
  have hfold : ∀ (table : Array (Option Nat)) (is : List (Instruction Label)) (text : String),
      ((is.zip (is.map (shapeText table))).foldl
        (fun text x => text ++ fingerprintLine x.1 x.2) text).toList =
      text.toList ++ (((is.filter fun i => !isLine i).map (lineText table)).flatMap
        fun line => '\n' :: line.toList) := by
    intro table is
    induction is with
    | nil => simp
    | cons i is ih =>
      intro text
      rw [List.map_cons, List.zip_cons_cons, List.foldl_cons, ih, String.toList_append]
      by_cases hline : isLine i = true
      · have hnone : fingerprintLine i (shapeText table i) = "" := by
          cases i with
          | line => rfl
          | _ => cases hline
        rw [hnone, List.filter_cons_of_neg (by simpa using hline)]
        simp
      · have hline : isLine i = false := by simpa using hline
        rw [toList_fingerprintLine table hline, List.filter_cons_of_pos (by simpa using hline),
          List.map_cons, List.flatMap_cons, List.append_assoc]
  exact hfold b.listing.positions b.listing.instructions m.descriptor

/-- Fingerprints without other line breaks are equal if the descriptors and all lines are. -/
theorem fingerprint_eq_iff {m m' : Method} {b b' : Body} (hm : '\n' ∉ m.descriptor.toList)
    (hm' : '\n' ∉ m'.descriptor.toList) (hb : ∀ line ∈ lines b.listing, '\n' ∉ line.toList)
    (hb' : ∀ line ∈ lines b'.listing, '\n' ∉ line.toList) :
    fingerprint m b = fingerprint m' b' ↔
      m.descriptor = m'.descriptor ∧ lines b.listing = lines b'.listing := by
  -- Lines end at line breaks, of which there are no others, so they are told one after the other.
  have hlines : ∀ (xs ys : List String) (s t : String), '\n' ∉ s.toList → '\n' ∉ t.toList →
      (∀ line ∈ xs, '\n' ∉ line.toList) → (∀ line ∈ ys, '\n' ∉ line.toList) →
      s.toList ++ (xs.flatMap fun line => '\n' :: line.toList) =
        t.toList ++ (ys.flatMap fun line => '\n' :: line.toList) → s = t ∧ xs = ys := by
    intro xs
    induction xs with
    | nil =>
      intro ys s t hs ht _ _ h
      cases ys with
      | nil =>
        rw [List.flatMap_nil, List.append_nil, List.append_nil] at h
        exact ⟨String.toList_injective h, rfl⟩
      | cons y ys =>
        refine absurd ?_ hs
        rw [List.flatMap_nil, List.append_nil] at h
        rw [h, List.flatMap_cons]
        simp
    | cons x xs ih =>
      intro ys s t hs ht hxs hys h
      cases ys with
      | nil =>
        refine absurd ?_ ht
        rw [List.flatMap_nil, List.append_nil] at h
        rw [← h, List.flatMap_cons]
        simp
      | cons y ys =>
        obtain ⟨hx, hxs⟩ := List.forall_mem_cons.1 hxs
        obtain ⟨hy, hys⟩ := List.forall_mem_cons.1 hys
        rw [List.flatMap_cons, List.flatMap_cons, List.cons_append, List.cons_append,
          append_cons_inj ht hs] at h
        obtain ⟨hst, -, hrest⟩ := h
        obtain ⟨rfl, rfl⟩ := ih ys x y hx hy hxs hys hrest
        exact ⟨String.toList_injective hst, rfl⟩
  constructor
  · intro h
    have htexts := congrArg String.toList h
    rw [toList_fingerprint, toList_fingerprint] at htexts
    exact hlines _ _ _ _ hm hm' hb hb' htexts
  · rintro ⟨hdescriptor, hlines⟩
    refine String.toList_injective ?_
    rw [toList_fingerprint, toList_fingerprint, hdescriptor, hlines]

/-! ### Texts of instructions -/

/-- A mnemonic is one word. -/
theorem not_mem_mnemonic (op : Opcode) : ' ' ∉ op.mnemonic.toList ∧ '\n' ∉ op.mnemonic.toList := by
  rcases List.mem_cons.1 op.mnemonic_mem with hunassigned | hname
  · rw [hunassigned]
    decide +kernel
  · have hword := Pattern.isMnemonic_of_mem _ hname
    simp only [Pattern.isMnemonic, Bool.and_eq_true, List.all_eq_true] at hword
    exact ⟨fun h => absurd (hword.1.1 _ h) (by decide), fun h => absurd (hword.1.1 _ h) (by decide)⟩

/-- The member that an instruction refers to, with its opcode. -/
def accessed? {L : Type} : Instruction L → Option (Opcode × Member)
  | .field op m | .invoke op m _ => some (op, m)
  | _ => none

/-- The handle that an instruction pushes: its kind, its member, and whether this is one of an
interface. -/
def handle? {L : Type} : Instruction L → Option (UInt8 × Member × Bool)
  | .push (.methodHandle kind m viaInterface) => some (kind, m, viaInterface)
  | _ => none

/-- The member that an instruction refers to, by its opcode or by the handle that it pushes. -/
def referred? {L : Type} (i : Instruction L) : Option Member :=
  ((accessed? i).map (·.2)).or ((handle? i).map (·.2.1))

section

variable {table table' : Array (Option Nat)} {i j : Instruction Label} {op : Opcode}
  {m : Member} {kind : UInt8} {viaInterface : Bool} {r : Renaming}

/-- What an instruction accesses it refers to. -/
theorem referred?_of_accessed? (h : accessed? i = some (op, m)) : referred? i = some m := by
  rw [referred?, h]
  rfl

/-- What the handle that an instruction loads refers to the instruction refers to. -/
theorem referred?_of_handle? (h : handle? i = some (kind, m, viaInterface)) :
    referred? i = some m := by
  cases i with
  | push c => rw [referred?, h]; rfl
  | _ => cases h

/-- The line of an access is the mnemonic and the member. -/
theorem lineText_of_accessed? (h : accessed? i = some (op, m)) :
    lineText table i = op.mnemonic ++ " " ++ m.text := by
  cases i <;> cases h <;> rfl

/-- The line of a handle that is loaded is `LDC` and the handle. -/
theorem lineText_of_handle? (h : handle? i = some (kind, m, viaInterface)) :
    lineText table i = "LDC " ++ (Constant.methodHandle kind m viaInterface).text := by
  cases i with
  | push c => cases c <;> cases h; rfl
  | _ => cases h

/-- A renamed instruction accesses the renamed member. -/
theorem accessed?_onInstruction (h : accessed? i = some (op, m)) :
    accessed? (r.onInstruction i) = some (op, r.onMember m) := by
  cases i <;> cases h <;> rfl

/-- A renamed instruction loads a handle of the renamed member. -/
theorem handle?_onInstruction (h : handle? i = some (kind, m, viaInterface)) :
    handle? (r.onInstruction i) = some (kind, r.onMember m, viaInterface) := by
  cases i with
  | push c => cases c <;> cases h; rfl
  | _ => cases h

/-- Under new references an instruction refers to the new one of its member. -/
theorem referred?_onInstruction (i : Instruction Label) :
    referred? (r.onInstruction i) = (referred? i).map r.onMember := by
  cases i with
  | push c => cases c <;> rfl
  | _ => rfl

/-- Without new names of classes, an instruction changes only if its member gets a new reference. -/
theorem onInstruction_eq_self (hclasses : r.classes = ∅)
    (h : ∀ m, referred? i = some m → r.onMember m = m) : r.onInstruction i = i := by
  have hdescriptor : ∀ d, r.onDescriptor d = d := fun d => by
    rw [Renaming.onDescriptor, Descriptor.mapClasses_eq_self (by simp [hclasses])]
  have hoperand : ∀ s, r.onOperand s = s := fun s => by
    rw [Renaming.onOperand, Descriptor.mapClassOperand,
      Descriptor.mapClasses_eq_self (by simp [hclasses])]
    simp [hclasses]
  cases i with
  | push c =>
    cases c with
    | methodHandle kind m viaInterface =>
      rw [Renaming.onInstruction, Renaming.onConstant, h m rfl]
    | _ => simp [Renaming.onInstruction, Renaming.onConstant, hoperand, hdescriptor]
  | field op m => rw [Renaming.onInstruction, h m rfl]
  | invoke op m viaInterface => rw [Renaming.onInstruction, h m rfl]
  | _ => simp [Renaming.onInstruction, hoperand, hdescriptor]

end

/-! ### Texts that refer to nothing -/

/-- What stands between the parts of a joined text or in one of them stands in the joined text. -/
theorem not_mem_intercalate {c : Char} {between : List Char} (hbetween : c ∉ between)
    {parts : List (List Char)} (h : ∀ part ∈ parts, c ∉ part) : c ∉ between.intercalate parts := by
  induction parts with
  | nil => exact List.not_mem_nil
  | cons part parts ih =>
    obtain ⟨hpart, hparts⟩ := List.forall_mem_cons.1 h
    cases parts with
    | nil => rwa [List.intercalate_singleton]
    | cons next rest =>
      rw [List.intercalate_cons_cons, List.mem_append, List.mem_append, not_or, not_or]
      exact ⟨⟨hpart, hbetween⟩, ih hparts⟩

/-- The text of a label has only digits and two signs. -/
theorem not_mem_labelText {c : Char} (hc : c.isDigit = false) (hat : c ∉ ['@', '?'])
    (table : Array (Option Nat)) (label : Label) : c ∉ (Listing.labelText table label).toList := by
  have hat : c ≠ '@' ∧ c ≠ '?' := by simpa using hat
  rw [Listing.labelText]
  split
  · rw [String.toList_append, List.mem_append, not_or]
    exact ⟨by simpa using hat.1, not_mem_toString_nat hc⟩
  · simpa using hat

/-- The text of the targets of a jump. -/
theorem not_mem_targetsText {c : Char} (hc : c.isDigit = false) (hat : c ∉ ['@', '?', ','])
    (table : Array (Option Nat)) (labels : List Label) :
    c ∉ (",".intercalate (labels.map (Listing.labelText table))).toList := by
  have hat : c ≠ '@' ∧ c ≠ '?' ∧ c ≠ ',' := by simpa using hat
  rw [String.toList_intercalate, List.map_map]
  refine not_mem_intercalate (by simpa using hat.2.2) fun part hpart => ?_
  obtain ⟨label, -, rfl⟩ := List.mem_map.1 hpart
  exact not_mem_labelText hc (by simpa using ⟨hat.1, hat.2.1⟩) table label

/-- Texts of a word, alone or with operands that have no point. -/
inductive IsPlain : List Char → Prop where
  /-- A word. -/
  | word {text : List Char} (hword : ' ' ∉ text) (hline : '\n' ∉ text) : IsPlain text
  /-- A word with operands, which does not begin like the push of a handle. -/
  | operands {head rest : List Char} (hhead : ' ' ∉ head) (hline : '\n' ∉ head)
    (hpoint : '.' ∉ rest) (hline' : '\n' ∉ rest)
    (hother : head ≠ "LDC".toList ∨ ' ' ∉ rest ∨ rest.head? = some '-') :
    IsPlain (head ++ ' ' :: rest)

/-- The text of a reference to a member. -/
def RefersTo (text : List Char) : Prop :=
  ∃ head owner rest, ' ' ∉ head ∧ ' ' ∉ owner ∧ '.' ∉ owner ∧ '(' ∉ owner ∧
    text = head ++ ' ' :: (owner ++ '.' :: rest)

/-- A plain text has no point where that of a reference has one. -/
theorem IsPlain.not_refersTo {text : List Char} (h : IsPlain text) : ¬RefersTo text := by
  rintro ⟨head', owner, rest', hhead', -, -, -, heq⟩
  cases h with
  | word hword => exact hword (heq ▸ by simp)
  | operands hhead _ hpoint =>
    rw [append_cons_inj hhead' hhead] at heq
    exact hpoint (heq.2.2 ▸ by simp)

/-- A plain text is not that of the push of a handle. -/
theorem IsPlain.ne_handle {text : List Char} (h : IsPlain text) (rest : List Char) :
    text ≠ "LDC".toList ++ ' ' :: ("MethodHandle".toList ++ ' ' :: rest) := by
  intro heq
  cases h with
  | word hword => exact hword (heq ▸ by simp)
  | operands hhead _ _ _ hother =>
    rw [append_cons_inj (by decide) hhead] at heq
    rcases hother with hother | hother | hother
    · exact hother heq.1
    · exact hother (heq.2.2 ▸ by simp)
    · rw [heq.2.2] at hother
      exact absurd hother (by simp)

/-- A plain text is one line. -/
theorem IsPlain.newline_not_mem {text : List Char} (h : IsPlain text) : '\n' ∉ text := by
  cases h with
  | word _ hline => exact hline
  | operands _ hline _ hline' =>
    rw [List.mem_append, List.mem_cons, not_or, not_or]
    exact ⟨hline, by decide, hline'⟩

section

variable {table table' : Array (Option Nat)} {i j : Instruction Label} {op : Opcode}
  {m : Member} {kind : UInt8} {viaInterface : Bool} {r : Renaming}

/-- The text of a jump. -/
theorem toList_jumpText (op : Opcode) (table : Array (Option Nat)) (labels : List Label) :
    (op.mnemonic ++ " -> " ++ ",".intercalate (labels.map (Listing.labelText table))).toList =
      op.mnemonic.toList ++ ' ' :: '-' :: ('>' :: ' ' ::
        (",".intercalate (labels.map (Listing.labelText table))).toList) := by
  rw [String.toList_append, String.toList_append, List.append_assoc]
  rfl

/-- The text of an instruction with an operand. -/
theorem toList_operandText (head operand : String) :
    (head ++ " " ++ operand).toList = head.toList ++ ' ' :: operand.toList := by
  rw [String.toList_append, String.toList_append, List.append_assoc]
  rfl

/-- A jump shows its labels only. -/
theorem shapeText_of_targets (h : i.targets ≠ []) : shapeText table i =
    ((i.opcode?).getD .nop).mnemonic ++ " -> " ++
      ",".intercalate (i.targets.map (Listing.labelText table)) := by
  rw [shapeText]
  split
  · next hnone => exact absurd hnone h
  · rfl

/-- The text of an instruction with an operand is plain if no point and no line break stands in it.
-/
theorem IsPlain.operand {head operand : String} (hblank : ' ' ∉ head.toList)
    (hline : '\n' ∉ head.toList) (hpoint : '.' ∉ operand.toList) (hline' : '\n' ∉ operand.toList)
    (hother : head.toList ≠ "LDC".toList ∨ ' ' ∉ operand.toList) :
    IsPlain (head ++ " " ++ operand).toList := by
  rw [toList_operandText]
  exact .operands hblank hline hpoint hline' (hother.imp_right .inl)

/-- The text of a jump is plain. -/
theorem isPlain_shapeText_of_targets (h : i.targets ≠ []) :
    IsPlain (shapeText table i).toList := by
  rw [shapeText_of_targets h, toList_jumpText]
  refine .operands (not_mem_mnemonic _).1 (not_mem_mnemonic _).2 ?_ ?_ (.inr (.inr rfl))
  · simpa using not_mem_targetsText (by decide) (by decide) table i.targets
  · simpa using not_mem_targetsText (by decide) (by decide) table i.targets

/-- The text of an increment is plain. -/
theorem isPlain_shapeText_increment (n : UInt16) (k : Int16) :
    IsPlain (shapeText table (.increment n k)).toList := by
  have htext : shapeText table (.increment n k) =
      "IINC" ++ " " ++ (toString n.toNat ++ " " ++ toString k.toInt) := by
    show "IINC " ++ toString n.toNat ++ " " ++ toString k.toInt = _
    rw [show "IINC " = "IINC" ++ " " from rfl]
    simp only [String.append_assoc]
  rw [htext]
  refine .operand (by decide) (by decide) ?_ ?_ (.inl (by decide))
  · rw [toList_operandText, List.mem_append, List.mem_cons, not_or, not_or]
    exact ⟨not_mem_toString_nat (by decide), by decide,
      not_mem_toString_int (by decide) (by decide)⟩
  · rw [toList_operandText, List.mem_append, List.mem_cons, not_or, not_or]
    exact ⟨not_mem_toString_nat (by decide), by decide,
      not_mem_toString_int (by decide) (by decide)⟩

/-- The text of a readable dynamic call is plain. -/
theorem isPlain_shapeText_invokeDynamic {call : DynamicCall}
    (h : isReadable (.invokeDynamic call : Instruction Label) = true) :
    IsPlain (shapeText table (.invokeDynamic call)).toList := by
  obtain ⟨hname, hdescriptor⟩ := Bool.and_eq_true_iff.1 h
  obtain ⟨hpoint, -, hline⟩ := of_isLegible hname
  obtain ⟨hpoint', -, hline'⟩ := of_isLegible hdescriptor
  have htext : shapeText table (.invokeDynamic call) = "INVOKEDYNAMIC" ++ " " ++
      (call.name ++ call.descriptor ++ " #" ++ toString call.bootstrap.toNat) := by
    show "INVOKEDYNAMIC " ++ call.name ++ call.descriptor ++ " #" ++
      toString call.bootstrap.toNat = _
    rw [show "INVOKEDYNAMIC " = "INVOKEDYNAMIC" ++ " " from rfl]
    simp only [String.append_assoc]
  rw [htext]
  refine .operand (by decide) (by decide) ?_ ?_ (.inl (by decide))
  · simp only [String.toList_append, List.mem_append, not_or]
    exact ⟨⟨⟨hpoint, hpoint'⟩, by decide⟩, not_mem_toString_nat (by decide)⟩
  · simp only [String.toList_append, List.mem_append, not_or]
    exact ⟨⟨⟨hline, hline'⟩, by decide⟩, not_mem_toString_nat (by decide)⟩

/-- The text of a readable allocation of nested arrays is plain. -/
theorem isPlain_shapeText_newArrays {name : String} {dims : UInt8}
    (h : isReadable (.newArrays name dims : Instruction Label) = true) :
    IsPlain (shapeText table (.newArrays name dims)).toList := by
  obtain ⟨hpoint, -, hline⟩ := of_isLegible h
  have htext : shapeText table (.newArrays name dims) =
      "MULTIANEWARRAY" ++ " " ++ (name ++ " " ++ toString dims.toNat) := by
    show "MULTIANEWARRAY " ++ name ++ " " ++ toString dims.toNat = _
    rw [show "MULTIANEWARRAY " = "MULTIANEWARRAY" ++ " " from rfl]
    simp only [String.append_assoc]
  rw [htext]
  refine .operand (by decide) (by decide) ?_ ?_ (.inl (by decide))
  · rw [toList_operandText, List.mem_append, List.mem_cons, not_or, not_or]
    exact ⟨hpoint, by decide, not_mem_toString_nat (by decide)⟩
  · rw [toList_operandText, List.mem_append, List.mem_cons, not_or, not_or]
    exact ⟨hline, by decide, not_mem_toString_nat (by decide)⟩

/-- An instruction that neither refers to a member nor pushes a constant has a plain text. -/
theorem isPlain_lineText (haccessed : accessed? i = none) (hpush : ∀ c, i ≠ .push c)
    (h : isReadable i = true) : IsPlain (lineText table i).toList := by
  have hnat : ∀ (c : Char) (n : Nat), c.isDigit = false → c ∉ (toString n).toList :=
    fun _ _ hc => not_mem_toString_nat hc
  have hint : ∀ (c : Char) (n : Int), c.isDigit = false → c ≠ '-' → c ∉ (toString n).toList :=
    fun _ _ hc hsign => not_mem_toString_int hc hsign
  rw [lineText]
  split
  · exact .word (by decide) (by decide)
  -- What is shown are numbers, mnemonics, targets and names, and these have been checked to be
  -- readable.
  · cases i with
    | label =>
      have hword : ' ' ∉ "LABEL".toList ∧ '\n' ∉ "LABEL".toList := by decide
      exact .word hword.1 hword.2
    | line n =>
      have hword : ' ' ∉ "LINE".toList ∧ '\n' ∉ "LINE".toList := by decide
      exact .operand hword.1 hword.2 (hnat _ _ (by decide)) (hnat _ _ (by decide))
        (.inl (by decide))
    | plain op => exact .word (not_mem_mnemonic op).1 (not_mem_mnemonic op).2
    | immediate op n =>
      exact .operand (not_mem_mnemonic op).1 (not_mem_mnemonic op).2
        (hint _ _ (by decide) (by decide)) (hint _ _ (by decide) (by decide))
        (.inr (hint _ _ (by decide) (by decide)))
    | slot op n =>
      exact .operand (not_mem_mnemonic op).1 (not_mem_mnemonic op).2
        (hnat _ _ (by decide)) (hnat _ _ (by decide)) (.inr (hnat _ _ (by decide)))
    | increment n k => exact isPlain_shapeText_increment n k
    | jump op target => exact isPlain_shapeText_of_targets (List.cons_ne_nil _ _)
    | push c => exact absurd rfl (hpush c)
    | ofClass op name =>
      obtain ⟨hpoint, hblank, hline⟩ := of_isLegible h
      exact .operand (not_mem_mnemonic op).1 (not_mem_mnemonic op).2 hpoint hline (.inr hblank)
    | field => cases haccessed
    | invoke => cases haccessed
    | invokeDynamic call => exact isPlain_shapeText_invokeDynamic h
    | tableSwitch => exact isPlain_shapeText_of_targets (by simp [Instruction.targets])
    | lookupSwitch => exact isPlain_shapeText_of_targets (by simp [Instruction.targets])
    | newArrays name dims => exact isPlain_shapeText_newArrays h

end

/-! ### Texts of constants -/

/-- The word that the text of a constant begins with. -/
def kindWord : Constant → String
  | .int _ => "Int"
  | .float _ => "Float"
  | .long _ => "Long"
  | .double _ => "Double"
  | .string _ => "String"
  | .ofClass _ => "Class"
  | .methodType _ => "MethodType"
  | .methodHandle _ _ _ => "MethodHandle"
  | .dynamic _ _ _ => "Dynamic"

/-- Whether the parts of a constant are named in its text. -/
def isRecord : Constant → Bool
  | .methodHandle _ _ _ | .dynamic _ _ _ => true
  | _ => false

/-- The word for the kind of a handle has neither dots nor blanks nor line breaks. -/
theorem not_mem_kindWord (c : Constant) : '.' ∉ (kindWord c).toList ∧ ' ' ∉ (kindWord c).toList ∧
    '\n' ∉ (kindWord c).toList := by
  have hall : ∀ word ∈ ["Int", "Float", "Long", "Double", "String", "Class", "MethodType",
      "MethodHandle", "Dynamic"], '.' ∉ word.toList ∧ ' ' ∉ word.toList ∧ '\n' ∉ word.toList := by
    decide
  cases c <;> exact hall _ (by simp [kindWord])

/-- A value is shown behind its kind in brackets. -/
theorem exists_toList_valueText {value : String} (word : String) (hvalue : '\n' ∉ value.toList) :
    ∃ rest, (word ++ "(" ++ value ++ ")").toList = word.toList ++ '(' :: rest ∧ '\n' ∉ rest := by
  refine ⟨value.toList ++ [')'], ?_, by simpa using hvalue⟩
  rw [String.toList_append, String.toList_append, String.toList_append]
  simp

/-- The parts of a record are shown behind its kind and a blank. -/
theorem exists_toList_recordText (word : String) (fields : List (String × String))
    (hfields : ∀ x ∈ fields, '\n' ∉ x.1.toList ∧ '\n' ∉ x.2.toList) :
    ∃ rest, (Constant.recordText word fields).toList = word.toList ++ ' ' :: rest ∧
      '\n' ∉ rest := by
  refine ⟨'\x7b' :: ' ' :: (", ".toList.intercalate
    ((fields.map fun x => x.1 ++ ": " ++ x.2).map String.toList) ++ [' ', '\x7d']), ?_, ?_⟩
  · simp [Constant.recordText, String.toList_intercalate]
  · have hparts : '\n' ∉ ", ".toList.intercalate
        ((fields.map fun x => x.1 ++ ": " ++ x.2).map String.toList) := by
      refine not_mem_intercalate (by decide) fun part hpart => ?_
      rw [List.map_map] at hpart
      obtain ⟨x, hx, rfl⟩ := List.mem_map.1 hpart
      simpa using hfields x hx
    simpa using hparts

/-- The word is over at a bracket or, in a record, at a blank. -/
theorem exists_toList_text (c : Constant) : ∃ rest, c.text.toList =
    (kindWord c).toList ++ (if isRecord c then ' ' else '(') :: rest ∧
      ('\n' ∉ rest) := by
  have hnat : ∀ n : Nat, '\n' ∉ (toString n).toList := fun n => not_mem_toString_nat (by decide)
  have hint : ∀ n : Int, '\n' ∉ (toString n).toList := fun n =>
    not_mem_toString_int (by decide) (by decide)
  -- A constant of one value is shown in brackets, one of several as a record.
  cases c with
  | int v => exact exists_toList_valueText "Int" (hint _)
  | float bits => exact exists_toList_valueText "Float" (newline_not_mem_format _ _)
  | long v => exact exists_toList_valueText "Long" (hint _)
  | double bits => exact exists_toList_valueText "Double" (newline_not_mem_format _ _)
  | string s => exact exists_toList_valueText "String" (newline_not_mem_quoted _)
  | ofClass s => exact exists_toList_valueText "Class" (newline_not_mem_quoted _)
  | methodType s => exact exists_toList_valueText "MethodType" (newline_not_mem_quoted _)
  | methodHandle kind m viaInterface =>
    have hmember : '\n' ∉ (Constant.memberText m).toList := by
      obtain ⟨rest, htext, hrest⟩ := exists_toList_recordText "MemberRef"
        [("owner", Text.quoted m.owner), ("name", Text.quoted m.name),
          ("descriptor", Text.quoted m.descriptor)] (by simp [newline_not_mem_quoted])
      rw [Constant.memberText, htext]
      simpa using hrest
    have hflag : '\n' ∉ (Constant.flagText viaInterface).toList := by
      cases viaInterface <;> decide
    exact exists_toList_recordText "MethodHandle" _
      (by simpa [hmember, hflag] using hnat kind.toNat)
  | dynamic bootstrap name descriptor =>
    exact exists_toList_recordText "Dynamic" _
      (by simpa [newline_not_mem_quoted] using hnat bootstrap.toNat)

/-- The text of a handle tells the parts of it. -/
theorem handleText_inj {kind kind' : UInt8} {m m' : Member} {viaInterface viaInterface' : Bool}
    (h : (Constant.methodHandle kind m viaInterface).text =
      (Constant.methodHandle kind' m' viaInterface').text) :
    kind.toNat.repr = kind'.toNat.repr ∧ m = m' ∧
      Constant.flagText viaInterface = Constant.flagText viaInterface' := by
  -- The flag and the three names stand between fixed texts, and a quoted text is over at its second
  -- quote.
  have htext : ∀ (kind : UInt8) (m : Member) (viaInterface : Bool),
      (Constant.methodHandle kind m viaInterface).text.toList = "MethodHandle \x7b kind: ".toList ++
        (kind.toNat.repr.toList ++ ',' :: (" member: MemberRef \x7b owner: ".toList ++
          ((Text.quoted m.owner).toList ++ (", name: ".toList ++ ((Text.quoted m.name).toList ++
            (", descriptor: ".toList ++ ((Text.quoted m.descriptor).toList ++
              (" \x7d, interface: ".toList ++ ((Constant.flagText viaInterface).toList ++
                " \x7d".toList)))))))))  := by
    intro kind m viaInterface
    simp [Constant.text, Constant.recordText, Constant.memberText]
  have hcomma : ∀ n : Nat, ',' ∉ n.repr.toList := fun n => not_mem_toString_nat (by decide)
  have h := congrArg String.toList h
  rw [htext, htext, List.append_cancel_left_eq, append_cons_inj (hcomma _) (hcomma _),
    List.append_cancel_left_eq] at h
  obtain ⟨hkind, -, h⟩ := h
  obtain ⟨howner, h⟩ := quoted_append_inj h
  rw [List.append_cancel_left_eq] at h
  obtain ⟨hname, h⟩ := quoted_append_inj h
  rw [List.append_cancel_left_eq] at h
  obtain ⟨hdescriptor, h⟩ := quoted_append_inj h
  rw [List.append_cancel_left_eq, List.append_cancel_right_eq] at h
  refine ⟨String.toList_injective hkind, ?_, String.toList_injective h⟩
  obtain ⟨owner, name, descriptor⟩ := m
  obtain ⟨owner', name', descriptor'⟩ := m'
  cases howner
  cases hname
  cases hdescriptor
  rfl

/-! ### Lines under new references -/

section

variable {table table' : Array (Option Nat)} {i j : Instruction Label} {op : Opcode}
  {m m' : Member} {c : Constant}

/-- A member that a readable instruction accesses is clear. -/
theorem isClear_of_accessed? (haccessed : accessed? i = some (op, m)) (h : isReadable i = true) :
    isClear m = true := by
  cases i <;> cases haccessed <;> exact h

/-- The characters of the line of an access. -/
theorem toList_memberText (op : Opcode) (m : Member) :
    (op.mnemonic ++ " " ++ m.text).toList =
      op.mnemonic.toList ++ ' ' :: (m.owner.toList ++ '.' :: (m.name.toList ++ ' ' ::
        m.descriptor.toList)) := by
  simp [Member.text]

variable (table) in
/-- The line of a readable access refers to a member. -/
theorem refersTo_of_accessed? (haccessed : accessed? i = some (op, m)) (h : isReadable i = true) :
    RefersTo (lineText table i).toList := by
  obtain ⟨howner, -⟩ := of_isClear (isClear_of_accessed? haccessed h)
  obtain ⟨hpoint, hblank, -, hparenthesis⟩ := of_isLegibleClass howner
  rw [lineText_of_accessed? haccessed, toList_memberText]
  exact ⟨_, _, _, (not_mem_mnemonic op).1, hblank, hpoint, hparenthesis, rfl⟩

/-- The text of a member tells the member if the class has no point in its name, and the member no
blank. -/
theorem text_inj_of_not_mem (howner : '.' ∉ m.owner.toList) (howner' : '.' ∉ m'.owner.toList)
    (hname : ' ' ∉ m.name.toList) (hname' : ' ' ∉ m'.name.toList) (h : m.text = m'.text) :
    m = m' := by
  have htext : ∀ m : Member, m.text.toList =
      m.owner.toList ++ '.' :: (m.name.toList ++ ' ' :: m.descriptor.toList) := by
    intro m
    simp [Member.text]
  rw [← String.toList_inj, htext, htext, append_cons_inj howner' howner,
    append_cons_inj hname' hname] at h
  obtain ⟨howner, -, hname, -, hdescriptor⟩ := h
  obtain ⟨owner, name, descriptor⟩ := m
  obtain ⟨owner', name', descriptor'⟩ := m'
  cases String.toList_injective howner
  cases String.toList_injective hname
  cases String.toList_injective hdescriptor
  rfl

/-- The text of a reference tells the member. -/
theorem memberText_inj {op op' : Opcode} (hm : isClear m = true) (hm' : isClear m' = true)
    (h : op.mnemonic ++ " " ++ m.text = op'.mnemonic ++ " " ++ m'.text) :
    op.mnemonic = op'.mnemonic ∧ m = m' := by
  obtain ⟨howner, hname, -⟩ := of_isClear hm
  obtain ⟨howner', hname', -⟩ := of_isClear hm'
  rw [← String.toList_inj, toList_operandText, toList_operandText,
    append_cons_inj (not_mem_mnemonic op').1 (not_mem_mnemonic op).1] at h
  obtain ⟨hop, -, htext⟩ := h
  exact ⟨String.toList_injective hop, text_inj_of_not_mem (of_isLegibleClass howner).1
    (of_isLegibleClass howner').1 (of_isLegible hname).2.1 (of_isLegible hname').2.1
    (String.toList_injective htext)⟩

/-- The line of a constant without a shorter push is `LDC` and the constant. -/
theorem lineText_push (hint : ∀ n, c ≠ .int n) : lineText table (.push c) = "LDC " ++ c.text := by
  cases c with
  | int n => exact absurd rfl (hint n)
  | _ => rfl

/-- The line of a number that is pushed refers to no member. -/
theorem isPlain_lineText_int (n : Int32) : IsPlain (lineText table (.push (.int n))).toList := by
  have hword : ' ' ∉ "(int)".toList ∧ '\n' ∉ "(int)".toList := by decide
  exact .word hword.1 hword.2

variable (table) in
/-- The push of a constant shows the kind of this and then a bracket or a blank. -/
theorem toList_lineText_push (hint : ∀ n, c ≠ .int n) : ∃ mark rest, '\n' ∉ mark :: rest ∧
    (mark = '(' ∨ mark = ' ' ∧ isRecord c = true) ∧ (lineText table (.push c)).toList =
      "LDC".toList ++ ' ' :: ((kindWord c).toList ++ mark :: rest) := by
  obtain ⟨rest, htext, hline⟩ := exists_toList_text c
  refine ⟨if isRecord c then ' ' else '(', rest, ?_, ?_, ?_⟩
  · rw [List.mem_cons, not_or]
    refine ⟨?_, hline⟩
    split <;> decide
  · split
    · next hrecord => exact .inr ⟨rfl, hrecord⟩
    · exact .inl rfl
  · rw [lineText_push hint, String.toList_append, htext]
    rfl

/-- The push of a constant does not refer to a member. -/
theorem not_refersTo_push : ¬RefersTo (lineText table (.push c)).toList := by
  by_cases hint : ∀ n, c ≠ .int n
  · obtain ⟨mark, rest, -, hmark, htext⟩ := toList_lineText_push table hint
    rintro ⟨head, owner, rest', hhead, hblank, hpoint, hparenthesis, heq⟩
    have hmark : mark ∉ owner ∧ mark ≠ '.' := by
      rcases hmark with rfl | ⟨rfl, -⟩
      · exact ⟨hparenthesis, by decide⟩
      · exact ⟨hblank, by decide⟩
    rw [htext, append_cons_inj hhead (by decide),
      append_cons_inj hmark.1 (not_mem_kindWord c).1] at heq
    exact hmark.2 heq.2.2.2.1
  · obtain ⟨n, rfl⟩ := not_forall_not.1 hint
    exact (isPlain_lineText_int n).not_refersTo

/-- What does not refer to a member has not the text of a reference. -/
theorem not_refersTo_of_accessed? (haccessed : accessed? i = none) (h : isReadable i = true) :
    ¬RefersTo (lineText table i).toList := by
  by_cases hpush : ∀ c, i ≠ .push c
  · exact (isPlain_lineText haccessed hpush h).not_refersTo
  · obtain ⟨c, rfl⟩ := not_forall_not.1 hpush
    exact not_refersTo_push

/-- What pushes no handle has not the text of a push of one. -/
theorem ne_handle_of_handle? (haccessed : accessed? i = none) (hhandle : handle? i = none)
    (h : isReadable i = true) (kind : UInt8) (m : Member) (viaInterface : Bool) :
    lineText table i ≠ "LDC " ++ (Constant.methodHandle kind m viaInterface).text := by
  obtain ⟨rest, htext, -⟩ := exists_toList_text (.methodHandle kind m viaInterface)
  have htext : (Constant.methodHandle kind m viaInterface).text.toList =
      "MethodHandle".toList ++ ' ' :: rest := htext
  have hhandleText : ("LDC " ++ (Constant.methodHandle kind m viaInterface).text).toList =
      "LDC".toList ++ ' ' :: ("MethodHandle".toList ++ ' ' :: rest) := by
    rw [String.toList_append, htext]
    rfl
  intro heq
  have heq := congrArg String.toList heq
  rw [hhandleText] at heq
  -- Only a push starts with its word, and of the pushes only those of handles with theirs.
  by_cases hpush : ∀ c, i ≠ .push c
  · exact (isPlain_lineText haccessed hpush h).ne_handle rest heq
  · obtain ⟨c, rfl⟩ := not_forall_not.1 hpush
    by_cases hint : ∀ n, c ≠ .int n
    · obtain ⟨mark, rest', -, hmark, htext'⟩ := toList_lineText_push table hint
      have hmark : mark ∉ "MethodHandle".toList := by
        rcases hmark with rfl | ⟨rfl, -⟩ <;> decide
      rw [htext', append_cons_inj (by decide) (by decide),
        append_cons_inj hmark (not_mem_kindWord c).2.1] at heq
      cases c with
      | methodHandle => cases hhandle
      | _ => exact absurd heq.2.2.1 (by simp [kindWord])
    · obtain ⟨n, rfl⟩ := not_forall_not.1 hint
      exact (isPlain_lineText_int n).ne_handle rest heq

/-- What equal lines tell of two instructions: they access one member, push handles of one member, or
refer to no member. -/
inductive Matches (i j : Instruction Label) : Prop
  /-- They access a member by opcodes of one mnemonic. -/
  | access {op op' : Opcode} {m : Member} (left : accessed? i = some (op, m))
    (right : accessed? j = some (op', m)) (hop : op.mnemonic = op'.mnemonic) : Matches i j
  /-- They push handles of one text. -/
  | handle {kind kind' : UInt8} {m : Member} {viaInterface viaInterface' : Bool}
    (left : handle? i = some (kind, m, viaInterface))
    (right : handle? j = some (kind', m, viaInterface')) (hkind : kind.toNat.repr = kind'.toNat.repr)
    (hflag : Constant.flagText viaInterface = Constant.flagText viaInterface') : Matches i j
  /-- They refer to no member. -/
  | other (left : referred? i = none) (right : referred? j = none) : Matches i j

/-- Instructions with equal lines match. -/
theorem matches_of_lineText_eq (hi : isReadable i = true) (hj : isReadable j = true)
    (h : lineText table i = lineText table' j) : Matches i j := by
  -- Both refer to a member or neither does, and if not, both push a handle or neither does.
  cases haccessed : accessed? i with
  | some x =>
    have hrefers := refersTo_of_accessed? table haccessed hi
    rw [h] at hrefers
    cases haccessed' : accessed? j with
    | none => exact absurd hrefers (not_refersTo_of_accessed? haccessed' hj)
    | some y =>
      rw [lineText_of_accessed? haccessed, lineText_of_accessed? haccessed'] at h
      obtain ⟨hop, hmember⟩ := memberText_inj (isClear_of_accessed? haccessed hi)
        (isClear_of_accessed? haccessed' hj) h
      exact .access haccessed (hmember ▸ haccessed') hop
  | none =>
    have haccessed' : accessed? j = none := by
      cases haccessed' : accessed? j with
      | none => rfl
      | some y =>
        have hrefers := refersTo_of_accessed? table' haccessed' hj
        rw [← h] at hrefers
        exact absurd hrefers (not_refersTo_of_accessed? haccessed hi)
    cases hhandle : handle? i with
    | some x =>
      cases hhandle' : handle? j with
      | none =>
        rw [lineText_of_handle? hhandle] at h
        exact absurd h.symm (ne_handle_of_handle? haccessed' hhandle' hj _ _ _)
      | some y =>
        rw [lineText_of_handle? hhandle, lineText_of_handle? hhandle'] at h
        obtain ⟨hkind, hmember, hflag⟩ := handleText_inj (String.append_right_inj _ |>.1 h)
        exact .handle hhandle (hmember ▸ hhandle') hkind hflag
    | none =>
      have hhandle' : handle? j = none := by
        cases hhandle' : handle? j with
        | none => rfl
        | some y =>
          rw [lineText_of_handle? hhandle'] at h
          exact absurd h (ne_handle_of_handle? haccessed hhandle hi _ _ _)
      exact .other (by rw [referred?, haccessed, hhandle]; rfl)
        (by rw [referred?, haccessed', hhandle']; rfl)

/-- Instructions with equal lines refer to one member or to none. -/
theorem referred?_eq_of_lineText_eq (hi : isReadable i = true) (hj : isReadable j = true)
    (h : lineText table i = lineText table' j) : referred? i = referred? j := by
  cases matches_of_lineText_eq hi hj h with
  | access left right => rw [referred?_of_accessed? left, referred?_of_accessed? right]
  | handle left right => rw [referred?_of_handle? left, referred?_of_handle? right]
  | other left right => rw [left, right]

variable {r : Renaming}

/-- Equal lines stay equal under new references of members. -/
theorem lineText_onInstruction (hclasses : r.classes = ∅) (hi : isReadable i = true)
    (hj : isReadable j = true) (h : lineText table i = lineText table' j) :
    lineText table (r.onInstruction i) = lineText table' (r.onInstruction j) := by
  cases matches_of_lineText_eq hi hj h with
  | access left right hop =>
    rw [lineText_of_accessed? (accessed?_onInstruction left),
      lineText_of_accessed? (accessed?_onInstruction right), hop]
  | @handle kind kind' _ _ _ left right hkind hflag =>
    have hkind : toString kind.toNat = toString kind'.toNat := hkind
    rw [lineText_of_handle? (handle?_onInstruction left),
      lineText_of_handle? (handle?_onInstruction right), Constant.text, Constant.text, hkind, hflag]
  | other left right =>
    rwa [onInstruction_eq_self hclasses fun m hm => absurd (left.symm.trans hm) (by simp),
      onInstruction_eq_self hclasses fun m hm => absurd (right.symm.trans hm) (by simp)]

/-- Equal lists of lines stay equal under new references of members. -/
theorem map_lineText_onInstruction (hclasses : r.classes = ∅) {is js : List (Instruction Label)}
    (his : ∀ i ∈ is, isReadable i = true) (hjs : ∀ j ∈ js, isReadable j = true)
    (h : is.map (lineText table) = js.map (lineText table')) :
    (is.map fun i => lineText table (r.onInstruction i)) =
      js.map fun j => lineText table' (r.onInstruction j) := by
  induction is generalizing js with
  | nil => rw [List.map_eq_nil_iff.1 h.symm, List.map_nil, List.map_nil]
  | cons i is ih =>
    cases js with
    | nil => exact absurd h (List.cons_ne_nil _ _)
    | cons j js =>
      obtain ⟨hi, his⟩ := List.forall_mem_cons.1 his
      obtain ⟨hj, hjs⟩ := List.forall_mem_cons.1 hjs
      rw [List.map_cons, List.map_cons, List.cons_eq_cons] at h
      rw [List.map_cons, List.map_cons, lineText_onInstruction hclasses hi hj h.1,
        ih his hjs h.2]

/-- A line is one line. -/
theorem newline_not_mem_lineText (h : isReadable i = true) : '\n' ∉ (lineText table i).toList := by
  cases haccessed : accessed? i with
  | some x =>
    obtain ⟨howner, hname, hdescriptor⟩ := of_isClear (isClear_of_accessed? haccessed h)
    rw [lineText_of_accessed? haccessed, toList_memberText]
    simp [(not_mem_mnemonic x.1).2, (of_isLegibleClass howner).2.2.1, (of_isLegible hname).2.2,
      (of_isLegible hdescriptor).2.2]
  | none =>
    by_cases hpush : ∀ c, i ≠ .push c
    · exact (isPlain_lineText haccessed hpush h).newline_not_mem
    · obtain ⟨c, rfl⟩ := not_forall_not.1 hpush
      by_cases hint : ∀ n, c ≠ .int n
      · obtain ⟨mark, rest, hline, -, htext⟩ := toList_lineText_push table hint
        rw [htext, List.mem_append, List.mem_cons, List.mem_append, not_or, not_or, not_or]
        exact ⟨by decide, by decide, (not_mem_kindWord c).2.2, hline⟩
      · obtain ⟨n, rfl⟩ := not_forall_not.1 hint
        exact (isPlain_lineText_int n).newline_not_mem

end

/-! ### Fingerprints under new references -/

/-- A body with a descriptor that have legible names in them, and a listing that links each
instruction once. -/
structure Plain (descriptor : String) (b : Body) : Prop where
  /-- The descriptor is legible. -/
  descriptor : isLegible descriptor = true
  /-- The names in the instructions are legible. -/
  instructions : ∀ i ∈ b.listing.instructions, isReadable i = true
  /-- The listing links each instruction once. -/
  handles : b.listing.handles.Nodup

variable {r : Renaming} {b b' : Body} {d d' : String}

/-- A renaming keeps the places of instructions. -/
theorem positions_onListing (l : Listing) : (r.onListing l).positions = l.positions := by
  have hcapacity : ∀ (hs : List Handle) (l : Listing),
      (hs.foldl (fun l h => l.modify h r.onInstruction) l).capacity = l.capacity := by
    intro hs
    induction hs with
    | nil => exact fun _ => rfl
    | cons h hs ih =>
      intro l
      rw [List.foldl_cons, ih]
      exact Array.size_modify
  have hhandles : (r.onListing l).handles = l.handles := Listing.handles_foldl_modify ..
  rw [Listing.positions, hhandles, Renaming.onListing, hcapacity, Listing.positions]

/-- The lines of a renamed listing are those of its instructions renamed. -/
theorem lines_onListing {l : Listing} (hnodup : l.handles.Nodup) : lines (r.onListing l) =
    (l.instructions.filter fun i => !isLine i).map fun i =>
      lineText l.positions (r.onInstruction i) := by
  have hline : (fun i : Instruction Label => !isLine i) ∘ r.onInstruction = fun i => !isLine i := by
    funext i
    cases i <;> rfl
  rw [lines, positions_onListing, r.instructions_onListing hnodup, List.filter_map, hline,
    List.map_map]
  rfl

/-- The lines of a listing stay if its instructions keep their references. -/
theorem lines_onListing_eq_self {l : Listing} (hnodup : l.handles.Nodup)
    (h : ∀ i ∈ l.instructions, r.onInstruction i = i) : lines (r.onListing l) = lines l := by
  rw [lines_onListing hnodup, lines]
  exact List.map_congr_left fun i hi => by rw [h i (List.mem_of_mem_filter hi)]

/-- If the lines of a listing become those of another one, in which all members have their final
references, no instruction has changed. -/
theorem onInstruction_eq_self_of_lines {l l' : Listing} (hclasses : r.classes = ∅)
    (hnodup : l'.handles.Nodup) (hl : ∀ i ∈ l.instructions, isReadable i = true)
    (hl' : ∀ j ∈ l'.instructions, isReadable (r.onInstruction j) = true)
    (hlines : lines (r.onListing l') = lines l)
    (hfinal : ∀ i ∈ l.instructions, ∀ m, referred? i = some (r.onMember m) → r.onMember m = m) :
    ∀ j ∈ l'.instructions, r.onInstruction j = j := by
  intro j hj
  refine onInstruction_eq_self hclasses fun m hm => ?_
  have hline : isLine j = false := by
    cases j with
    | line => cases hm
    | _ => rfl
  -- The line of the instruction is one of the other listing, where an instruction refers to the same.
  have hmem : lineText l'.positions (r.onInstruction j) ∈ lines l := by
    rw [← hlines, lines_onListing hnodup]
    exact List.mem_map_of_mem (f := fun i => lineText l'.positions (r.onInstruction i))
      (List.mem_filter.2 ⟨hj, by rw [hline]; rfl⟩)
  obtain ⟨i, hi, heq⟩ := List.mem_map.1 hmem
  have hi := List.mem_of_mem_filter hi
  refine hfinal i hi m ?_
  rw [referred?_eq_of_lineText_eq (hl i hi) (hl' j hj) heq, referred?_onInstruction, hm]
  rfl

/-- The fingerprint of a method stays if its instructions keep their references. -/
theorem fingerprint_onBody_eq_self {m m' : Method} (hdescriptor : m'.descriptor = m.descriptor)
    (hlines : lines (r.onListing b.listing) = lines b.listing) :
    fingerprint m' (r.onBody b) = fingerprint m b := by
  refine String.toList_injective ?_
  rw [toList_fingerprint, toList_fingerprint, hdescriptor]
  show _ ++ (lines (r.onListing b.listing)).flatMap _ = _
  rw [hlines]

namespace Plain

/-- The lines of a legible body are lines. -/
theorem newline_not_mem (h : Plain d b) : ∀ line ∈ lines b.listing, '\n' ∉ line.toList := by
  intro line hline
  obtain ⟨i, hi, rfl⟩ := List.mem_map.1 hline
  exact newline_not_mem_lineText (h.instructions i (List.mem_of_mem_filter hi))

/-- A legible body stays so under legible references. -/
theorem onBody (h : Plain d b) (hclasses : r.classes = ∅)
    (hclear : ∀ m, isClear m = true → isClear (r.onMember m) = true) : Plain d (r.onBody b) where
  descriptor := h.descriptor
  instructions i hi := by
    have hi : i ∈ (r.onListing b.listing).instructions := hi
    rw [r.instructions_onListing h.handles] at hi
    obtain ⟨j, hj, rfl⟩ := List.mem_map.1 hi
    have hreadable := h.instructions j hj
    cases haccessed : accessed? j with
    | some x => cases j <;> cases haccessed <;> exact hclear _ hreadable
    | none =>
      by_cases hpush : ∀ c, j ≠ .push c
      · have hhandle : handle? j = none := by
          cases j with
          | push c => exact absurd rfl (hpush c)
          | _ => rfl
        have hnone : referred? j = none := by
          rw [referred?, haccessed, hhandle]
          rfl
        rwa [onInstruction_eq_self hclasses fun m hm => absurd (hnone.symm.trans hm) (by simp)]
      · obtain ⟨c, rfl⟩ := not_forall_not.1 hpush
        rfl
  handles := by
    have hhandles : (r.onListing b.listing).handles = b.listing.handles :=
      Listing.handles_foldl_modify ..
    exact hhandles ▸ h.handles

/-- **Methods with equal fingerprints keep equal ones** when members get new references. -/
theorem fingerprint_onBody {m m' n n' : Method} (hclasses : r.classes = ∅)
    (h : Plain m.descriptor b) (h' : Plain m'.descriptor b') (hn : n.descriptor = m.descriptor)
    (hn' : n'.descriptor = m'.descriptor)
    (hmclear : ∀ m, isClear m = true → isClear (r.onMember m) = true)
    (heq : fingerprint m b = fingerprint m' b') :
    fingerprint n (r.onBody b) = fingerprint n' (r.onBody b') := by
  obtain ⟨hdescriptor, hlines⟩ := (fingerprint_eq_iff (of_isLegible h.descriptor).2.2
    (of_isLegible h'.descriptor).2.2 h.newline_not_mem h'.newline_not_mem).1 heq
  refine (fingerprint_eq_iff ?_ ?_ (h.onBody hclasses hmclear).newline_not_mem
    (h'.onBody hclasses hmclear).newline_not_mem).2 ⟨hn.trans (hdescriptor.trans hn'.symm), ?_⟩
  · exact hn ▸ (of_isLegible h.descriptor).2.2
  · exact hn' ▸ (of_isLegible h'.descriptor).2.2
  · show lines (r.onListing b.listing) = lines (r.onListing b'.listing)
    rw [lines_onListing h.handles, lines_onListing h'.handles]
    exact map_lineText_onInstruction hclasses
      (fun i hi => h.instructions i (List.mem_of_mem_filter hi))
      (fun i hi => h'.instructions i (List.mem_of_mem_filter hi)) hlines

end Plain

end Unscramble.Tidy
