import Mathlib.Data.List.Nodup
import Unscramble.Pattern.Basic
import Unscramble.Proofs.Pattern.Expression

/-! # How patterns are written

The words of a pattern are mnemonics, names of groups of opcodes and a word for any instruction. An
expression over them is written as a sequence of lexemes, between which blanks may stand and must
stand where two words meet. Expanding it gives the same expression over characters, in the syntax of
regular expressions.

Main definitions: `Atom`, `Lexeme`, `Expr.lexemes`, `Spells`.
Main statements: `Opcode.ofMnemonic?_eq_some`, `Spells.expand`. -/

namespace Unscramble

/-! ### Mnemonics -/

/-- Whether numbers are apart, with a bit set for each one that has come already. -/
def areApart (seen : Nat) : List Nat → Bool
  | [] => true
  | n :: ns => !seen.testBit n && areApart (seen ||| 1 <<< n) ns

/-- Numbers that are kept apart by bits are different from those before and from each other. -/
theorem nodup_of_areApart {seen : Nat} {ns : List Nat} (h : areApart seen ns = true) :
    (∀ n ∈ ns, seen.testBit n = false) ∧ ns.Nodup := by
  induction ns generalizing seen with
  | nil => exact ⟨fun n hn => absurd hn List.not_mem_nil, List.nodup_nil⟩
  | cons n ns ih =>
    rw [areApart, Bool.and_eq_true, Bool.not_eq_true'] at h
    obtain ⟨hfirst, hrest⟩ := h
    obtain ⟨hlater, nodup⟩ := ih hrest
    have hbits : ∀ m ∈ ns, seen.testBit m = false ∧ n ≠ m := by
      intro m hm
      have hbit := hlater m hm
      rw [Nat.one_shiftLeft, Nat.testBit_or, Bool.or_eq_false_iff, Nat.testBit_two_pow,
        decide_eq_false_iff_not] at hbit
      exact hbit
    refine ⟨fun m hm => ?_, List.nodup_cons.2 ⟨fun hm => (hbits n hm).2 rfl, nodup⟩⟩
    rcases List.mem_cons.1 hm with rfl | hm
    · exact hfirst
    · exact (hbits m hm).1

/-- What stands at one place only is found there. -/
theorem idxOf?_eq_some {α : Type} [BEq α] [LawfulBEq α] {xs : Array α} {a : α} {i : Nat}
    (hget : xs[i]? = some a) (honly : ∀ j, xs[j]? = some a → j = i) : xs.idxOf? a = some i := by
  obtain ⟨xs⟩ := xs
  obtain ⟨hlt, hget⟩ := Array.getElem?_eq_some_iff.1 hget
  rw [List.idxOf?_toArray, List.idxOf?_eq_some_iff]
  refine ⟨hlt, hget, fun j hj hsame => Nat.ne_of_lt hj (honly j ?_)⟩
  rw [List.getElem?_toArray, List.getElem?_eq_getElem (Nat.lt_trans hj hlt), hsame]

namespace Opcode

/-- The characters of a text as digits of a number. -/
def code (s : String) : Nat :=
  s.toByteArray.data.toList.foldl (fun n b => 256 * n + b.toNat) 0

/-- No two opcodes have the same mnemonic. Comparing texts is slow, so this is told from the
remainders of their codes, which are apart already and small enough for a set of bits. -/
theorem nodup_mnemonics : mnemonics.toList.Nodup := by
  have hapart : areApart 0 (mnemonics.toList.map fun name => code name % 3539) = true := by
    decide +kernel
  exact (nodup_of_areApart hapart).2.of_map _

/-- The mnemonic of an opcode stands at its number. -/
theorem getElem?_mnemonics {op : Opcode} (hop : op.byte.toNat < 202) :
    mnemonics[op.byte.toNat]? = some op.mnemonic := by
  have hsize : mnemonics.size = 202 := rfl
  rw [mnemonic, Array.getElem?_eq_getElem (hsize ▸ hop), Option.getD_some]

/-- An unassigned byte has a text of its own. -/
theorem mnemonic_mem (op : Opcode) : op.mnemonic ∈ "???" :: mnemonics.toList := by
  rw [mnemonic]
  cases hname : mnemonics[op.byte.toNat]? with
  | none => exact List.mem_cons_self
  | some name => exact List.mem_cons_of_mem _ (Array.mem_toList_iff.2 (Array.mem_of_getElem? hname))

/-- The place of a mnemonic is the byte of its opcode. -/
theorem eq_byte_of_getElem? {op : Opcode} (hop : op.byte.toNat < 202) {i : Nat}
    (h : mnemonics[i]? = some op.mnemonic) : i = op.byte.toNat := by
  rw [← Array.getElem?_toList] at h
  have hlt := (List.getElem?_eq_some_iff.1 h).1
  refine (List.getElem?_inj hlt nodup_mnemonics).1 ?_
  rw [h, Array.getElem?_toList, getElem?_mnemonics hop]

/-- A mnemonic tells its opcode. -/
theorem mnemonic_inj {op op' : Opcode} (hop : op.byte.toNat < 202) (hop' : op'.byte.toNat < 202)
    (h : op.mnemonic = op'.mnemonic) : op = op' := by
  have hbyte := UInt8.toNat_inj.1 (eq_byte_of_getElem? hop' (h ▸ getElem?_mnemonics hop))
  obtain ⟨byte⟩ := op
  obtain ⟨byte'⟩ := op'
  exact congrArg Opcode.mk hbyte

/-- So an opcode is found by its mnemonic. -/
theorem ofMnemonic?_eq_some {op : Opcode} {name : String}
    (h : op.byte.toNat < 202 ∧ op.mnemonic = name) : ofMnemonic? name = some op := by
  obtain ⟨hop, rfl⟩ := h
  rw [ofMnemonic?, idxOf?_eq_some (getElem?_mnemonics hop) fun _ => eq_byte_of_getElem? hop]
  exact congrArg (fun byte => some (Opcode.mk byte)) UInt8.ofNat_toNat

end Opcode

namespace Pattern

/-! ### Words -/

/-- A word of a pattern. -/
inductive Atom where
  /-- The word for any instruction. -/
  | any
  /-- The mnemonic of an opcode. -/
  | one (name : String) (op : Opcode) (known : Opcode.ofMnemonic? name = some op)
  /-- The name of a group of opcodes. -/
  | among (name : String) (ops : List Opcode) (known : Opcode.group? name = some ops)

namespace Atom

/-- The word as it is written. -/
def name : Atom → String
  | any => wildcard
  | one name _ _ | among name _ _ => name

/-- Whether the word stands for an opcode. -/
def accepts : Atom → Opcode → Bool
  | any, _ => true
  | one _ op _, op' => op' == op
  | among _ ops _, op' => ops.contains op'

/-- What the word stands for in the syntax of regular expressions. -/
def expansion : Atom → List Char
  | any => ['.']
  | one _ op _ => [symbol op]
  | among _ ops _ => '[' :: ops.map symbol ++ [']']

/-- Whether that matches a character: any one but the line feed, a given one, or one of several. -/
def reads : Atom → Char → Bool
  | any, c => c != '\n'
  | one _ op _, c => c == symbol op
  | among _ ops _, c => (ops.map symbol).contains c

end Atom

/-- Whether a text is a word, and none that stands for a set of opcodes. -/
def isMnemonic (cs : List Char) : Bool :=
  cs.all isTokenChar && !cs.isEmpty && !(["ANY".toList, "ICONST".toList, "LOAD".toList,
    "STORE".toList, "RETURN_VALUE".toList, "INVOKE".toList].contains cs)

/-- Mnemonics are what they are taken for. -/
theorem isMnemonic_of_mem : ∀ name ∈ Opcode.mnemonics.toList, isMnemonic name.toList = true := by
  have of_chars : ∀ cs : List Char, isMnemonic cs = true →
      isMnemonic (String.ofList cs).toList = true := by
    intro cs h
    rwa [String.toList_ofList]
  unfold Opcode.mnemonics
  repeat refine List.forall_mem_cons.2 ⟨of_chars _ (by decide), ?_⟩
  exact fun name hname => absurd hname List.not_mem_nil

/-- A mnemonic is made of the characters of words and is none of the words for sets of opcodes. -/
theorem of_ofMnemonic?_eq_some {name : String} {op : Opcode}
    (h : Opcode.ofMnemonic? name = some op) : isMnemonic name.toList = true := by
  obtain ⟨k, hk, -⟩ := Option.map_eq_some_iff.1 h
  have hmem : name ∈ Opcode.mnemonics := by
    by_contra hnot
    rw [Array.idxOf?_eq_none_iff.2 hnot] at hk
    cases hk
  exact isMnemonic_of_mem name (Array.mem_toList_iff.2 hmem)

/-- What is taken for no mnemonic is none. -/
theorem ofMnemonic?_eq_none {name : String} (h : isMnemonic name.toList = false) :
    Opcode.ofMnemonic? name = none := by
  cases hop : Opcode.ofMnemonic? name with
  | none => rfl
  | some op =>
    rw [of_ofMnemonic?_eq_some hop] at h
    cases h

/-- A name of a group is one of a few words, none of which is a mnemonic or the word for any
instruction. -/
theorem of_group?_eq_some {name : String} {ops : List Opcode}
    (h : Opcode.group? name = some ops) :
    name.toList.all isTokenChar = true ∧ name.toList ≠ [] ∧ isMnemonic name.toList = false ∧
      name ≠ wildcard ∧ ops ≠ [] := by
  have hgroups : ∀ group ∈ Opcode.groups, group.1.toList.all isTokenChar = true ∧
      group.1.toList ≠ [] ∧ isMnemonic group.1.toList = false ∧ group.1 ≠ wildcard ∧
      group.2 ≠ [] := by
    decide +kernel
  obtain ⟨front, back, heq, -⟩ := List.lookup_eq_some_iff.1 h
  refine hgroups (name, ops) ?_
  rw [heq]
  exact List.mem_append_right _ List.mem_cons_self

namespace Atom

/-- A word is made of the characters of words, and not empty. -/
theorem isToken_name (a : Atom) :
    (∀ c ∈ a.name.toList, isTokenChar c = true) ∧ a.name.toList ≠ [] := by
  cases a with
  | any => exact ⟨List.all_eq_true.1 (by decide +kernel), by decide +kernel⟩
  | one name op known =>
    have h := of_ofMnemonic?_eq_some known
    simp only [isMnemonic, Bool.and_eq_true, Bool.not_eq_true', List.isEmpty_eq_false_iff] at h
    exact ⟨List.all_eq_true.1 h.1.1, h.1.2⟩
  | among name ops known =>
    have h := of_group?_eq_some known
    exact ⟨List.all_eq_true.1 h.1, h.2.1⟩

/-- A word is recognised as what it stands for. -/
theorem expandToken?_name (a : Atom) : expandToken? a.name = some a.expansion := by
  unfold expandToken?
  cases a with
  | any => rfl
  | one name op known =>
    have hname : ¬ (name == wildcard) = true := by
      intro hany
      have h := of_ofMnemonic?_eq_some known
      rw [eq_of_beq hany] at h
      revert h
      decide +kernel
    simp only [Atom.name, if_neg hname, known]
    rfl
  | among name ops known =>
    have h := of_group?_eq_some known
    have hname : ¬ (name == wildcard) = true := fun hany => h.2.2.2.1 (eq_of_beq hany)
    simp only [Atom.name, if_neg hname, ofMnemonic?_eq_none h.2.2.1, known]
    rfl

end Atom

/-! ### Lexemes -/

/-- The sign of a repetition. -/
def Rounds.sign : Rounds → Char
  | .atMostOne => '?'
  | .any => '*'
  | .atLeastOne => '+'

/-- A lexical unit of a pattern. -/
inductive Lexeme where
  /-- A word. -/
  | word (atom : Atom)
  /-- An opening parenthesis. -/
  | opening
  /-- A closing parenthesis. -/
  | closing
  /-- A bar between sequences. -/
  | bar
  /-- The sign of a repetition. -/
  | rounds (rounds : Rounds)

namespace Lexeme

/-- The sign that a lexeme is, if it is no word. -/
def sign? : Lexeme → Option Char
  | word _ => none
  | opening => some '('
  | closing => some ')'
  | bar => some '|'
  | rounds r => some r.sign

/-- What a lexeme stands for in the syntax of regular expressions. -/
def expansion : Lexeme → List Char
  | word a => a.expansion
  | x => x.sign?.toList

end Lexeme

/-- The lexemes of an expression, in order. -/
def Expr.lexemes : {rank : Rank} → Expr Atom rank → List Lexeme
  | _, .atom a => [.word a]
  | _, .group body => .opening :: body.lexemes ++ [.closing]
  | _, .once body => body.lexemes
  | _, .repeated body rounds => body.lexemes ++ [.rounds rounds]
  | _, .empty => []
  | _, .next first rest => first.lexemes ++ rest.lexemes
  | _, .only last => last.lexemes
  | _, .or first rest => first.lexemes ++ .bar :: rest.lexemes

/-- The expression in the syntax of regular expressions. -/
def Expr.expansion {rank : Rank} (e : Expr Atom rank) : List Char :=
  e.lexemes.flatMap Lexeme.expansion

/-- Whether a text spells lexemes: they stand in it in order, with blanks anywhere between them, and
where a word ends no other one begins at once. -/
inductive Spells : List Char → List Lexeme → Prop
  /-- The end of the text. -/
  | nil : Spells [] []
  /-- A blank. -/
  | blank {c : Char} {cs : List Char} {lexemes : List Lexeme} (h : Text.isBlank c = true)
      (rest : Spells cs lexemes) : Spells (c :: cs) lexemes
  /-- A sign. -/
  | sign {x : Lexeme} {c : Char} {cs : List Char} {lexemes : List Lexeme} (h : x.sign? = some c)
      (rest : Spells cs lexemes) : Spells (c :: cs) (x :: lexemes)
  /-- A word. -/
  | word {a : Atom} {cs : List Char} {lexemes : List Lexeme}
      (apart : ∀ c ∈ cs.head?, isTokenChar c = false) (rest : Spells cs lexemes) :
      Spells (a.name.toList ++ cs) (.word a :: lexemes)

/-- No character of words is blank. -/
theorem isBlank_of_isTokenChar {c : Char} (h : isTokenChar c = true) : Text.isBlank c = false := by
  have hbounds : 48 ≤ c.toNat ∧ c.toNat ≤ 122 := by
    have hlow : c = '_' → c.toNat = 95 := by
      rintro rfl
      rfl
    change ((decide (65 ≤ c.val ∧ c.val ≤ 90) ||
      decide (97 ≤ c.val) && decide (c.val ≤ 122)) ||
      decide (48 ≤ c.val) && decide (c.val ≤ 57) || c == '_') = true at h
    simp only [Bool.or_eq_true, Bool.and_eq_true, decide_eq_true_eq, UInt32.le_iff_toNat_le,
      beq_iff_eq] at h
    change ((65 ≤ c.toNat ∧ c.toNat ≤ 90 ∨ 97 ≤ c.toNat ∧ c.toNat ≤ 122) ∨
      48 ≤ c.toNat ∧ c.toNat ≤ 57) ∨ c = '_' at h
    rcases h with h | h
    · omega
    · have := hlow h
      omega
  unfold Text.isBlank
  simp only [Bool.or_eq_false_iff, Bool.and_eq_false_iff, decide_eq_false_iff_not, beq_eq_false_iff_ne]
  omega

/-- A sign is neither blank nor a character of words. -/
theorem Lexeme.of_sign? {x : Lexeme} {c : Char} (h : x.sign? = some c) :
    Text.isBlank c = false ∧ isTokenChar c = false := by
  cases x with
  | word => cases h
  | opening | closing | bar =>
    cases h
    decide
  | rounds r => cases r <;> cases h <;> decide

/-- The expansion of a text by its first character. -/
theorem expand_cons (c : Char) (cs : List Char) :
    expand (c :: cs) =
      if Text.isBlank c then expand cs
      else if isTokenChar c then
        match expandToken? (String.ofList (c :: cs.takeWhile isTokenChar)) with
        | none => .error (String.ofList (c :: cs.takeWhile isTokenChar))
        | some front => (expand (cs.dropWhile isTokenChar)).map (front ++ ·)
      else (expand cs).map (c :: ·) := by
  exact expand.eq_def (c :: cs)

/-- What a text spells is what it expands to. -/
theorem Spells.expand {cs : List Char} {lexemes : List Lexeme} (h : Spells cs lexemes) :
    Pattern.expand cs = .ok (lexemes.flatMap Lexeme.expansion) := by
  -- On what the text spells; a word is taken whole, since no character of a word stands behind it.
  induction h with
  | nil =>
    rw [Pattern.expand.eq_def]
    rfl
  | blank hc _ ih => rw [expand_cons, if_pos hc, ih]
  | @sign x c cs lexemes hx _ ih =>
    have hsign := Lexeme.of_sign? hx
    have hexpansion : x.expansion = [c] := by
      cases x with
      | word => cases hx
      | opening | closing | bar | rounds => cases hx; rfl
    rw [expand_cons, hsign.1, hsign.2, ih, List.flatMap_cons, hexpansion]
    rfl
  | @word a cs lexemes apart _ ih =>
    obtain ⟨hchars, hne⟩ := a.isToken_name
    obtain ⟨c, name, hname⟩ := List.exists_cons_of_ne_nil hne
    rw [hname] at hchars ⊢
    have hc := hchars c List.mem_cons_self
    have hrest : ∀ c' ∈ name, isTokenChar c' = true :=
      fun c' hc' => hchars c' (List.mem_cons_of_mem _ hc')
    have htake : cs.takeWhile isTokenChar = [] := by
      cases cs with
      | nil => rfl
      | cons c' cs => rw [List.takeWhile_cons, apart c' rfl]; rfl
    have hdrop : cs.dropWhile isTokenChar = cs := by
      cases cs with
      | nil => rfl
      | cons c' cs => rw [List.dropWhile_cons, apart c' rfl]; rfl
    have hword : String.ofList (c :: name) = a.name := by
      rw [← hname, String.ofList_toList]
    rw [List.cons_append, expand_cons, isBlank_of_isTokenChar hc, hc,
      List.takeWhile_append_of_pos hrest, htake, List.append_nil, hword,
      List.dropWhile_append_of_pos hrest, hdrop, ih, List.flatMap_cons]
    simp only [a.expandToken?_name]
    rfl

end Pattern

end Unscramble
