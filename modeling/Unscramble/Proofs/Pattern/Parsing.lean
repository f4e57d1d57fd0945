import Unscramble.Pattern.Syntax
import Unscramble.Proofs.Pattern.Simplifying
import Unscramble.Proofs.Pattern.Spelling

/-! # Reading the expansion of a pattern

What a pattern expands to is read back as an expression over characters that has the structure of
the pattern: its words become characters or sets of characters, its parentheses become groups with
numbers, and how deep it is nested is counted on the way.

Main definitions: `Expr.depth`, `Expr.partsFrom`.
Main statements: `tokens?_expansion`, `Regex.parse?_expansion`. -/

namespace Unscramble.Pattern

/-! ### Symbols -/

/-- The symbol of an opcode is the private character of its number. -/
theorem toNat_symbol (op : Opcode) : (symbol op).toNat = 0xe000 + op.byte.toNat := by
  refine toNat_ofNat (.inr ⟨?_, ?_⟩)
  · omega
  · have := op.byte.toNat_lt
    omega

/-- No symbol is a character below those for private use. -/
theorem symbol_ne (op : Opcode) {c : Char} (h : c.toNat < 0xe000) : symbol op ≠ c := by
  rintro rfl
  rw [toNat_symbol] at h
  omega

/-- No text that a symbol begins is one that such a character begins. -/
theorem symbol_cons_ne (op : Opcode) {cs : List Char} {c : Char} (h : c.toNat < 0xe000) :
    ∀ cs', symbol op :: cs = c :: cs' → False :=
  fun _ heq => symbol_ne op h (List.cons.inj heq).1

/-- Each opcode has a symbol of its own. -/
theorem symbol_inj {op op' : Opcode} : symbol op = symbol op' ↔ op = op' := by
  refine ⟨fun h => ?_, fun h => h ▸ rfl⟩
  have hbyte := congrArg Char.toNat h
  rw [toNat_symbol, toNat_symbol] at hbyte
  have : op.byte = op'.byte := UInt8.toNat_inj.1 (by omega)
  cases op
  cases op'
  cases this
  rfl

/-! ### Words -/

/-- Parts are as deep in any order. -/
theorem depthOf_reverse (ds : List Nat) : depthOf ds.reverse = depthOf ds := by
  match ds with
  | [] => rfl
  | [_] => rfl
  | d :: d' :: ds =>
    have hmany : ∀ l : List Nat, 2 ≤ l.length → depthOf l = l.foldr max 0 + 1 := by
      intro l hl
      match l with
      | [] | [_] => simp at hl
      | _ :: _ :: _ => rfl
    rw [hmany _ (by simp), hmany _ (by simp), (List.reverse_perm _).foldr_eq]

namespace Atom

/-- The set of characters that stand for opcodes. -/
def symbols (ops : List Opcode) : CharSet :=
  (ops.map fun op => CharSet.single (symbol op)).foldl CharSet.union []

/-- What is read of a word's expansion. -/
def part : Atom → Part
  | any => ⟨.oneOf anyChar, 0⟩
  | one _ op _ => ⟨.literal [symbol op], 0⟩
  | among _ ops _ => ⟨.ofSet (symbols ops), depthOf (ops.map fun _ => 0) + 1⟩

end Atom

/-- A symbol is read as a character of a class, unless a dash makes a range of it. -/
theorem classRange?_symbol (op : Opcode) {c : Char} {cs : List Char} (h : c ≠ '-') :
    classRange? (symbol op :: c :: cs) = some (CharSet.single (symbol op), c :: cs) := by
  have hchar : classChar? (symbol op :: c :: cs) = some (symbol op, c :: cs) := by
    rw [classChar?]
    · exact fun _ _ heq _ => absurd heq (symbol_ne op (by decide))
    · exact fun heq => absurd heq (symbol_ne op (by decide))
  simp only [classRange?, hchar, Option.bind_eq_bind, Option.bind_some]
  split
  case h_1 heq => cases heq
  case h_2 heq | h_3 heq | h_4 heq => exact absurd (List.cons.inj heq).1 h
  case h_5 => rfl

/-- A class of symbols is read up to its closing bracket. -/
theorem classParts?_symbols (ops : List Opcode) (rest : List Char) :
    ∀ {fuel : Nat} (parts : List ClassPart), ops.length < fuel →
      classParts? fuel none parts (ops.map symbol ++ ']' :: rest) =
        some (.finish none ((ops.map fun op => ⟨CharSet.single (symbol op), 0⟩).reverse ++ parts),
          rest) := by
  -- On the symbols, for whatever parts have been read; no symbol is a sign of the syntax.
  induction ops with
  | nil =>
    intro fuel parts hfuel
    cases fuel with
    | zero => cases hfuel
    | succ fuel => rfl
  | cons op ops ih =>
    intro fuel parts hfuel
    cases fuel with
    | zero => cases hfuel
    | succ fuel =>
      have hrange : classRange? (symbol op :: (ops.map symbol ++ ']' :: rest)) =
          some (CharSet.single (symbol op), ops.map symbol ++ ']' :: rest) := by
        cases ops with
        | nil => exact classRange?_symbol op (by decide)
        | cons op' ops => exact classRange?_symbol op (symbol_ne op' (by decide))
      rw [List.map_cons, List.cons_append, classParts?, hrange]
      · show classParts? fuel none (⟨CharSet.single (symbol op), 0⟩ :: parts) _ = _
        rw [ih _ (Nat.lt_of_succ_lt_succ hfuel), List.map_cons, List.reverse_cons,
          List.append_assoc]
        rfl
      · exact nofun
      all_goals exact fun cs => symbol_cons_ne op (by decide) _

/-- What is read of a class of symbols. -/
theorem class?_symbols {ops : List Opcode} (hops : ops ≠ []) (rest : List Char) {fuel : Nat}
    (hfuel : ops.length < fuel) :
    class? (fuel + 1) (ops.map symbol ++ ']' :: rest) =
      some (⟨Atom.symbols ops, depthOf (ops.map fun _ => 0) + 1⟩, rest) := by
  obtain ⟨op, ops', rfl⟩ := List.exists_cons_of_ne_nil hops
  have hnegated : ((symbol op :: (ops'.map symbol ++ ']' :: rest)).head? == some '^') = false := by
    show (symbol op == '^') = false
    exact beq_false_of_ne (symbol_ne op (by decide))
  have hdashes : (symbol op :: (ops'.map symbol ++ ']' :: rest)).takeWhile (· == '-') = [] := by
    rw [List.takeWhile_cons, beq_false_of_ne (symbol_ne op (by decide))]
    rfl
  have hparts := classParts?_symbols (op :: ops') rest [] hfuel
  -- The parts come in reverse, and the set is built from them in order.
  have hset : ClassPart.finish none
      (((op :: ops').map fun op => ⟨CharSet.single (symbol op), 0⟩).reverse ++ []) =
        ⟨Atom.symbols (op :: ops'), depthOf ((op :: ops').map fun _ => 0)⟩ := by
    rw [List.append_nil, ← List.map_reverse, Atom.symbols, ← depthOf_reverse,
      ← List.map_reverse (l := op :: ops'), List.foldl_map, ← List.foldr_reverse]
    show ClassPart.mk (List.foldr _ [] (List.map _ _)) (depthOf (List.map _ (List.map _ _))) = _
    rw [List.foldr_map, List.map_map]
    rfl
  rw [hset, List.map_cons, List.cons_append] at hparts
  rw [List.map_cons, List.cons_append, class?]
  have hbracket : symbol op ≠ ']' := symbol_ne op (by decide)
  simp only [hnegated, hdashes, Bool.false_eq_true, if_false]
  simp [hbracket, hparts]

/-! ### Tokens -/

/-- What is read of a lexeme's expansion. -/
def Lexeme.token : Lexeme → Token
  | word a => .part a.part.regex a.part.depth
  | opening => .opening .numbered
  | closing => .closing
  | bar => .bar
  | rounds r => .repetition r true

/-- Whether the sign of a repetition may stand behind a lexeme. -/
def Lexeme.mayRepeat : Lexeme → Bool
  | word _ | closing => true
  | opening | bar | rounds _ => false

/-- A word is read as one token from its expansion. -/
theorem token?_word (a : Atom) (rest : List Char) :
    token? (a.expansion ++ rest) = some (.part a.part.regex a.part.depth, rest) := by
  cases a with
  | any => rfl
  | one name op known =>
    show token? (symbol op :: rest) = _
    rw [token?]
    · rfl
    all_goals
      intros
      refine symbol_ne op ?_ ‹symbol op = _›
      decide
  | among name ops known =>
    have hops := (of_group?_eq_some known).2.2.2.2
    have hlength : (ops.map symbol ++ ']' :: rest).length = ops.length + 1 + rest.length := by
      simp
      omega
    have hfuel : ops.length < 2 * (ops.map symbol ++ ']' :: rest).length + 1 := by omega
    have hclass := class?_symbols hops rest hfuel
    show token? ('[' :: (ops.map symbol ++ [']'] ++ rest)) = _
    rw [List.append_assoc, List.singleton_append, token?, hclass]
    rfl

/-- A lexeme is read back from its expansion, unless a question mark behind it would make it another
one. -/
theorem token?_expansion (x : Lexeme) {rest : List Char}
    (h : x.mayRepeat = true ∨ ∀ rest', rest = '?' :: rest' → False) :
    token? (x.expansion ++ rest) = some (x.token, rest) := by
  cases x with
  | word a => exact token?_word a rest
  | closing | bar => rfl
  | opening =>
    -- Behind an opening bracket or a repetition a question mark would be read with it.
    have hrest := h.resolve_left nofun
    show token? ('(' :: rest) = _
    rw [token?]
    · rfl
    all_goals exact fun rest' => hrest _
  | rounds r =>
    have hrest := h.resolve_left nofun
    cases r with
    | atMostOne =>
      show token? ('?' :: rest) = _
      rw [token?]
      · rfl
      · exact hrest
    | any =>
      show token? ('*' :: rest) = _
      rw [token?]
      · rfl
      · exact hrest
    | atLeastOne =>
      show token? ('+' :: rest) = _
      rw [token?]
      · rfl
      · exact hrest

/-- Whether a lexeme is the sign of a repetition. -/
def Lexeme.isRounds : Lexeme → Bool
  | rounds _ => true
  | _ => false

/-- Only the sign of a repetition begins with a question mark. -/
theorem Lexeme.expansion_ne {x : Lexeme} (h : x.isRounds = false) (rest rest' : List Char) :
    x.expansion ++ rest = '?' :: rest' → False := by
  intro heq
  cases x with
  | word a =>
    cases a with
    | any => exact absurd (List.cons.inj heq).1 (by decide)
    | one name op known => exact symbol_cons_ne op (by decide) rest' heq
    | among name ops known => exact absurd (List.cons.inj heq).1 (by decide)
  | opening | closing | bar => exact absurd (List.cons.inj heq).1 (by decide)
  | rounds => cases h

/-- Lexemes are read back from their expansions if a sign of a repetition stands only behind what may
be repeated. -/
theorem tokens?_expansion {lexemes : List Lexeme}
    (h : lexemes.IsChain fun x y => y.isRounds = true → x.mayRepeat = true) :
    ∀ {fuel : Nat}, lexemes.length ≤ fuel →
      tokens? fuel (lexemes.flatMap Lexeme.expansion) = some (lexemes.map Lexeme.token) := by
  induction lexemes with
  | nil =>
    intro fuel _
    cases fuel <;> rfl
  | cons x lexemes ih =>
    intro fuel hfuel
    cases fuel with
    | zero => cases hfuel
    | succ fuel =>
      -- The next expansion starts with a question mark only if it is a repetition, and then this
      -- one may be repeated.
      have hx : x.mayRepeat = true ∨
          ∀ rest', lexemes.flatMap Lexeme.expansion = '?' :: rest' → False := by
        cases lexemes with
        | nil => exact .inr nofun
        | cons y lexemes =>
          cases hy : y.isRounds with
          | true => exact .inl ((List.isChain_cons_cons.1 h).1 hy)
          | false => exact .inr fun rest' => Lexeme.expansion_ne hy _ rest'
      have htoken := token?_expansion x hx
      have hrest := ih (h.suffix (List.suffix_cons x lexemes)) (Nat.le_of_succ_le_succ hfuel)
      rw [List.flatMap_cons, tokens?, htoken]
      · show (tokens? fuel (lexemes.flatMap Lexeme.expansion)).bind _ = _
        rw [hrest]
        rfl
      · intro hempty
        rw [hempty] at htoken
        cases htoken

/-- What holds of the first element of two lists holds of the first of both. -/
theorem forall_head?_append {α : Type} {P : α → Prop} {xs ys : List α} (hx : ∀ x ∈ xs.head?, P x)
    (hy : ∀ y ∈ ys.head?, P y) : ∀ z ∈ (xs ++ ys).head?, P z := by
  cases xs with
  | nil => exact hy
  | cons x xs => exact hx

/-- In an expression a sign of a repetition stands only behind a unit. -/
theorem Expr.isChain_lexemes {rank : Rank} (e : Expr Atom rank) :
    (e.lexemes.IsChain fun x y => y.isRounds = true → x.mayRepeat = true) ∧
      (∀ x ∈ e.lexemes.head?, x.isRounds = false) ∧
      (rank = .unit → ∀ x ∈ e.lexemes.getLast?, x.mayRepeat = true) := by
  -- On the expression; what an expression starts with and a unit ends with is proved along with it.
  induction e with
  | atom a =>
    refine ⟨.singleton _, fun x hx => ?_, fun _ x hx => ?_⟩
    · cases hx
      rfl
    · cases hx
      rfl
  | group body ih =>
    have hclosed : (body.lexemes ++ [Lexeme.closing]).IsChain
        fun x y => y.isRounds = true → x.mayRepeat = true := by
      refine List.isChain_append.2 ⟨ih.1, .singleton _, fun x _ y hy => ?_⟩
      cases hy
      exact nofun
    refine ⟨?_, fun x hx => ?_, fun _ x hx => ?_⟩
    · refine List.isChain_cons.2 ⟨fun y hy hrounds => ?_, hclosed⟩
      have hclosing : ∀ y ∈ [Lexeme.closing].head?, y.isRounds = false := by
        intro y hy
        cases hy
        rfl
      rw [forall_head?_append ih.2.1 hclosing y hy] at hrounds
      cases hrounds
    · cases hx
      rfl
    · rw [lexemes, List.getLast?_concat] at hx
      cases hx
      rfl
  | once body ih => exact ⟨ih.1, ih.2.1, nofun⟩
  | repeated body rounds ih =>
    refine ⟨?_, ?_, nofun⟩
    -- In front of a repetition stands a unit, which may be repeated.
    · refine List.isChain_append.2 ⟨ih.1, .singleton _, fun x hx y _ _ => ?_⟩
      exact ih.2.2 rfl x hx
    · cases body with
      | atom a => exact ih.2.1
      | group inner => exact ih.2.1
  | empty => exact ⟨.nil, nofun, nofun⟩
  | next first rest ihf ihr =>
    refine ⟨List.isChain_append.2 ⟨ihf.1, ihr.1, fun x _ y hy hrounds => ?_⟩, ?_, nofun⟩
    · rw [ihr.2.1 y hy] at hrounds
      cases hrounds
    · exact forall_head?_append ihf.2.1 ihr.2.1
  | only last ih => exact ⟨ih.1, ih.2.1, nofun⟩
  | or first rest ihf ihr =>
    refine ⟨List.isChain_append.2 ⟨ihf.1, ?_, fun x _ y hy => ?_⟩, ?_, nofun⟩
    · refine List.isChain_cons.2 ⟨fun y hy hrounds => ?_, ihr.1⟩
      rw [ihr.2.1 y hy] at hrounds
      cases hrounds
    · cases hy
      exact nofun
    · refine forall_head?_append ihf.2.1 fun x hx => ?_
      cases hx
      rfl

/-! ### Structure -/

namespace Part

/-- Parts one after the other. -/
def sequence (parts : List Part) : Part :=
  ⟨.concat (parts.map (·.regex)), depthOf (parts.map (·.depth))⟩

/-- The choice between parts. -/
def choice (parts : List Part) : Part :=
  match parts with
  | [part] => part
  | parts => ⟨.alternation (parts.map (·.regex)), depthOf (parts.map (·.depth))⟩

end Part

namespace Expr

/-- The number of groups of an expression. -/
def groups {α : Type} : {rank : Rank} → Expr α rank → Nat
  | _, .atom _ | _, .empty => 0
  | _, .group body => body.groups + 1
  | _, .once body | _, .repeated body _ | _, .only body => body.groups
  | _, .next first rest => first.groups + rest.groups
  | _, .or first rest => first.groups + rest.groups

/-- What is read of an expression behind `count` groups: the parts of a sequence in order, or the
alternatives of a choice. -/
def partsFrom : {rank : Rank} → Expr Atom rank → (count : Nat) → List Part
  | _, .atom a, _ => [a.part]
  | _, .group body, count =>
    let content := Part.choice (body.partsFrom (count + 1))
    [⟨.group count content.regex, content.depth + 1⟩]
  | _, .once body, count => body.partsFrom count
  | _, .repeated body rounds, count =>
    (body.partsFrom count).map fun part => ⟨.repeated rounds true part.regex, part.depth + 1⟩
  | _, .empty, _ => []
  | _, .next first rest, count => first.partsFrom count ++ rest.partsFrom (count + first.groups)
  | _, .only last, count => [Part.sequence (last.partsFrom count)]
  | _, .or first rest, count =>
    Part.sequence (first.partsFrom count) :: rest.partsFrom (count + first.groups)

/-- What is read of a whole expression. -/
def part (e : Expr Atom .choice) : Part :=
  Part.choice (e.partsFrom 0)

end Expr

/-- Whether tokens are read as parts that are added to the level where they are read. -/
def AddsParts (tokens : List Token) (groups : Nat) (parts : Nat → List Part) : Prop :=
  ∀ (count : Nat) (level : Level) (outer : List Level) (rest : List Token),
    Regex.ofTokensIn count level outer (tokens ++ rest) =
      Regex.ofTokensIn (count + groups)
        { level with parts := (parts count).reverse ++ level.parts } outer rest

/-- Whether tokens are read as parts that become alternatives of the level where they are read. -/
def AddsAlternatives (tokens : List Token) (groups : Nat) (parts : Nat → List Part) : Prop :=
  ∀ (count : Nat) (level : Level) (outer : List Level) (rest : List Token), level.parts = [] →
    ∃ level' : Level, level'.index? = level.index? ∧
      level'.bar.alternatives = (parts count).reverse ++ level.alternatives ∧
      Regex.ofTokensIn count level outer (tokens ++ rest) =
        Regex.ofTokensIn (count + groups) level' outer rest

/-- Whether tokens are read as the parts of an expression of a rank. -/
def ReadsAs : Rank → List Token → Nat → (Nat → List Part) → Prop
  | .choice => AddsAlternatives
  | _ => AddsParts

/-- A unit is read as one part. -/
theorem Expr.partsFrom_unit (e : Expr Atom .unit) (count : Nat) :
    ∃ part, e.partsFrom count = [part] := by
  cases e with
  | atom a => exact ⟨_, rfl⟩
  | group body => exact ⟨_, rfl⟩

/-- The parts of a sequence that were read are put together when it is over. -/
theorem Level.bar_eq {level : Level} (h : level.parts = []) (parts : List Part) :
    (Level.bar { level with parts := parts.reverse ++ level.parts }).alternatives =
      Part.sequence parts :: level.alternatives := by
  rw [Level.bar, Level.sequence, h, List.append_nil, List.reverse_reverse, List.map_reverse,
    depthOf_reverse]
  rfl

/-- The alternatives of a choice that were read are put together when it is over. -/
theorem Level.content_eq {level : Level} {parts : List Part}
    (h : level.bar.alternatives = parts.reverse) : level.content = Part.choice parts := by
  rw [Level.content, h]
  match parts with
  | [part] => rfl
  | [] => rfl
  | part :: part' :: parts =>
    split
    case h_1 heq =>
      have := congrArg List.length heq
      simp at this
    case h_2 =>
      rw [List.reverse_reverse, List.map_reverse, depthOf_reverse]
      rfl

/-- The tokens of an expression are read as its parts. -/
theorem Expr.readsAs {rank : Rank} (e : Expr Atom rank) :
    ReadsAs rank (e.lexemes.map Lexeme.token) e.groups e.partsFrom := by
  induction e with
  | atom a =>
    intro count level outer rest
    rfl
  | group body ih =>
    intro count level outer rest
    -- The group is a level of its own, which is closed into the level around it.
    obtain ⟨inner, hindex, halternatives, hread⟩ :=
      ih (count + 1) { index? := some count } (level :: outer) (.closing :: rest) rfl
    have hclose : inner.close =
        ⟨.group count (Part.choice (body.partsFrom (count + 1))).regex,
          (Part.choice (body.partsFrom (count + 1))).depth + 1⟩ := by
      rw [Level.close, hindex, Level.content_eq (halternatives.trans (List.append_nil _))]
      rfl
    rw [lexemes, List.cons_append, List.map_cons, List.map_append, List.cons_append,
      List.append_assoc]
    show Regex.ofTokensIn (count + 1) { index? := some count } (level :: outer)
      (body.lexemes.map Lexeme.token ++ .closing :: rest) = _
    rw [hread]
    show Regex.ofTokensIn (count + 1 + body.groups) (level.add inner.close) outer rest = _
    rw [hclose, Nat.add_right_comm]
    rfl
  | once body ih => exact ih
  | repeated body rounds ih =>
    intro count level outer rest
    obtain ⟨part, hpart⟩ := body.partsFrom_unit count
    have hbody := ih count level outer (.repetition rounds true :: rest)
    rw [lexemes, List.map_append, List.append_assoc]
    show Regex.ofTokensIn count level outer
      (body.lexemes.map Lexeme.token ++ .repetition rounds true :: rest) = _
    rw [hbody, partsFrom, hpart]
    rfl
  | empty =>
    intro count level outer rest
    rfl
  | next first rest ihf ihr =>
    intro count level outer behind
    have hfirst := ihf count level outer (rest.lexemes.map Lexeme.token ++ behind)
    have hrest := ihr (count + first.groups)
      { level with parts := (first.partsFrom count).reverse ++ level.parts } outer behind
    rw [lexemes, List.map_append, List.append_assoc, hfirst, hrest, groups, Nat.add_assoc,
      partsFrom, List.reverse_append, List.append_assoc]
  | only last ih =>
    intro count level outer rest hlevel
    exact ⟨{ level with parts := (last.partsFrom count).reverse ++ level.parts }, rfl,
      Level.bar_eq hlevel _, ih count level outer rest⟩
  | or first rest ihf ihr =>
    intro count level outer behind hlevel
    have hfirst := ihf count level outer (.bar :: (rest.lexemes.map Lexeme.token ++ behind))
    obtain ⟨level', hindex, halternatives, hread⟩ := ihr (count + first.groups)
      (Level.bar { level with parts := (first.partsFrom count).reverse ++ level.parts }) outer
      behind rfl
    refine ⟨level', hindex, ?_, ?_⟩
    · rw [halternatives, Level.bar_eq hlevel, partsFrom, List.reverse_cons, List.append_assoc]
      rfl
    · rw [lexemes, List.map_append, List.append_assoc, groups, ← Nat.add_assoc, ← hread]
      exact hfirst

/-! ### Depth -/

namespace Atom

/-- How deep the expansion of a word is nested: that of a group is a class of characters. -/
def depth : Atom → Nat
  | any | one _ _ _ => 0
  | among _ ops _ => depthOf (ops.map fun _ => 0) + 1

end Atom

/-- How deep the parts of an expression are nested: those of a sequence in order, or the
alternatives of a choice. -/
def Expr.depths : {rank : Rank} → Expr Atom rank → List Nat
  | _, .atom a => [a.depth]
  | _, .group body => [depthOf body.depths + 1]
  | _, .once body => body.depths
  | _, .repeated body _ => body.depths.map (· + 1)
  | _, .empty => []
  | _, .next first rest => first.depths ++ rest.depths
  | _, .only last => [depthOf last.depths]
  | _, .or first rest => depthOf first.depths :: rest.depths

/-- How deep an expression is nested. -/
def Expr.depth (e : Expr Atom .choice) : Nat :=
  depthOf e.depths

/-- A choice is nested as deep as the deepest of its parts. -/
theorem Part.depth_choice (parts : List Part) :
    (Part.choice parts).depth = depthOf (parts.map (·.depth)) := by
  match parts with
  | [] => rfl
  | [part] => rfl
  | _ :: _ :: _ => rfl

/-- The depths of the parts of an expression are counted from it. -/
theorem Expr.depth_partsFrom {rank : Rank} (e : Expr Atom rank) (count : Nat) :
    (e.partsFrom count).map (·.depth) = e.depths := by
  induction e generalizing count with
  | atom a => cases a <;> rfl
  | group body ih =>
    show [(Part.choice (body.partsFrom (count + 1))).depth + 1] = _
    rw [Part.depth_choice, ih]
    rfl
  | once body ih => exact ih count
  | repeated body rounds ih =>
    rw [partsFrom, depths, ← ih count, List.map_map, List.map_map]
    rfl
  | empty => rfl
  | next first rest ihf ihr => rw [partsFrom, List.map_append, ihf, ihr, depths]
  | only last ih =>
    show [depthOf ((last.partsFrom count).map (·.depth))] = _
    rw [ih]
    rfl
  | or first rest ihf ihr =>
    show depthOf ((first.partsFrom count).map (·.depth)) ::
      (rest.partsFrom (count + first.groups)).map (·.depth) = _
    rw [ihf, ihr]
    rfl

/-- No expansion of a lexeme is empty. -/
theorem length_le_expansion (lexemes : List Lexeme) :
    lexemes.length ≤ (lexemes.flatMap Lexeme.expansion).length := by
  induction lexemes with
  | nil => exact Nat.le_refl 0
  | cons x lexemes ih =>
    have hx : 1 ≤ x.expansion.length := by
      cases x with
      | word a => cases a <;> simp [Lexeme.expansion, Atom.expansion]
      | opening | closing | bar | rounds => exact Nat.le_refl 1
    rw [List.length_cons, List.flatMap_cons, List.length_append]
    omega

/-- An expression is read back from its expansion, unless it is nested too deep. -/
theorem Regex.parse?_expansion (e : Expr Atom .choice) :
    Regex.parse? e.expansion = if e.depth ≤ depthLimit then some e.part.regex else none := by
  have htokens : tokens? e.expansion.length e.expansion = some (e.lexemes.map Lexeme.token) :=
    tokens?_expansion e.isChain_lexemes.1 (length_le_expansion e.lexemes)
  have hcontent : Regex.ofTokensIn 0 {} [] (e.lexemes.map Lexeme.token) = some e.part := by
    obtain ⟨level, -, halternatives, hread⟩ := e.readsAs 0 {} [] [] rfl
    rw [List.append_nil] at hread
    rw [hread]
    show some level.content = _
    rw [Level.content_eq (halternatives.trans (List.append_nil _))]
    rfl
  have hnames : (e.lexemes.map Lexeme.token).filterMap Token.groupName? = [] := by
    rw [List.filterMap_eq_nil_iff]
    intro token htoken
    obtain ⟨x, -, rfl⟩ := List.mem_map.1 htoken
    cases x <;> rfl
  have hdepth : e.part.depth = e.depth := by
    rw [Expr.part, Part.depth_choice, Expr.depth_partsFrom, Expr.depth]
  rw [Regex.parse?, htokens, Option.bind_some, Regex.ofTokens?, hcontent]
  simp only [hnames, hdepth, Option.bind_eq_bind, Option.bind_some, List.eraseDups_nil,
    List.length_nil, decide_true, Bool.true_and, decide_eq_true_eq]

end Unscramble.Pattern
