import Unscramble.Proofs.Lists
import Unscramble.Proofs.Pattern.Runs

/-! # Patterns without repetitions

A pattern that has a few words to choose from for each place, and whose first place has none in common
with the others, matches wherever its words stand one behind the other: no match can keep another one
from being found. So its runs are all stretches of real instructions with such opcodes.

Main definitions: `Place`, `Place.expression`. Main statements: `mem_spansFrom`, `mem_runs_iff`. -/

namespace Unscramble

/-- The real instructions with their opcodes. -/
theorem Listing.forall₂_opcodes (l : Listing) :
    List.Forall₂ (fun h op => (l.get h).opcode? = some op) l.reals l.opcodes := by
  unfold reals opcodes
  induction l.handles with
  | nil => exact .nil
  | cons h hs ih =>
    rw [List.filter_cons, List.filterMap_cons]
    unfold isReal Instruction.isReal
    cases hop : (l.get h).opcode? with
    | none => exact ih
    | some op => exact .cons hop ih

namespace Pattern

/-! ### Reading texts -/

/-- Whether a text spells lexemes. -/
def isSpelled : List Lexeme → List Char → Bool
  | [], cs => cs.all Text.isBlank
  | x :: rest, cs =>
    let cs := cs.dropWhile Text.isBlank
    match x with
    | .word a => a.name.toList.isPrefixOf cs &&
        ((cs.drop a.name.toList.length).head?.all fun c => !isTokenChar c) &&
        isSpelled rest (cs.drop a.name.toList.length)
    | x => cs.head? == x.sign? && !cs.isEmpty && isSpelled rest (cs.drop 1)

/-- Blanks in front of words are left out. -/
theorem spells_of_dropWhile {cs : List Char} {lexemes : List Lexeme}
    (h : Spells (cs.dropWhile Text.isBlank) lexemes) : Spells cs lexemes := by
  induction cs with
  | nil => exact h
  | cons c cs ih =>
    by_cases hc : Text.isBlank c = true
    · rw [List.dropWhile_cons_of_pos hc] at h
      exact .blank hc (ih h)
    · rwa [List.dropWhile_cons_of_neg hc] at h

/-- The test for spelling finds it. -/
theorem spells_of_isSpelled {lexemes : List Lexeme} {cs : List Char}
    (h : isSpelled lexemes cs = true) : Spells cs lexemes := by
  induction lexemes generalizing cs with
  | nil =>
    refine spells_of_dropWhile ?_
    rw [List.dropWhile_eq_nil_iff.2 (List.all_eq_true.1 h)]
    exact .nil
  | cons x rest ih =>
    refine spells_of_dropWhile ?_
    -- Signs are single characters; only words have to be apart from what follows them.
    have hsign : ∀ (cs : List Char) {x : Lexeme}, (cs.head? == x.sign?) = true →
        (!cs.isEmpty) = true → Spells (cs.drop 1) rest → Spells cs (x :: rest) := by
      intro cs x hhead hne hrest
      cases cs with
      | nil => cases hne
      | cons c cs => exact .sign (eq_of_beq hhead).symm hrest
    cases x with
    | word a =>
      simp only [isSpelled, Bool.and_eq_true] at h
      obtain ⟨⟨hword, hapart⟩, hrest⟩ := h
      obtain ⟨behind, heq⟩ := List.isPrefixOf_iff_prefix.1 hword
      rw [← heq, List.drop_left] at hapart hrest
      rw [← heq]
      refine .word (fun c hc => ?_) (ih hrest)
      have hsome : behind.head? = some c := hc
      rw [hsome] at hapart
      simpa using hapart
    | opening | closing | bar | rounds =>
      simp only [isSpelled, Bool.and_eq_true] at h
      exact hsign _ h.1.1 h.1.2 (ih h.2)

/-- The characters of a text that is written out are taken from it at once. -/
theorem isSpelled_ofList {lexemes : List Lexeme} {cs : List Char} (h : isSpelled lexemes cs = true) :
    isSpelled lexemes (String.ofList cs).toList = true := by
  rwa [String.toList_ofList]

/-! ### Places -/

/-- The words to choose from for one instruction. -/
structure Place where
  /-- The first one. -/
  first : Atom
  /-- The others. -/
  others : List Atom := []

namespace Place

/-- Whether one of the words stands for an opcode. -/
def accepts (p : Place) (op : Opcode) : Bool :=
  (p.first :: p.others).any (·.accepts op)

/-- Whether one of the words stands for the instruction behind a handle. -/
def holds (p : Place) (l : Listing) (h : Handle) : Bool :=
  (l.get h).opcode?.any p.accepts

/-- The choice between words. -/
def choice (a : Atom) : List Atom → Expr Atom .choice
  | [] => .only (.next (.once (.atom a)) .empty)
  | b :: rest => .or (.next (.once (.atom a)) .empty) (choice b rest)

/-- The words as an item; a single one needs no parentheses. -/
def item (p : Place) : Expr Atom .item :=
  match p.others with
  | [] => .once (.atom p.first)
  | others => .once (.group (choice p.first others))

/-- The items of several places one after the other. -/
def items : List Place → Expr Atom .sequence
  | [] => .empty
  | p :: rest => .next p.item (items rest)

/-- The expression for several places. -/
def expression (places : List Place) : Expr Atom .choice :=
  .only (items places)

/-! ### How automata read them -/

/-- What is read of a word is a single character or a set of them. -/
theorem isRigid_of_mem_parts (a : Atom) :
    ∀ p ∈ (Part.sequence [a.part]).regex.parts, p.isRigid = true := by
  intro p hp
  cases a with
  | any =>
    cases List.mem_singleton.1 hp
    rfl
  | one =>
    cases List.mem_singleton.1 hp
    rfl
  | among name ops known =>
    have hpart : (Part.sequence [(Atom.among name ops known).part]).regex =
        Regex.concat [Regex.ofSet (Atom.symbols ops)] := rfl
    rw [hpart, Regex.ofSet] at hp
    cases hone : (Atom.symbols ops).single? with
    | none =>
      rw [hone] at hp
      cases List.mem_singleton.1 hp
      rfl
    | some c =>
      rw [hone] at hp
      cases List.mem_singleton.1 hp
      rfl

/-- So what the words of a choice begin with in common is matched in one way at most. -/
theorem isUnshared_choice (a : Atom) (others : List Atom) (count : Nat) :
    (choice a others).IsUnshared count := by
  intro _ front hfront p hp
  have hfirst : Part.sequence [a.part] ∈ (choice a others).partsFrom count := by
    cases others with
    | nil => exact List.mem_singleton.2 rfl
    | cons b others => exact List.mem_cons_self
  exact isRigid_of_mem_parts a p ((hfront _ hfirst).subset hp)

/-- A choice between words is clear. -/
theorem isClear_choice (a : Atom) (others : List Atom) (count : Nat) :
    (choice a others).IsClear count := by
  induction others generalizing a count with
  | nil => exact ⟨trivial, trivial⟩
  | cons b others ih => exact ⟨⟨trivial, trivial⟩, ih b _⟩

/-- Places one after the other are clear. -/
theorem isClear_items (places : List Place) (count : Nat) : (items places).IsClear count := by
  induction places generalizing count with
  | nil => trivial
  | cons p places ih =>
    refine ⟨?_, ih _⟩
    unfold item
    split
    · trivial
    · exact ⟨isUnshared_choice _ _ _, isClear_choice _ _ _⟩

/-- Automata match the places leftmost-first. -/
theorem leftmostFirst_expression (places : List Place) :
    automata.LeftmostFirst (expression places) := by
  refine (expression places).leftmostFirst (fun htwo => ?_) (isClear_items places 0)
  exact absurd htwo (by show ¬ 2 ≤ 1; decide)

/-! ### Where they match -/

/-- Whether words of all places stand one behind the other from a position on. -/
def stand (text : Array Opcode) : List Place → Nat → Bool
  | [], _ => true
  | p :: rest, i => (text[i]?).any p.accepts && stand text rest (i + 1)

variable {text : Array Opcode}

/-- A word that stands at a position is matched there, and what is matched is one instruction. -/
theorem ends_item (p : Place) (i : Nat) :
    (∀ j ∈ p.item.ends Atom.accepts text i, j = i + 1) ∧
      (p.item.ends Atom.accepts text i ≠ [] ↔ (text[i]?).any p.accepts = true) := by
  have hatom : ∀ a : Atom, (∀ j ∈ readAt a.accepts text i, j = i + 1) ∧
      (readAt a.accepts text i ≠ [] ↔ (text[i]?).any a.accepts = true) := by
    intro a
    refine ⟨fun j hj => (of_mem_readAt hj).2, ?_⟩
    unfold readAt
    split
    · next hread => exact ⟨fun _ => hread, fun _ => List.cons_ne_nil _ _⟩
    · next hread => exact ⟨fun h => absurd rfl h, fun h => absurd h hread⟩
  -- A choice is a list of alternatives, each of one instruction; a word alone is no choice.
  have hchoice : ∀ (others : List Atom) (a : Atom),
      (∀ j ∈ (choice a others).ends Atom.accepts text i, j = i + 1) ∧
        ((choice a others).ends Atom.accepts text i ≠ [] ↔
          (text[i]?).any (fun op => (a :: others).any (·.accepts op)) = true) := by
    intro others
    induction others with
    | nil =>
      intro a
      have hsame : (choice a []).ends Atom.accepts text i = readAt a.accepts text i :=
        List.flatMap_singleton' _
      rw [hsame]
      simpa using hatom a
    | cons b others ih =>
      intro a
      have hsame : (choice a (b :: others)).ends Atom.accepts text i =
          readAt a.accepts text i ++ (choice b others).ends Atom.accepts text i :=
        congrArg (· ++ _) (List.flatMap_singleton' _)
      rw [hsame]
      refine ⟨fun j hj => (List.mem_append.1 hj).elim ((hatom a).1 j) ((ih b).1 j), ?_⟩
      rw [ne_eq, List.append_eq_nil_iff, not_and_or, ← ne_eq, ← ne_eq, (hatom a).2, (ih b).2]
      cases text[i]? with
      | none => simp
      | some op => simp
  obtain ⟨first, others⟩ := p
  cases others with
  | nil =>
    have hsingle : accepts ⟨first, []⟩ = first.accepts := funext fun op => Bool.or_false _
    rw [hsingle]
    exact hatom first
  | cons b others => exact hchoice (b :: others) first

/-- The words of several places are matched where they stand, and nowhere else. -/
theorem ends_items (places : List Place) (i : Nat) :
    (∀ j ∈ (items places).ends Atom.accepts text i, j = i + places.length) ∧
      ((items places).ends Atom.accepts text i ≠ [] ↔ stand text places i = true) := by
  induction places generalizing i with
  | nil => exact ⟨fun j hj => List.mem_singleton.1 hj, fun _ => rfl, fun _ => List.cons_ne_nil _ _⟩
  | cons p places ih =>
    obtain ⟨hend, hne⟩ := @ends_item text p i
    have hsame : (items (p :: places)).ends Atom.accepts text i =
        (p.item.ends Atom.accepts text i).flatMap ((items places).ends Atom.accepts text) := rfl
    rw [hsame]
    constructor
    · intro j hj
      obtain ⟨m, hm, hj⟩ := List.mem_flatMap.1 hj
      rw [(ih m).1 j hj, hend m hm, List.length_cons]
      omega
    · rw [stand, Bool.and_eq_true, ← hne, ← (ih (i + 1)).2, ne_eq, List.flatMap_eq_nil_iff]
      constructor
      · intro h
        push Not at h
        obtain ⟨m, hm, hrest⟩ := h
        exact ⟨List.ne_nil_of_mem hm, hend m hm ▸ hrest⟩
      · rintro ⟨hfirst, hrest⟩ h
        obtain ⟨m, hm⟩ := List.exists_mem_of_ne_nil _ hfirst
        exact hrest (hend m hm ▸ h m hm)

end Place

/-! ### Spans of one length -/

/-- Where all matches have one length and none begins within another, every match is found. -/
theorem mem_spansFrom {ends : Nat → List Nat} {width : Nat} (hwidth : 0 < width)
    (hends : ∀ i, ∀ j ∈ ends i, j = i + width)
    (apart : ∀ i d, ends i ≠ [] → 0 < d → d < width → ends (i + d) = []) {j : Nat}
    (hj : ends j ≠ []) (fuel : Nat) :
    ∀ i, i ≤ j → j - i < fuel → (j, j + width) ∈ spansFrom ends fuel i := by
  induction fuel with
  | zero => exact fun i _ h => absurd h (Nat.not_lt_zero _)
  | succ fuel ih =>
    intro i hij hfuel
    rw [spansFrom]
    cases hhead : (ends i).head? with
    | none =>
      have hne : i ≠ j := by
        rintro rfl
        exact hj (List.head?_eq_none_iff.1 hhead)
      exact ih (i + 1) (by omega) (by omega)
    | some e =>
      have he : e = i + width := hends i e (List.mem_of_head? hhead)
      have hbegin : ends i ≠ [] := List.ne_nil_of_mem (List.mem_of_head? hhead)
      show _ ∈ if i < e then _ else _
      rw [he, if_pos (by omega)]
      by_cases hsame : i = j
      · rw [hsame]
        exact List.mem_cons_self
      · -- The next match does not begin within this one.
        have hbehind : i + width ≤ j := by
          by_contra hwithin
          refine hj ?_
          rw [← Nat.add_sub_cancel' hij]
          exact apart i (j - i) hbegin (by omega) (by omega)
        exact List.mem_cons_of_mem _ (ih (i + width) hbehind (by omega))

/-! ### Runs -/

/-- Words stand one behind the other if they stand for the opcodes there. -/
theorem Place.stand_iff {ops : List Opcode} {places : List Place} {i : Nat} :
    stand ops.toArray places i = true ↔
      List.Forall₂ (fun op (p : Place) => p.accepts op = true)
        ((ops.drop i).take places.length) places := by
  induction places generalizing i with
  | nil => exact ⟨fun _ => by rw [List.length_nil, List.take_zero]; exact .nil, fun _ => rfl⟩
  | cons p places ih =>
    rw [stand, Bool.and_eq_true, ih, List.getElem?_toArray, List.length_cons]
    by_cases hi : i < ops.length
    · rw [List.getElem?_eq_getElem hi, List.drop_eq_getElem_cons hi, List.take_succ_cons,
        List.forall₂_cons]
      rfl
    · rw [List.getElem?_eq_none (Nat.not_lt.1 hi), List.drop_eq_nil_of_le (Nat.not_lt.1 hi),
        List.take_nil]
      exact ⟨fun h => absurd h.1 Bool.false_ne_true, fun h => nomatch h⟩

/-- A pattern for some places is compiled, and its runs are the stretches where it matches. -/
theorem runs_ofText {source : String} {places : List Place}
    (spells : Spells source.toList (Place.expression places).lexemes)
    (hdepth : (Place.expression places).depth ≤ depthLimit) {l : Listing} :
    (ofText source).runs l =
      ((Place.expression places).spans Atom.accepts l.opcodes.toArray).map (stretch l.reals) := by
  have hcompile := compile_eq_ok spells hdepth
  rw [ofText, hcompile]
  exact runs_eq spells (Place.leftmostFirst_expression _) hcompile l

section

variable {source : String} {first : Place} {others places : List Place} {l : Listing}
  {run : List Handle}

/-- Where words stand for the opcodes, the instructions there hold them. -/
theorem Place.holds_of_stand {i : Nat} (h : Place.stand l.opcodes.toArray places i = true) :
    List.Forall₂ (fun h (p : Place) => p.holds l h = true)
      ((l.reals.drop i).take places.length) places := by
  refine forall₂_trans (fun h op p hop hp => ?_)
    (List.forall₂_take _ (List.forall₂_drop _ l.forall₂_opcodes)) (Place.stand_iff.1 h)
  show (l.get h).opcode?.any p.accepts = true
  rw [hop]
  exact hp

/-- Where instructions hold words, these stand for their opcodes. -/
theorem Place.stand_of_holds {front back : List Handle} (hreals : front ++ run ++ back = l.reals)
    (hrun : List.Forall₂ (fun h (p : Place) => p.holds l h = true) run places) :
    Place.stand l.opcodes.toArray places front.length = true := by
  have hsegment : (l.reals.drop front.length).take places.length = run := by
    rw [← hreals, List.append_assoc, List.drop_left, ← hrun.length_eq, List.take_left]
  have hhere := (List.forall₂_take places.length
    (List.forall₂_drop front.length l.forall₂_opcodes)).flip
  rw [hsegment] at hhere
  refine Place.stand_iff.2 (forall₂_trans (fun op h p hop hp => ?_) hhere hrun)
  have hsome : (l.get h).opcode? = some op := hop
  rwa [Place.holds, hsome] at hp

/-- Words do not stand one behind the other where another match of them is still going on, if no
opcode that may stand at the first place may stand at another one. -/
theorem Place.not_stand_within {ops : List Opcode} {i d : Nat}
    (apart : ∀ other ∈ others, ∀ op, first.accepts op = true → other.accepts op = false)
    (h : Place.stand ops.toArray (first :: others) i = true) (hd : 0 < d)
    (hwidth : d < (first :: others).length) :
    Place.stand ops.toArray (first :: others) (i + d) ≠ true := by
  -- What stands at a later place is no word of the first one.
  intro hthere
  have hlater := Place.stand_iff.1 h
  rw [Place.stand, Bool.and_eq_true, List.getElem?_toArray] at hthere
  obtain ⟨op, hop, hfirst⟩ := (Option.any_eq_true _ _).1 hthere.1
  obtain ⟨d, rfl⟩ := Nat.exists_eq_succ_of_ne_zero hd.ne'
  have hget : ((ops.drop i).take (first :: others).length)[d + 1]? = some op := by
    rw [List.getElem?_take, if_pos hwidth, List.getElem?_drop]
    exact hop
  obtain ⟨other, hother, haccepts⟩ := getElem?_of_forall₂ hlater hget
  rw [List.getElem?_cons_succ] at hother
  rw [apart other (List.mem_of_getElem? hother) op hfirst] at haccepts
  cases haccepts

/-- The runs of a pattern for some places are all stretches of real instructions with such opcodes,
if no opcode that may stand at the first place may stand at another one. -/
theorem mem_runs_iff (spells : Spells source.toList (Place.expression (first :: others)).lexemes)
    (hdepth : (Place.expression (first :: others)).depth ≤ depthLimit)
    (apart : ∀ other ∈ others, ∀ op, first.accepts op = true → other.accepts op = false) :
    run ∈ (ofText source).runs l ↔ run <:+: l.reals ∧
      List.Forall₂ (fun h (p : Place) => p.holds l h = true) run (first :: others) := by
  rw [runs_ofText spells hdepth, List.mem_map]
  have hends := @Place.ends_items l.opcodes.toArray (first :: others)
  constructor
  · rintro ⟨span, hspan, rfl⟩
    obtain ⟨-, -, hhead⟩ := (Expr.spans_spec _ _ _).1 span hspan
    have hmem := List.mem_of_head? hhead
    have hwidth : span.2 = span.1 + (first :: others).length := (hends span.1).1 span.2 hmem
    have hstretch : stretch l.reals span =
        (l.reals.drop span.1).take (first :: others).length := by
      show (l.reals.drop span.1).take (span.2 - span.1) = _
      rw [hwidth, Nat.add_sub_cancel_left]
    refine ⟨stretch_isInfix _ _, ?_⟩
    rw [hstretch]
    exact Place.holds_of_stand ((hends span.1).2.1 (List.ne_nil_of_mem hmem))
  · rintro ⟨⟨front, back, hreals⟩, hrun⟩
    have hlength := hrun.length_eq
    have hlast : front.length < l.opcodes.toArray.size := by
      rw [List.size_toArray, length_opcodes, ← hreals, List.length_append, List.length_append,
        hlength, List.length_cons]
      omega
    refine ⟨(front.length, front.length + (first :: others).length), ?_, ?_⟩
    · refine mem_spansFrom (Nat.succ_pos _) (fun i => (hends i).1) (fun i d hi hd hwidth => ?_)
        ((hends front.length).2.2 (Place.stand_of_holds hreals hrun)) _ 0 (Nat.zero_le _) hlast
      by_contra hagain
      exact Place.not_stand_within apart ((hends i).2.1 hi) hd hwidth ((hends (i + d)).2.1 hagain)
    · show (l.reals.drop front.length).take (front.length + _ - front.length) = run
      rw [Nat.add_sub_cancel_left, ← hreals, List.append_assoc, List.drop_left, ← hlength,
        List.take_left]

end

section

variable {source : String} {first second third : Place} {l : Listing} {run : List Handle}

/-- The runs of a pattern for two places. -/
theorem mem_runs_pair_iff (spells : isSpelled (Place.expression [first, second]).lexemes
    source.toList = true) (hdepth : (Place.expression [first, second]).depth ≤ depthLimit)
    (apart : ∀ op, first.accepts op = true → second.accepts op = false) :
    run ∈ (ofText source).runs l ↔ ∃ a b, run = [a, b] ∧ [a, b] <:+: l.reals ∧
      first.holds l a = true ∧ second.holds l b = true := by
  rw [mem_runs_iff (spells_of_isSpelled spells) hdepth (by simpa using apart)]
  constructor
  · rintro ⟨hstands, hrun⟩
    rcases hrun with _ | ⟨ha, _ | ⟨hb, ⟨⟩⟩⟩
    exact ⟨_, _, rfl, hstands, ha, hb⟩
  · rintro ⟨a, b, rfl, hstands, ha, hb⟩
    exact ⟨hstands, .cons ha (.cons hb .nil)⟩

/-- The runs of a pattern for three places. -/
theorem mem_runs_triple_iff (spells : isSpelled (Place.expression [first, second, third]).lexemes
    source.toList = true) (hdepth : (Place.expression [first, second, third]).depth ≤ depthLimit)
    (apart : ∀ op, first.accepts op = true → second.accepts op = false ∧ third.accepts op = false) :
    run ∈ (ofText source).runs l ↔ ∃ a b c, run = [a, b, c] ∧ [a, b, c] <:+: l.reals ∧
      first.holds l a = true ∧ second.holds l b = true ∧ third.holds l c = true := by
  rw [mem_runs_iff (spells_of_isSpelled spells) hdepth (by
    intro other hother op hop
    rcases List.mem_pair.1 hother with rfl | rfl
    · exact (apart op hop).1
    · exact (apart op hop).2)]
  constructor
  · rintro ⟨hstands, hrun⟩
    rcases hrun with _ | ⟨ha, _ | ⟨hb, _ | ⟨hc, ⟨⟩⟩⟩⟩
    exact ⟨_, _, _, rfl, hstands, ha, hb, hc⟩
  · rintro ⟨a, b, c, rfl, hstands, ha, hb, hc⟩
    exact ⟨hstands, .cons ha (.cons hb (.cons hc .nil))⟩

end

end Pattern

end Unscramble
