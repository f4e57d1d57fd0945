import Unscramble.Proofs.Pattern.Meaning

/-! # The runs of a pattern

A pattern that spells an expression over words finds the leftmost-first matches of that expression
in the opcodes of a listing's real instructions. What the engine matches are characters, one for each
real instruction, so the places where its matches begin and end are those of real instructions.

Main definitions: `Listing.reals`, `Listing.opcodes`.
Main statements: `runs_apart`, `runs_of_spells`. -/

namespace Unscramble

namespace Listing

/-- The real instructions of a listing, in order. -/
def reals (l : Listing) : List Handle :=
  l.handles.filter l.isReal

/-- Their opcodes. -/
def opcodes (l : Listing) : List Opcode :=
  l.handles.filterMap fun h => (l.get h).opcode?

end Listing

namespace Pattern

/-! ### Opcodes as characters -/

/-- A word stands for an opcode if its expansion matches the symbol. -/
theorem Atom.reads_symbol (a : Atom) (op : Opcode) : a.reads (symbol op) = a.accepts op := by
  cases a with
  | any => exact bne_iff_ne.2 (symbol_ne op (by decide))
  | one name op' known =>
    show (symbol op == symbol op') = (op == op')
    rw [Bool.eq_iff_iff, beq_iff_eq, beq_iff_eq]
    exact symbol_inj
  | among name ops known =>
    show (ops.map symbol).contains (symbol op) = ops.contains op
    rw [Bool.eq_iff_iff, List.contains_iff_mem, List.contains_iff_mem, List.mem_map]
    constructor
    · rintro ⟨op', hop', heq⟩
      rwa [← symbol_inj.1 heq]
    · exact fun hop => ⟨op, hop, rfl⟩

section

variable {α σ τ : Type} {accepts : α → σ → Bool} {accepts' : α → τ → Bool} {text : Array σ}

/-- An expression ends in a text where it ends in what stands for it, if the places of that satisfy
the same conditions. -/
theorem Expr.ends_map (f : τ → σ) (h : ∀ a c, accepts a (f c) = accepts' a c) (text : Array τ)
    {rank : Rank} (e : Expr α rank) : e.ends accepts (text.map f) = e.ends accepts' text := by
  -- On the expression: only its atoms look at the text.
  induction e with
  | atom a =>
    funext i
    show readAt (accepts a) (text.map f) i = readAt (accepts' a) text i
    unfold readAt
    rw [Array.getElem?_map, Option.any_map, funext (h a)]
  | group body ih => exact ih
  | once body ih => exact ih
  | repeated body rounds ih =>
    funext i
    show rounds.ends true (text.map f).size (body.ends accepts (text.map f)) i = _
    rw [ih, Array.size_map]
    rfl
  | empty => rfl
  | next first rest ihf ihr =>
    funext i
    show (first.ends accepts (text.map f) i).flatMap (rest.ends accepts (text.map f)) = _
    rw [ihf, ihr]
    rfl
  | only last ih => exact ih
  | or first rest ihf ihr =>
    funext i
    show first.ends accepts (text.map f) i ++ rest.ends accepts (text.map f) i = _
    rw [ihf, ihr]
    rfl

/-- So its matches are found at the same places. -/
theorem Expr.spans_map (f : τ → σ) (h : ∀ a c, accepts a (f c) = accepts' a c) (text : Array τ)
    (e : Expr α .choice) : e.spans accepts (text.map f) = e.spans accepts' text := by
  unfold Expr.spans
  rw [e.ends_map f h text, Array.size_map]

end

/-! ### Stretches -/

/-- What stands between two places of a list. -/
def stretch {α : Type} (xs : List α) (span : Nat × Nat) : List α :=
  xs.extract span.1 span.2

/-- A stretch is part of the list. -/
theorem stretch_isInfix {α : Type} (xs : List α) (span : Nat × Nat) : stretch xs span <:+: xs :=
  (List.take_prefix _ _).isInfix.trans (List.drop_suffix _ _).isInfix

/-- A stretch between two places is not empty. -/
theorem stretch_ne_nil {α : Type} {xs : List α} {span : Nat × Nat} (h : span.1 < span.2)
    (hlast : span.2 ≤ xs.length) : stretch xs span ≠ [] := by
  intro hnil
  have hlength := congrArg List.length hnil
  unfold stretch at hlength
  rw [List.length_take, List.length_drop, List.length_nil] at hlength
  omega

/-- Stretches that stand one behind the other are in the order of the list and share no place. -/
theorem flatten_stretches {α : Type} (xs : List α) {spans : List (Nat × Nat)} {base : Nat}
    (hbase : ∀ span ∈ spans, base ≤ span.1 ∧ span.1 ≤ span.2)
    (apart : spans.Pairwise fun span later => span.2 ≤ later.1) :
    ((spans.map (stretch xs)).flatten).Sublist (xs.drop base) := by
  induction spans generalizing base with
  | nil => exact List.nil_sublist _
  | cons span spans ih =>
    obtain ⟨hlater, apart⟩ := List.pairwise_cons.1 apart
    obtain ⟨hfirst, hspan⟩ := hbase span List.mem_cons_self
    have hrest := ih
      (fun later h => ⟨hlater later h, (hbase later (List.mem_cons_of_mem _ h)).2⟩) apart
    -- The list from the stretch on is the stretch and what stands behind it.
    have hsplit : stretch xs span ++ xs.drop span.2 = xs.drop span.1 := by
      have hdrop : xs.drop span.2 = (xs.drop span.1).drop (span.2 - span.1) := by
        rw [List.drop_drop, Nat.add_sub_cancel' hspan]
      rw [hdrop]
      exact List.take_append_drop _ _
    have hskip : (xs.drop span.1).Sublist (xs.drop base) := by
      rw [← Nat.add_sub_cancel' hfirst, ← List.drop_drop]
      exact List.drop_sublist _ _
    rw [List.map_cons, List.flatten_cons]
    refine List.Sublist.trans ?_ hskip
    rw [← hsplit]
    exact hrest.append_left _

/-! ### Runs -/

/-- The real instructions with their opcodes are the real instructions and their opcodes. -/
theorem map_reals (l : Listing) :
    (reals l).toList.map (·.1) = l.reals ∧ (reals l).toList.map (·.2) = l.opcodes := by
  unfold reals Listing.reals Listing.opcodes
  rw [List.map_filterMap, List.map_filterMap, ← List.filterMap_eq_filter]
  constructor
  · congr 1
    funext h
    rw [Option.map_map]
    show ((l.get h).opcode?.map fun _ => h) = if (l.get h).opcode?.isSome then some h else none
    cases (l.get h).opcode? <;> rfl
  · congr 1
    funext h
    rw [Option.map_map]
    exact Option.map_id'

/-- Every real instruction has an opcode. -/
theorem length_opcodes (l : Listing) : l.opcodes.length = l.reals.length := by
  rw [← (map_reals l).1, ← (map_reals l).2, List.length_map, List.length_map]

namespace Automaton

variable {a : Automaton} {text : Array Char} {base i e s : Nat}

/-- The end of a match stands at or behind the positions that the search for it comes from. -/
theorem bounds_of_explore {fuel : Nat} {visits visits' : Visits} {pending : List (Nat × Nat)}
    (h : a.explore text base fuel visits pending = (some e, visits'))
    (hpending : ∀ x ∈ pending, i ≤ x.2 ∧ x.2 ≤ text.size) : i ≤ e ∧ e ≤ text.size := by
  induction fuel generalizing visits pending with
  | zero => cases h
  | succ fuel ih =>
    cases pending with
    | nil => cases h
    | cons x pending =>
      obtain ⟨q, k⟩ := x
      obtain ⟨hfirst, hrest⟩ := List.forall_mem_cons.1 hpending
      rw [explore] at h
      split at h
      · exact ih h hrest
      · split at h
        · exact ih h hrest
        · cases h
          exact hfirst
        · refine ih h fun x hx => ?_
          rcases List.mem_append.1 hx with hx | hx
          · obtain ⟨hle, -, hsize⟩ := mem_steps hx
            exact ⟨hfirst.1.trans hle, hsize hfirst.2⟩
          · exact hrest x hx

/-- A match that is found begins at or behind the place of the search and ends within the text. -/
theorem bounds_of_findFrom {count : Nat} {visits : Visits}
    (h : a.findFrom text base i visits count = some (s, e)) (hcount : i + count ≤ text.size + 1) :
    i ≤ s ∧ s ≤ e ∧ e ≤ text.size := by
  induction count generalizing i visits with
  | zero => cases h
  | succ count ih =>
    rw [findFrom] at h
    split at h
    · next hfound =>
      cases h
      refine ⟨Nat.le_refl _, bounds_of_explore hfound fun x hx => ?_⟩
      cases List.mem_singleton.1 hx
      exact ⟨Nat.le_refl _, by omega⟩
    · obtain ⟨hle, hrest⟩ := ih h (by omega)
      exact ⟨Nat.le_of_succ_le hle, hrest⟩

/-- The matches stand one behind the other. -/
theorem findAllFrom_apart (a : Automaton) (text : Array Char) (i : Nat) (last : Option Nat)
    (fuel : Nat) :
    (∀ span ∈ a.findAllFrom text i last fuel, i ≤ span.1 ∧ span.1 ≤ span.2 ∧ span.2 ≤ text.size) ∧
      (a.findAllFrom text i last fuel).Pairwise fun span later => span.2 ≤ later.1 := by
  induction fuel generalizing i last with
  | zero => exact ⟨List.forall_mem_nil _, .nil⟩
  | succ fuel ih =>
    rw [findAllFrom]
    split
    · exact ⟨List.forall_mem_nil _, .nil⟩
    · next s e hfound =>
      have hbounds : i ≤ s ∧ s ≤ e ∧ e ≤ text.size := by
        by_cases hi : i ≤ text.size + 1
        · exact bounds_of_findFrom hfound (by omega)
        · rw [find?, Nat.sub_eq_zero_of_le (by omega)] at hfound
          cases hfound
      split
      · obtain ⟨hspans, apart⟩ := ih (i + 1) last
        exact ⟨fun span hspan => ⟨Nat.le_of_succ_le (hspans span hspan).1, (hspans span hspan).2⟩,
          apart⟩
      · obtain ⟨hspans, apart⟩ := ih e (some e)
        refine ⟨List.forall_mem_cons.2 ⟨hbounds, fun span hspan => ?_⟩,
          List.pairwise_cons.2 ⟨fun span hspan => (hspans span hspan).1, apart⟩⟩
        exact ⟨(hbounds.1.trans hbounds.2.1).trans (hspans span hspan).1, (hspans span hspan).2⟩

end Automaton

/-- The runs are the stretches of real instructions at the matches that are not empty. -/
theorem runs_eq_stretches {E : Engine} (p : PatternOf E) (l : Listing) :
    runsBy p l = ((E.findAll p.program ((reals l).map fun x => symbol x.2)).filter
      fun span => span.1 != span.2).map (stretch l.reals) := by
  refine List.map_congr_left fun span _ => ?_
  show ((reals l).extract span.1 span.2).toList.map (·.1) = stretch l.reals span
  rw [Array.toList_extract, ← (map_reals l).1]
  exact List.map_take.trans (congrArg _ List.map_drop)

/-- The runs of any pattern are stretches of real instructions, come in list order and share no
instruction. -/
theorem runs_apart (p : Pattern) (l : Listing) :
    (∀ run ∈ p.runs l, run ≠ [] ∧ run <:+: l.reals) ∧ (p.runs l).flatten.Sublist l.reals ∧
      (l.handles.Nodup → (p.runs l).Pairwise List.Disjoint) := by
  let text := (reals l).map fun x => symbol x.2
  obtain ⟨hspans, apart⟩ :=
    p.program.automaton.findAllFrom_apart text 0 none (2 * text.size + 3)
  have hflat : (p.runs l).flatten.Sublist l.reals := by
    rw [runs, runs_eq_stretches]
    have hbase : ∀ span ∈ (p.program.automaton.findAll text).filter fun span => span.1 != span.2,
        0 ≤ span.1 ∧ span.1 ≤ span.2 := by
      intro span hspan
      obtain ⟨hfirst, hspan, -⟩ := hspans span (List.mem_of_mem_filter hspan)
      exact ⟨hfirst, hspan⟩
    exact flatten_stretches l.reals hbase (apart.filter _)
  refine ⟨fun run hrun => ?_, hflat, fun nodup =>
    (List.nodup_flatten.1 (hflat.nodup (nodup.filter _))).2⟩
  rw [runs, runs_eq_stretches] at hrun
  obtain ⟨span, hspan, rfl⟩ := List.mem_map.1 hrun
  obtain ⟨hmem, hne⟩ := List.mem_filter.1 hspan
  obtain ⟨-, hle, hsize⟩ := hspans span hmem
  have hlength : (reals l).size = l.reals.length := by
    rw [← (map_reals l).1, List.length_map, Array.length_toList]
  refine ⟨stretch_ne_nil (lt_of_le_of_ne hle (by simpa using hne)) ?_, stretch_isInfix _ _⟩
  rwa [Array.size_map, hlength] at hsize

/-- What is compiled of a text that spells an expression. -/
theorem compile_of_spells (E : Engine) {source : String} {e : Expr Atom .choice}
    (spells : Spells source.toList e.lexemes) :
    compileBy E source = match E.compile? e.expansion with
      | none => .error (.badPattern source)
      | some program => .ok ⟨source, program⟩ := by
  unfold compileBy
  rw [spells.expand]
  rfl

/-- A text that spells an expression is compiled if the expansion is. -/
theorem exists_compile_iff {E : Engine} {source : String} {e : Expr Atom .choice}
    (spells : Spells source.toList e.lexemes) :
    (∃ p, compileBy E source = .ok p) ↔ (E.compile? e.expansion).isSome = true := by
  rw [compile_of_spells E spells]
  cases E.compile? e.expansion with
  | none => exact iff_of_false nofun Bool.false_ne_true
  | some program => exact iff_of_true ⟨_, rfl⟩ rfl

/-- A text that spells an expression is compiled to it. -/
theorem compile_eq_ok {source : String} {e : Expr Atom .choice}
    (spells : Spells source.toList e.lexemes) (hdepth : e.depth ≤ depthLimit) :
    compile source = .ok ⟨source, e.part.regex⟩ := by
  rw [compile, compile_of_spells automata spells, compile?_expansion, if_pos hdepth]

/-- The pattern of a text that spells an expression matches that. -/
theorem ofText_eq {source : String} {e : Expr Atom .choice}
    (spells : Spells source.toList e.lexemes) (hdepth : e.depth ≤ depthLimit) :
    ofText source = ⟨source, e.part.regex⟩ := by
  rw [ofText, compile_eq_ok spells hdepth]

/-- The runs are the stretches of real instructions where the expression matches their opcodes. -/
theorem runs_eq {E : Engine} {source : String} {e : Expr Atom .choice}
    (spells : Spells source.toList e.lexemes) (engine : E.LeftmostFirst e) {p : PatternOf E}
    (hp : compileBy E source = .ok p) (l : Listing) :
    runsBy p l = (e.spans Atom.accepts l.opcodes.toArray).map (stretch l.reals) := by
  rw [compile_of_spells E spells] at hp
  cases hprogram : E.compile? e.expansion with
  | none =>
    rw [hprogram] at hp
    cases hp
  | some program =>
    rw [hprogram] at hp
    cases hp
    have htext : (reals l).map (fun x => symbol x.2) = l.opcodes.toArray.map symbol := by
      apply Array.ext'
      rw [← (map_reals l).2, Array.toList_map, Array.toList_map, List.map_map]
      rfl
    have hspans := engine program hprogram (l.opcodes.toArray.map symbol)
    rw [e.spans_map symbol Atom.reads_symbol] at hspans
    rw [runs_eq_stretches, htext]
    exact congrArg _ hspans

/-- A well-formed pattern is compiled if the engine compiles its expansion, which automata do unless it
is nested too deep. With an engine that is leftmost-first its runs are the leftmost-first matches that
are not empty of what it spells, in the opcodes of the real instructions. Each run is a contiguous
stretch of these; the runs come in list order and share no instruction. -/
theorem runs_of_spells {E : Engine} {source : String} {e : Expr Atom .choice}
    (spells : Spells source.toList e.lexemes) (engine : E.LeftmostFirst e) :
    ((∃ p, compileBy E source = .ok p) ↔ (E.compile? e.expansion).isSome) ∧
    ((∃ p, compile source = .ok p) ↔ e.depth ≤ depthLimit) ∧
      ∀ p, compileBy E source = .ok p → ∀ l : Listing,
        runsBy p l = (e.spans Atom.accepts l.opcodes.toArray).map (stretch l.reals) ∧
        (∀ run ∈ runsBy p l, run ≠ [] ∧ run <:+: l.reals) ∧
        (runsBy p l).flatten.Sublist l.reals ∧
        (l.handles.Nodup → (runsBy p l).Pairwise List.Disjoint) := by
  refine ⟨exists_compile_iff spells, ?_, fun p hp l => ?_⟩
  · rw [compile, exists_compile_iff spells, compile?_expansion]
    by_cases hdepth : e.depth ≤ depthLimit
    · rw [if_pos hdepth]
      exact iff_of_true rfl hdepth
    · rw [if_neg hdepth]
      exact iff_of_false Bool.false_ne_true hdepth
  · have hruns := runs_eq spells engine hp l
    obtain ⟨hspans, apart⟩ := e.spans_spec Atom.accepts l.opcodes.toArray
    -- The spans do not overlap, so their stretches are one behind the other among the real
    -- instructions.
    have hflat : (runsBy p l).flatten.Sublist l.reals := by
      rw [hruns]
      exact flatten_stretches l.reals
        (fun span hspan => ⟨Nat.zero_le _, (hspans span hspan).1.le⟩) apart
    refine ⟨hruns, fun run hrun => ?_, hflat, fun nodup => ?_⟩
    · rw [hruns] at hrun
      obtain ⟨span, hspan, rfl⟩ := List.mem_map.1 hrun
      obtain ⟨hlt, hlast, -⟩ := hspans span hspan
      refine ⟨stretch_ne_nil hlt ?_, stretch_isInfix _ _⟩
      rwa [List.size_toArray, length_opcodes] at hlast
    · exact (List.nodup_flatten.1 (hflat.nodup (nodup.filter _))).2

/-- The word for constants. -/
def constantWord : Atom :=
  .among "ICONST" [⟨2⟩, ⟨3⟩, ⟨4⟩, ⟨5⟩, ⟨6⟩, ⟨7⟩, ⟨8⟩] (by decide +kernel)

/-- The word for a return without a value. -/
def returnWord : Atom :=
  .one "RETURN" .returnVoid (Opcode.ofMnemonic?_eq_some (by decide +kernel))

/-- A constant and any instruction, once or more, in front of a return: `(ICONST ANY)+ RETURN`. -/
def pushesThenReturn : Expr Atom .choice :=
  .only (.next (.repeated (.group (.only (.next (.once (.atom constantWord))
    (.next (.once (.atom .any)) .empty)))) .atLeastOne)
    (.next (.once (.atom returnWord)) .empty))

/-- The text spells the expression. -/
theorem spells_pushesThenReturn :
    Spells "(ICONST ANY)+ RETURN".toList pushesThenReturn.lexemes := by
  have hsource : "(ICONST ANY)+ RETURN".toList =
      '(' :: (constantWord.name.toList ++ ' ' :: (Atom.any.name.toList ++
        ')' :: '+' :: ' ' :: (returnWord.name.toList ++ []))) := by decide +kernel
  rw [hsource]
  refine .sign rfl (.word ?_ (.blank (by decide) (.word ?_ (.sign rfl (.sign rfl
    (.blank (by decide) (.word nofun .nil)))))))
  · rintro c ⟨⟩
    decide
  · rintro c ⟨⟩
    decide

/-- A listing of two constants, each of which is popped, and a return, with a label and a line marker
between them. -/
def pushesAndReturn : Listing where
  nodes := #[⟨.plain ⟨3⟩, none⟩, ⟨.label, none⟩, ⟨.plain .pop, none⟩, ⟨.plain ⟨4⟩, none⟩,
    ⟨.line 7, none⟩, ⟨.plain .pop, none⟩, ⟨.plain .returnVoid, none⟩]
  order := #[0, 1, 2, 3, 4, 5, 6]

/-- The label and the line marker neither belong to the run nor interrupt it. -/
theorem runs_pushesThenReturn :
    Spells "(ICONST ANY)+ RETURN".toList pushesThenReturn.lexemes ∧
      automata.LeftmostFirst pushesThenReturn ∧
      ∃ p, compile "(ICONST ANY)+ RETURN" = .ok p ∧
        p.runs pushesAndReturn = [[0, 2, 3, 5, 6]] := by
  have hone : pushesThenReturn.IsUnshared 0 := by
    intro htwo
    exact absurd htwo (by decide)
  have hclear : pushesThenReturn.IsClear 0 :=
    ⟨⟨⟨fun htwo => absurd htwo (by decide), trivial, trivial, trivial⟩, fun _ => rfl⟩,
      trivial, trivial⟩
  have hengine := pushesThenReturn.leftmostFirst hone hclear
  have hruns := runs_of_spells spells_pushesThenReturn hengine
  obtain ⟨p, hp⟩ := hruns.2.1.2 (by decide)
  refine ⟨spells_pushesThenReturn, hengine, p, hp, ?_⟩
  rw [runs, (hruns.2.2 p hp pushesAndReturn).1]
  decide +kernel

end Pattern

end Unscramble
