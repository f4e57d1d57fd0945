import Unscramble.Pattern.Basic
import Unscramble.Proofs.Pattern.Parsing
import Unscramble.Proofs.Pattern.Searching

/-! # Automata are leftmost-first

An engine is leftmost-first if from the left on it finds those matches of an expression that come first
when its ways are tried in order. Of the engine that compiles expressions to automata this is shown: what
is read of a pattern's expansion matches what the pattern matches, with characters for opcodes, and the
automaton finds its leftmost-first matches. Two kinds of patterns are left out. Where a
repetition has rounds that read nothing, an automaton that visits no node twice in one place need
not take the first of them; and where all alternatives begin with the same repetition, it is taken
out of them and matched before one of them is chosen.

Main definitions: `Engine.LeftmostFirst`, `Expr.IsClear`.
Main statements: `Expr.leftmostFirst`, `not_leftmostFirst_sharedLoad`. -/

namespace Unscramble.Pattern

/-- Whether an engine matches the expansion of an expression leftmost-first: if it compiles it, the
matches that are found in a text and are not empty are the ones of the expression over characters.
This is asked of one expression, since there are some for which it does not hold of automata. -/
def Engine.LeftmostFirst (E : Engine) (e : Expr Atom .choice) : Prop :=
  ∀ program, E.compile? e.expansion = some program → ∀ text : Array Char,
    (E.findAll program text).filter (fun (s, e) => s != e) = e.spans Atom.reads text

/-! ### Clear expressions -/

/-- Whether all matches of an expression read something. -/
def Expr.consumes {α : Type} : {rank : Rank} → Expr α rank → Bool
  | _, .atom _ => true
  | _, .group body | _, .once body | _, .repeated body .atLeastOne | _, .only body => body.consumes
  | _, .repeated _ _ | _, .empty => false
  | _, .next first rest => first.consumes || rest.consumes
  | _, .or first rest => first.consumes && rest.consumes

/-- Whether there is at most one way to match what all alternatives of a choice begin with. -/
def Expr.IsUnshared (e : Expr Atom .choice) (count : Nat) : Prop :=
  2 ≤ (e.partsFrom count).length → ∀ front : List Regex,
    (∀ part ∈ e.partsFrom count, front <+: part.regex.parts) → ∀ p ∈ front, p.isRigid = true

/-- Whether the rounds of all repetitions of several rounds read something, and no choice begins with
a repetition that its alternatives have in common. The expression is read behind `count` groups. -/
def Expr.IsClear : {rank : Rank} → Expr Atom rank → (count : Nat) → Prop
  | _, .atom _, _ | _, .empty, _ => True
  | _, .group body, count => body.IsUnshared (count + 1) ∧ body.IsClear (count + 1)
  | _, .once body, count | _, .only body, count => body.IsClear count
  | _, .repeated body rounds, count =>
    body.IsClear count ∧ (rounds ≠ .atMostOne → body.consumes = true)
  | _, .next first rest, count => first.IsClear count ∧ rest.IsClear (count + first.groups)
  | _, .or first rest, count => first.IsClear count ∧ rest.IsClear (count + first.groups)

/-- What consumes ends behind where it begins. -/
theorem Expr.lt_of_consumes {α σ : Type} {accepts : α → σ → Bool} {text : Array σ} {rank : Rank}
    {e : Expr α rank} (h : e.consumes = true) : ∀ i, ∀ j ∈ e.ends accepts text i, i < j := by
  -- On the expression: rounds consume only if there is one at least, and a sequence if one of its
  -- parts does.
  induction e with
  | atom a =>
    intro i j hj
    have := of_mem_readAt hj
    omega
  | group body ih => exact ih h
  | once body ih => exact ih h
  | repeated body rounds ih =>
    cases rounds with
    | atMostOne => cases h
    | any => cases h
    | atLeastOne =>
      intro i j hj
      obtain ⟨m, hm, hj⟩ := List.mem_flatMap.1 hj
      have hfirst := ih h i m hm
      rw [if_pos hfirst] at hj
      have hbody := body.ends_bounds accepts text
      rcases mem_preferring.1 hj with hj | hj
      · have := roundsFrom_bounds hbody _ m j hj
        omega
      · cases List.mem_singleton.1 hj
        exact hfirst
  | empty => cases h
  | next first rest ihf ihr =>
    intro i j hj
    obtain ⟨m, hm, hj⟩ := List.mem_flatMap.1 hj
    have hfirst := first.ends_bounds accepts text i m hm
    have hrest := rest.ends_bounds accepts text m j hj
    rcases Bool.or_eq_true_iff.1 h with h | h
    · have := ihf h i m hm
      omega
    · have := ihr h m j hj
      omega
  | only last ih => exact ih h
  | or first rest ihf ihr =>
    intro i j hj
    obtain ⟨hf, hr⟩ := Bool.and_eq_true_iff.1 h
    exact (List.mem_append.1 hj).elim (ihf hf i j) (ihr hr i j)

/-! ### Meaning -/

/-- Ends that may be exchanged are the same apart from their order. -/
theorem Alike.mem_iff {es fs : List Nat} (h : Alike es fs) (j : Nat) : j ∈ es ↔ j ∈ fs := by
  have found : ∀ l : List Nat, j ∈ l ↔ (l.findSome? fun i => if i = j then some i else none) ≠ none := by
    intro l
    rw [ne_eq, List.findSome?_eq_none_iff]
    constructor
    · intro hj hnone
      have := hnone j hj
      rw [if_pos rfl] at this
      cases this
    · intro hsome
      by_contra hj
      refine hsome fun i hi => if_neg ?_
      rintro rfl
      exact hj hi
  rw [found, found, h]

/-- An expression all of whose matches are empty ends where it begins. -/
theorem Regex.eq_of_onlyEmpty {text : Array Char} {r : Regex} (h : r.onlyEmpty = true) :
    ∀ i, ∀ j ∈ r.ends text i, j = i := by
  -- On the expression; of repetitions only those of at most one round can be such.
  induction r with
  | empty => exact fun i j hj => List.mem_singleton.1 hj
  | literal | oneOf => cases h
  | anchor place =>
    intro i j hj
    rw [ends] at hj
    split at hj
    · exact List.mem_singleton.1 hj
    · cases hj
  | group _ body ih => exact ih h
  | repetition rounds greedy body ih =>
    obtain ⟨hrounds, hbody⟩ := Bool.and_eq_true_iff.1 h
    cases eq_of_beq hrounds
    intro i j hj
    exact (mem_preferring.1 hj).elim (ih hbody i j) List.mem_singleton.1
  | seq first second ihf ihs =>
    obtain ⟨hf, hs⟩ := Bool.and_eq_true_iff.1 h
    intro i j hj
    obtain ⟨m, hm, hj⟩ := List.mem_flatMap.1 hj
    cases ihf hf i m hm
    exact ihs hs i j hj
  | alt first second ihf ihs =>
    obtain ⟨hf, hs⟩ := Bool.and_eq_true_iff.1 h
    intro i j hj
    exact (List.mem_append.1 hj).elim (ihf hf i j) (ihs hs i j)

/-- One round is enough where rounds read nothing. -/
theorem Regex.ends_repeated {text : Array Char} (rounds : Rounds) (greedy : Bool) (body : Regex)
    (i : Nat) :
    (repeated rounds greedy body).ends text i = rounds.ends greedy text.size (body.ends text) i := by
  unfold repeated
  split
  case isTrue hempty =>
    have hround : roundsFrom greedy (body.ends text) (text.size + 1) i = body.ends text i := by
      rw [roundsFrom]
      have hlast : ∀ j ∈ body.ends text i, (if i < j then
          preferring greedy (roundsFrom greedy (body.ends text) text.size j) [j] else [j]) = [j] := by
        intro j hj
        rw [eq_of_onlyEmpty hempty i j hj, if_neg (Nat.lt_irrefl i)]
      rw [List.flatMap_congr hlast, List.flatMap_singleton']
    cases rounds with
    | atMostOne => rfl
    | any =>
      show preferring greedy (body.ends text i) [i] = preferring greedy (roundsFrom _ _ _ i) [i]
      rw [hround]
    | atLeastOne => exact hround.symm
  case isFalse => rfl

section

variable {text : Array Char}

/-- The set of all characters but the line feed. -/
theorem contains_anyChar :
    CharSet.IsValid anyChar ∧ ∀ c, anyChar.contains c = (c != '\n') := by
  have heq : anyChar = [⟨0, 9⟩, ⟨11, lastCodePoint⟩] := by decide
  refine ⟨?_, fun c => ?_⟩
  · rw [heq]
    unfold CharSet.IsValid CharRange.IsValid
    decide
  · have hlast : c.toNat ≤ lastCodePoint := by
      have := c.valid
      unfold lastCodePoint
      rcases this with h | h
      · change c.toNat < _ at h
        omega
      · have := h.2
        change c.toNat < _ at this
        omega
    have hfeed : c = '\n' ↔ c.toNat = 10 := Char.toNat_inj.symm
    rw [heq, Bool.eq_iff_iff, bne_iff_ne, ne_eq, hfeed]
    simp only [CharSet.contains, List.any_cons, List.any_nil, CharRange.contains, Bool.or_false,
      Bool.or_eq_true, Bool.and_eq_true, decide_eq_true_eq]
    omega

/-- The set of the symbols of opcodes. -/
theorem contains_symbols (ops : List Opcode) :
    (Atom.symbols ops).IsValid ∧
      ∀ c, (Atom.symbols ops).contains c = (ops.map symbol).contains c := by
  have hsets : ∀ set ∈ ops.map fun op => CharSet.single (symbol op), CharSet.IsValid set := by
    intro set hset
    obtain ⟨op, -, rfl⟩ := List.mem_map.1 hset
    exact CharSet.isValid_single _
  have hempty : CharSet.IsValid [] := fun r hr => absurd hr List.not_mem_nil
  obtain ⟨hvalid, hcontains⟩ := CharSet.contains_foldl_union hsets hempty
  refine ⟨hvalid, fun c => ?_⟩
  rw [Atom.symbols, hcontains, Bool.eq_iff_iff]
  simp only [CharSet.contains_single, List.any_map, List.contains_iff_mem, List.mem_map,
    Bool.or_eq_true, List.any_eq_true, Function.comp_apply, beq_iff_eq]
  constructor
  · rintro (h | ⟨op, hop, rfl⟩)
    · cases h
    · exact ⟨op, hop, rfl⟩
  · rintro ⟨op, hop, rfl⟩
    exact .inr ⟨op, hop, rfl⟩

/-- What is read of a word's expansion matches the characters that the expansion does. -/
theorem Atom.part_spec (text : Array Char) (a : Atom) :
    a.part.regex.IsPart ∧ a.part.regex.IsSteady text ∧
      ∀ i, a.part.regex.ends text i = readAt a.reads text i := by
  cases a with
  | any => exact ⟨contains_anyChar.1, trivial, readAt_congr contains_anyChar.2 text⟩
  | one name op known =>
    refine ⟨trivial, trivial, fun i => ?_⟩
    show (readAt _ text i).flatMap (fun j => [j]) = _
    rw [List.flatMap_singleton']
    exact readAt_congr (CharSet.contains_single _) text i
  | among name ops known =>
    obtain ⟨hvalid, hcontains⟩ := contains_symbols ops
    refine ⟨?_, ?_, fun i => ?_⟩
    · show (Regex.ofSet _).IsPart
      unfold Regex.ofSet
      split
      · exact trivial
      · exact hvalid
    · show (Regex.ofSet _).IsSteady text
      unfold Regex.ofSet
      split <;> exact trivial
    · show (Regex.ofSet _).ends text i = _
      rw [Regex.ends_ofSet hvalid]
      exact readAt_congr hcontains text i

/-- Whether the parts of a sequence mean what the ends of its matches are. -/
structure MeansSequence (text : Array Char) (parts : List Part) (ends : Nat → List Nat) : Prop where
  /-- The parts may stand in a sequence. -/
  isPart : ∀ part ∈ parts, part.regex.IsPart
  /-- Further rounds read something. -/
  steady : ∀ part ∈ parts, part.regex.IsSteady text
  /-- The parts one after the other prefer the same ends. -/
  alike : ∀ i, Alike (sequenceEnds text (parts.map (·.regex)) i) (ends i)

/-- Whether the alternatives of a choice mean what the ends of its matches are. -/
structure MeansChoice (text : Array Char) (parts : List Part) (ends : Nat → List Nat) : Prop where
  /-- The alternatives are sequences in their simple form. -/
  normal : ∀ part ∈ parts, ∃ ps, part.regex = Regex.ofParts ps ∧ IsNormal ps ∧
    ∀ p ∈ ps, p.IsSteady text
  /-- There is an alternative. -/
  nonempty : parts ≠ []
  /-- The alternatives one after the other prefer the same ends. -/
  alike : ∀ i, Alike (parts.flatMap fun part => part.regex.ends text i) (ends i)

/-- Whether parts mean what the ends of the matches of an expression of a rank are. -/
def Means (text : Array Char) : Rank → List Part → (Nat → List Nat) → Prop
  | .choice => MeansChoice text
  | _ => MeansSequence text

/-- The alternatives of a choice in its simple form, if there is at most one way to match what they
all begin with. -/
theorem MeansChoice.choice {parts : List Part} {ends : Nat → List Nat}
    (h : MeansChoice text parts ends)
    (unshared : 2 ≤ parts.length → ∀ front : List Regex,
      (∀ part ∈ parts, front <+: part.regex.parts) → ∀ p ∈ front, p.isRigid = true) :
    (Part.choice parts).regex.IsSteady text ∧
      ∀ i, Alike ((Part.choice parts).regex.ends text i) (ends i) := by
  -- One alternative is itself; of several ones the common beginning is factored out.
  match parts with
  | [] => exact absurd rfl h.nonempty
  | [part] =>
    obtain ⟨ps, hps, -, hsteady⟩ := h.normal part List.mem_cons_self
    refine ⟨?_, fun i => ?_⟩
    · show part.regex.IsSteady text
      rw [hps]
      exact isSteady_ofParts hsteady
    · have := h.alike i
      rwa [List.flatMap_singleton] at this
  | part :: part' :: parts =>
    show (Regex.alternation ((part :: part' :: parts).map (·.regex))).IsSteady text ∧
      ∀ i, Alike ((Regex.alternation ((part :: part' :: parts).map (·.regex))).ends text i) (ends i)
    generalize part :: part' :: parts = all at h unshared
    have hparts : ∀ part ∈ all, part.regex = Regex.ofParts part.regex.parts ∧
        IsNormal part.regex.parts ∧ ∀ p ∈ part.regex.parts, p.IsSteady text := by
      intro part hpart
      obtain ⟨ps, hps, hnormal, hsteady⟩ := h.normal part hpart
      have heq : part.regex.parts = ps := by rw [hps, IsNormal.parts hnormal.1]
      rw [heq]
      exact ⟨hps, hnormal, hsteady⟩
    have hmap : all.map (·.regex) = (all.map (·.regex.parts)).map Regex.ofParts := by
      rw [List.map_map]
      exact List.map_congr_left fun part hpart => (hparts part hpart).1
    have hchoosable : IsChoosable text (all.map (·.regex.parts)) := by
      refine ⟨List.forall_mem_map.2 fun part hpart => (hparts part hpart).2.1,
        List.forall_mem_map.2 fun part hpart => (hparts part hpart).2.2, fun htwo front hfront => ?_⟩
      rw [List.length_map] at htwo
      exact unshared htwo front (List.forall_mem_map.1 hfront)
    have hends : ∀ i, ((all.map (·.regex.parts)).flatMap fun ps => sequenceEnds text ps i) =
        all.flatMap fun part => part.regex.ends text i := by
      intro i
      rw [List.flatMap_map]
      exact List.flatMap_congr fun part _ => sequenceEnds_parts part.regex i
    unfold Regex.alternation
    rw [hmap]
    obtain ⟨hsteady, halike⟩ := alternationIn_spec _ hchoosable
    refine ⟨hsteady, fun i => (halike i).trans ?_⟩
    rw [hends]
    exact h.alike i

/-- Parts one after the other are an alternative of a choice. -/
theorem MeansSequence.inSequence {parts : List Part} {ends : Nat → List Nat}
    (h : MeansSequence text parts ends) :
    (∃ ps, (Part.sequence parts).regex = Regex.ofParts ps ∧ IsNormal ps ∧
        ∀ p ∈ ps, p.IsSteady text) ∧
      ∀ i, Alike ((Part.sequence parts).regex.ends text i) (ends i) := by
  have hpart : ∀ p ∈ parts.map (·.regex), p.IsPart := List.forall_mem_map.2 h.isPart
  have hsteady : ∀ p ∈ parts.map (·.regex), p.IsSteady text := List.forall_mem_map.2 h.steady
  refine ⟨⟨Regex.joinLiterals (parts.map (·.regex)), ?_, .joinLiterals hpart,
    isSteady_joinLiterals hsteady⟩, fun i => ?_⟩
  · show Regex.concat (parts.map (·.regex)) = _
    rw [Regex.concat, IsNormal.flatMap_parts hpart]
  · show Alike ((Regex.concat (parts.map (·.regex))).ends text i) (ends i)
    rw [Regex.ends_concat]
    exact h.alike i

/-- A unit means what its only part does. -/
theorem MeansSequence.of_single {part : Part} {ends : Nat → List Nat} (hpart : part.regex.IsPart)
    (hsteady : part.regex.IsSteady text) (h : ∀ i, Alike (part.regex.ends text i) (ends i)) :
    MeansSequence text [part] ends where
  isPart := List.forall_mem_singleton.2 hpart
  steady := List.forall_mem_singleton.2 hsteady
  alike := by
    intro i
    show Alike (sequenceEnds text [part.regex] i) (ends i)
    rw [sequenceEnds_singleton]
    exact h i

/-- A unit that is repeated, where every further round reads something. -/
theorem MeansSequence.repeated {part : Part} {ends : Nat → List Nat}
    (h : MeansSequence text [part] ends) (rounds : Rounds)
    (further : rounds ≠ .atMostOne → ∀ i, ∀ j ∈ ends i, i < j) :
    MeansSequence text [⟨.repeated rounds true part.regex, part.depth + 1⟩]
      (rounds.ends true text.size ends) := by
  have hpart := h.isPart part List.mem_cons_self
  have hsteady := h.steady part List.mem_cons_self
  have halike : ∀ i, Alike (part.regex.ends text i) (ends i) := by
    intro i
    have := h.alike i
    rwa [List.map_singleton, sequenceEnds_singleton] at this
  refine .of_single ?_ ?_ fun i => ?_
  · show (Regex.repeated rounds true part.regex).IsPart
    unfold Regex.repeated
    -- A repetition is one part, whatever becomes of it in its simple form.
    cases part.regex.onlyEmpty <;> cases rounds <;> first | exact hpart | exact trivial
  · show (Regex.repeated rounds true part.regex).IsSteady text
    unfold Regex.repeated
    split
    -- What matches nothing but the empty text is not repeated, and one round of it is as good as
    -- many.
    case isTrue =>
      cases rounds with
      | atLeastOne => exact hsteady
      | atMostOne | any => exact ⟨hsteady, fun hne => absurd rfl hne⟩
    case isFalse =>
      exact ⟨hsteady, fun hne i j hj => further hne i j (((halike i).mem_iff j).1 hj)⟩
  · rw [Regex.ends_repeated]
    exact Alike.rounds halike rounds i

/-- The parts of an expression mean what it matches. -/
theorem Expr.means (text : Array Char) {rank : Rank} (e : Expr Atom rank) :
    ∀ count, e.IsClear count → Means text rank (e.partsFrom count) (e.ends Atom.reads text) := by
  -- On the expression, for every number of groups in front of it; groups are told apart by that
  -- number.
  induction e with
  | atom a =>
    intro count _
    obtain ⟨hpart, hsteady, hends⟩ := a.part_spec text
    refine .of_single hpart hsteady fun i => ?_
    rw [hends]
    exact Alike.refl _
  | group body ih =>
    intro count hclear
    obtain ⟨hsteady, halike⟩ := (ih (count + 1) hclear.2).choice hclear.1
    exact .of_single trivial hsteady halike
  | once body ih => exact ih
  -- The body of a repetition is a unit, so there is one part to repeat.
  | repeated body rounds ih =>
    intro count hclear
    obtain ⟨part, hpart⟩ := body.partsFrom_unit count
    have hbody : MeansSequence text [part] (body.ends Atom.reads text) := hpart ▸ ih count hclear.1
    have hrepeated := hbody.repeated rounds fun hne => lt_of_consumes (hclear.2 hne)
    show MeansSequence text ((body.partsFrom count).map _) _
    rw [hpart]
    exact hrepeated
  | empty => exact fun count _ => ⟨nofun, nofun, fun i => Alike.refl [i]⟩
  | next first rest ihf ihr =>
    intro count hclear
    have hfirst := ihf count hclear.1
    have hrest := ihr (count + first.groups) hclear.2
    refine ⟨List.forall_mem_append.2 ⟨hfirst.isPart, hrest.isPart⟩,
      List.forall_mem_append.2 ⟨hfirst.steady, hrest.steady⟩, fun i => ?_⟩
    rw [partsFrom, List.map_append, sequenceEnds_append]
    exact (hfirst.alike i).flatMap hrest.alike
  | only last ih =>
    intro count hclear
    obtain ⟨hnormal, halike⟩ := MeansSequence.inSequence (ih count hclear)
    refine ⟨List.forall_mem_singleton.2 hnormal, List.cons_ne_nil _ _, fun i => ?_⟩
    rw [partsFrom, List.flatMap_singleton]
    exact halike i
  | or first rest ihf ihr =>
    intro count hclear
    obtain ⟨hnormal, halike⟩ := MeansSequence.inSequence (ihf count hclear.1)
    have hrest := ihr (count + first.groups) hclear.2
    refine ⟨List.forall_mem_cons.2 ⟨hnormal, hrest.normal⟩, List.cons_ne_nil _ _, fun i => ?_⟩
    rw [partsFrom, List.flatMap_cons]
    exact (halike i).append (hrest.alike i)

end

/-- A search only asks for the preferred end. -/
theorem spansFrom_congr_head {ends ends' : Nat → List Nat}
    (h : ∀ i, (ends i).head? = (ends' i).head?) (fuel : Nat) :
    ∀ i, spansFrom ends fuel i = spansFrom ends' fuel i := by
  induction fuel with
  | zero => exact fun _ => rfl
  | succ fuel ih =>
    intro i
    rw [spansFrom, spansFrom, h i, ih (i + 1)]
    split
    · rfl
    · rw [ih]

/-- The expansion of an expression is compiled to an automaton unless it is nested too deep. -/
theorem compile?_expansion (e : Expr Atom .choice) :
    automata.compile? e.expansion = if e.depth ≤ depthLimit then some e.part.regex else none :=
  Regex.parse?_expansion e

/-- Automata match a clear expression leftmost-first. -/
theorem Expr.leftmostFirst (e : Expr Atom .choice) (unshared : e.IsUnshared 0)
    (clear : e.IsClear 0) : automata.LeftmostFirst e := by
  intro regex hregex text
  obtain ⟨hsteady, halike⟩ := (e.means text 0 clear).choice unshared
  rw [compile?_expansion] at hregex
  split at hregex
  case isTrue =>
    cases hregex
    rw [Regex.filter_findAll e.part.regex hsteady]
    exact spansFrom_congr_head (fun i => (halike i).head?) text.size 0
  case isFalse => cases hregex

/-- Two alternatives that begin with the same repetition: `ILOAD? ILOAD | ILOAD? ISTORE`. -/
def sharedLoad : Expr Atom .choice :=
  let load : Atom := .one "ILOAD" ⟨21⟩ (Opcode.ofMnemonic?_eq_some (by decide +kernel))
  let store : Atom := .one "ISTORE" ⟨54⟩ (Opcode.ofMnemonic?_eq_some (by decide +kernel))
  let after (last : Atom) : Expr Atom .sequence :=
    .next (.repeated (.atom load) .atMostOne) (.next (.once (.atom last)) .empty)
  .or (after load) (.only (after store))

/-- A load is a match of the first alternative. The automaton takes it for what both begin with and goes
on to a store behind it. -/
theorem not_leftmostFirst_sharedLoad : ¬ automata.LeftmostFirst sharedLoad := by
  intro h
  have hregex : automata.compile? sharedLoad.expansion = some sharedLoad.part.regex := by
    rw [compile?_expansion]
    exact if_pos (by decide)
  have hfound := h sharedLoad.part.regex hregex #[symbol ⟨21⟩, symbol ⟨54⟩]
  revert hfound
  decide +kernel

end Unscramble.Pattern
