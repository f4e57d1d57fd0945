import Unscramble.Pattern.Automaton
import Unscramble.Proofs.Pattern.Expression

/-! # What the automaton of an expression accepts

The meaning of a regular expression is the list of the ends of its matches, preferred ones first.
Its automaton has a layout that follows the expression, and where every further round of a
repetition reads something, the ways through the automaton end where the matches do, in the same
order.

Main definitions: `Regex.ends`, `Regex.IsSteady`, `Regex.Laid`, `Leads`.
Main statements: `Regex.laid_automaton`, `Regex.Laid.leads`. -/

namespace Unscramble.Pattern

/-! ### Meaning -/

/-- The end of a match of given characters. -/
def literalEnds (text : Array Char) : List Char → Nat → List Nat
  | [], i => [i]
  | c :: cs, i => (readAt (CharSet.single c).contains text i).flatMap (literalEnds text cs)

namespace Regex

/-- The ends of all matches that begin at a position, preferred ones first. -/
def ends (text : Array Char) : Regex → Nat → List Nat
  | .empty, i => [i]
  | .literal cs, i => literalEnds text cs i
  | .oneOf set, i => readAt set.contains text i
  | .anchor place, i => if place.holds text.size i then [i] else []
  | .group _ body, i => body.ends text i
  | .repetition rounds greedy body, i => rounds.ends greedy text.size (body.ends text) i
  | .seq first second, i => (first.ends text i).flatMap (second.ends text)
  | .alt first second, i => first.ends text i ++ second.ends text i

/-- Whether every round of a repetition of many rounds reads something. -/
def IsSteady (text : Array Char) : Regex → Prop
  | .empty | .literal _ | .oneOf _ | .anchor _ => True
  | .group _ body => body.IsSteady text
  | .repetition rounds _ body =>
    body.IsSteady text ∧ (rounds ≠ .atMostOne → ∀ i, ∀ j ∈ body.ends text i, i < j)
  | .seq first second | .alt first second => first.IsSteady text ∧ second.IsSteady text

end Regex

/-- A text is read within the text that is searched. -/
theorem literalEnds_bounds (text : Array Char) (cs : List Char) :
    ∀ i, ∀ j ∈ literalEnds text cs i, i ≤ j ∧ j ≤ max i text.size := by
  induction cs with
  | nil =>
    intro i j hj
    cases List.mem_singleton.1 hj
    omega
  | cons c cs ih =>
    intro i j hj
    obtain ⟨m, hm, hj⟩ := List.mem_flatMap.1 hj
    have hread := of_mem_readAt hm
    have hrest := ih m j hj
    omega

/-- A match ends within the text and not before it begins. -/
theorem Regex.ends_bounds (text : Array Char) (r : Regex) :
    ∀ i, ∀ j ∈ r.ends text i, i ≤ j ∧ j ≤ max i text.size := by
  have stop : ∀ i, ∀ j ∈ [i], i ≤ j ∧ j ≤ max i text.size := by
    intro i j hj
    cases List.mem_singleton.1 hj
    omega
  -- On the expression; a repetition is bounded as its rounds are.
  induction r with
  | empty => exact stop
  | literal cs => exact literalEnds_bounds text cs
  | oneOf set =>
    intro i j hj
    have := of_mem_readAt hj
    omega
  | anchor place =>
    intro i j hj
    unfold ends at hj
    split at hj
    · exact stop i j hj
    · cases hj
  | group _ body ih => exact ih
  | repetition rounds greedy body ih => exact rounds.ends_bounds ih
  | seq first second ihf ihs =>
    intro i j hj
    obtain ⟨m, hm, hj⟩ := List.mem_flatMap.1 hj
    have hfirst := ihf i m hm
    have hsecond := ihs m j hj
    omega
  | alt first second ihf ihs =>
    intro i j hj
    exact (List.mem_append.1 hj).elim (ihf i j) (ihs i j)

/-! ### Layout -/

/-- Whether nodes read the given characters on the way from an entry to an exit. -/
def LaidText (nodes : Array Node) : List Char → (entry exit : Nat) → Prop
  | [], entry, exit => entry = exit
  | c :: cs, entry, exit =>
    ∃ next, nodes[entry]? = some (.read (CharSet.single c) next) ∧ LaidText nodes cs next exit

/-- Whether nodes lay out an expression between an entry and an exit. -/
def Regex.Laid (nodes : Array Node) : Regex → (entry exit : Nat) → Prop
  | .empty, entry, exit => entry = exit
  | .literal cs, entry, exit => LaidText nodes cs entry exit
  | .oneOf set, entry, exit => nodes[entry]? = some (.read set exit)
  | .anchor place, entry, exit => nodes[entry]? = some (.check place exit)
  | .group _ body, entry, exit => body.Laid nodes entry exit
  | .repetition .atMostOne greedy body, entry, exit =>
    ∃ inner, nodes[entry]? = some (Automaton.roundFork greedy inner exit) ∧
      body.Laid nodes inner exit
  | .repetition .any greedy body, entry, exit =>
    ∃ again inner, nodes[again]? = some (Automaton.roundFork greedy inner exit) ∧
      body.Laid nodes inner again ∧
      nodes[entry]? = some (Automaton.roundFork greedy inner exit)
  | .repetition .atLeastOne greedy body, entry, exit =>
    ∃ again, nodes[again]? = some (Automaton.roundFork greedy entry exit) ∧
      body.Laid nodes entry again
  | .seq first second, entry, exit =>
    ∃ middle, first.Laid nodes entry middle ∧ second.Laid nodes middle exit
  | .alt first second, entry, exit =>
    ∃ a b, nodes[entry]? = some (.fork a b) ∧ first.Laid nodes a exit ∧ second.Laid nodes b exit

/-- Two arrays of nodes agree from an index on, as far as the first one goes. -/
def AgreeFrom (n : Nat) (nodes nodes' : Array Node) : Prop :=
  ∀ q, n ≤ q → q < nodes.size → nodes'[q]? = nodes[q]?

/-- Nodes that agree from a place on agree from every greater one on. -/
theorem AgreeFrom.mono {n m : Nat} {nodes nodes' : Array Node} (h : AgreeFrom n nodes nodes')
    (hnm : n ≤ m) : AgreeFrom m nodes nodes' :=
  fun q hq => h q (Nat.le_trans hnm hq)

/-- What an automaton keeps of another one: it has its nodes at the front. -/
def Extends (nodes nodes' : Array Node) : Prop :=
  nodes.size ≤ nodes'.size ∧ ∀ q < nodes.size, nodes'[q]? = nodes[q]?

/-- Nodes extend themselves. -/
theorem Extends.refl (nodes : Array Node) : Extends nodes nodes :=
  ⟨Nat.le_refl _, fun _ _ => rfl⟩

/-- Nodes that extend some that extend others extend those. -/
theorem Extends.trans {x y z : Array Node} (h : Extends x y) (h' : Extends y z) : Extends x z := by
  refine ⟨Nat.le_trans h.1 h'.1, fun q hq => ?_⟩
  rw [h'.2 q (Nat.lt_of_lt_of_le hq h.1), h.2 q hq]

/-- What agrees with an extension from some index on also agrees with what was extended. -/
theorem Extends.agreeFrom {n : Nat} {x y z : Array Node} (h : Extends x y) (agree : AgreeFrom n y z) :
    AgreeFrom n x z := by
  intro q hn hq
  rw [agree q hn (Nat.lt_of_lt_of_le hq h.1), h.2 q hq]

namespace Automaton

/-- Adding a node extends the nodes. -/
theorem extends_add (a : Automaton) (node : Node) : Extends a.nodes (a.add node).nodes := by
  unfold add
  refine ⟨?_, fun q hq => ?_⟩
  · rw [Array.size_push]
    exact Nat.le_succ _
  · rw [Array.getElem?_push]
    exact if_neg (Nat.ne_of_lt hq)

/-- A node that was added stands at the entry of the automaton. -/
theorem getElem?_add {a : Automaton} {node : Node} {nodes : Array Node}
    (agree : AgreeFrom a.nodes.size (a.add node).nodes nodes) :
    nodes[(a.add node).entry]? = some node := by
  unfold add at agree ⊢
  rw [agree a.nodes.size (Nat.le_refl _) (by rw [Array.size_push]; exact Nat.lt_succ_self _)]
  exact Array.getElem?_push_size

/-- The layout of a text, in any array of nodes that agrees with it behind the nodes it was put in
front of. -/
theorem laid_literal (cs : List Char) (a : Automaton) :
    Extends a.nodes (a.prepend (.literal cs)).nodes ∧
      ∀ nodes, AgreeFrom a.nodes.size (a.prepend (.literal cs)).nodes nodes →
        LaidText nodes cs (a.prepend (.literal cs)).entry a.entry := by
  induction cs with
  | nil => exact ⟨Extends.refl _, fun _ _ => rfl⟩
  | cons c cs ih =>
    let b := a.prepend (.literal cs)
    have hb : a.prepend (.literal (c :: cs)) = b.add (.read (CharSet.single c) b.entry) := by
      simp only [prepend, List.foldr_cons, b]
    rw [hb]
    refine ⟨ih.1.trans (extends_add b _), fun nodes agree => ?_⟩
    exact ⟨b.entry, getElem?_add (agree.mono ih.1.1),
      ih.2 nodes ((extends_add b _).agreeFrom agree)⟩

/-- A node behind the ones of `a` that is set later: what was laid out in front of it stays. -/
theorem extends_set {a b : Automaton} {placeholder : Node}
    (h : Extends (a.add placeholder).nodes b.nodes) (node : Node) :
    Extends a.nodes (b.nodes.setIfInBounds a.nodes.size node) ∧
      AgreeFrom (a.nodes.size + 1) b.nodes (b.nodes.setIfInBounds a.nodes.size node) ∧
      (b.nodes.setIfInBounds a.nodes.size node)[a.nodes.size]? = some node := by
  have hsize : a.nodes.size < b.nodes.size := by
    have := h.1
    unfold add at this
    rw [Array.size_push] at this
    omega
  refine ⟨⟨?_, fun q hq => ?_⟩, fun q hq _ => ?_, ?_⟩
  · rw [Array.size_setIfInBounds]
    omega
  · rw [Array.getElem?_setIfInBounds_ne (Nat.ne_of_gt hq)]
    exact ((extends_add a placeholder).trans h).2 q hq
  · exact Array.getElem?_setIfInBounds_ne (by omega)
  · exact Array.getElem?_setIfInBounds_self_of_lt hsize

/-- The body of a repetition in front of the node that forks into the next round. -/
def loop (a : Automaton) (greedy : Bool) (body : Regex) : Automaton :=
  let b := (a.add .accept).prepend body
  ⟨b.nodes.setIfInBounds a.nodes.size (roundFork greedy b.entry a.entry), b.entry⟩

/-- The layout of a body, if it is one in front of any automaton, is one in front of the node that
forks. -/
theorem laid_loop {body : Regex} (greedy : Bool)
    (h : ∀ a : Automaton, Extends a.nodes (a.prepend body).nodes ∧
      ∀ nodes, AgreeFrom a.nodes.size (a.prepend body).nodes nodes →
        body.Laid nodes (a.prepend body).entry a.entry) (a : Automaton) :
    Extends a.nodes (a.loop greedy body).nodes ∧
      ∀ nodes, AgreeFrom a.nodes.size (a.loop greedy body).nodes nodes →
        nodes[a.nodes.size]? = some (roundFork greedy (a.loop greedy body).entry a.entry) ∧
          body.Laid nodes (a.loop greedy body).entry a.nodes.size := by
  have hb := h (a.add .accept)
  obtain ⟨hc, agreeb, hfork⟩ := extends_set hb.1
    (roundFork greedy ((a.add .accept).prepend body).entry a.entry)
  refine ⟨hc, fun nodes agree => ⟨?_, ?_⟩⟩
  -- The node that forks is written last; the body was laid in front of it and has not been touched.
  · change (a.loop greedy body).nodes[a.nodes.size]? = some _ at hfork
    show nodes[a.nodes.size]? = _
    rw [agree a.nodes.size (Nat.le_refl _), hfork]
    · rfl
    · by_contra hout
      rw [Array.getElem?_eq_none (Nat.le_of_not_lt hout)] at hfork
      cases hfork
  · have hsize : (a.add .accept).nodes.size = a.nodes.size + 1 := Array.size_push _
    refine hb.2 nodes fun q hq hlt => ?_
    rw [hsize] at hq
    rw [← agreeb q hq hlt]
    refine agree q (Nat.le_of_succ_le hq) ?_
    unfold loop
    rwa [Array.size_setIfInBounds]

end Automaton

/-- A layout of an expression is put in front of the nodes that are there, and stays one in any
array that agrees with it behind those. -/
theorem Regex.laid_prepend (r : Regex) (a : Automaton) :
    Extends a.nodes (a.prepend r).nodes ∧
      ∀ nodes, AgreeFrom a.nodes.size (a.prepend r).nodes nodes →
        r.Laid nodes (a.prepend r).entry a.entry := by
  induction r generalizing a with
  | empty => exact ⟨Extends.refl _, fun _ _ => rfl⟩
  | literal cs => exact Automaton.laid_literal cs a
  | oneOf set => exact ⟨Automaton.extends_add a _, fun nodes agree => Automaton.getElem?_add agree⟩
  | anchor place =>
    exact ⟨Automaton.extends_add a _, fun nodes agree => Automaton.getElem?_add agree⟩
  | group _ body ih => exact ih a
  | seq first second ihf ihs =>
    let b := a.prepend second
    have hb := ihs a
    have hc := ihf b
    refine ⟨hb.1.trans hc.1, fun nodes agree => ?_⟩
    exact ⟨b.entry, hc.2 nodes (agree.mono hb.1.1), hb.2 nodes (hc.1.agreeFrom agree)⟩
  | alt first second ihf ihs =>
    let b := a.prepend second
    let c := Automaton.prepend ⟨b.nodes, a.entry⟩ first
    have hb := ihs a
    have hc := ihf ⟨b.nodes, a.entry⟩
    have hd := Automaton.extends_add c (.fork c.entry b.entry)
    refine ⟨(hb.1.trans hc.1).trans hd, fun nodes agree => ?_⟩
    have agreec := hd.agreeFrom agree
    exact ⟨c.entry, b.entry, Automaton.getElem?_add (agree.mono (hb.1.trans hc.1).1),
      hc.2 nodes (agreec.mono hb.1.1), hb.2 nodes (hc.1.agreeFrom agreec)⟩
  | repetition rounds greedy body ih =>
    cases hrounds : rounds with
    | atMostOne =>
      let b := a.prepend body
      have hb := ih a
      have hc := Automaton.extends_add b (Automaton.roundFork greedy b.entry a.entry)
      refine ⟨hb.1.trans hc, fun nodes agree => ?_⟩
      exact ⟨b.entry, Automaton.getElem?_add (agree.mono hb.1.1), hb.2 nodes (hc.agreeFrom agree)⟩
    | any =>
      obtain ⟨hc, inner⟩ := Automaton.laid_loop greedy ih a
      -- The first round is chosen where the others are, or at a node of its own.
      by_cases hreads : body.reads? = some true
      · have heq : a.prepend (.repetition .any greedy body) =
            ⟨(a.loop greedy body).nodes, a.nodes.size⟩ := by
          simp only [Automaton.prepend, hreads]
          rfl
        rw [heq]
        refine ⟨hc, fun nodes agree => ?_⟩
        have h := inner nodes agree
        exact ⟨a.nodes.size, _, h.1, h.2, h.1⟩
      · have heq : a.prepend (.repetition .any greedy body) =
            (a.loop greedy body).add
              (Automaton.roundFork greedy (a.loop greedy body).entry a.entry) := by
          simp only [Automaton.prepend, hreads]
          rfl
        rw [heq]
        have hd := Automaton.extends_add (a.loop greedy body)
          (Automaton.roundFork greedy (a.loop greedy body).entry a.entry)
        refine ⟨hc.trans hd, fun nodes agree => ?_⟩
        have h := inner nodes (hd.agreeFrom agree)
        exact ⟨a.nodes.size, _, h.1, h.2, Automaton.getElem?_add (agree.mono hc.1)⟩
    | atLeastOne =>
      obtain ⟨hc, inner⟩ := Automaton.laid_loop greedy ih a
      exact ⟨hc, fun nodes agree => ⟨a.nodes.size, inner nodes agree⟩⟩

/-- The automaton of an expression lays it out from its entry to the accepting node. -/
theorem Regex.laid_automaton (r : Regex) :
    r.Laid r.automaton.nodes r.automaton.entry 0 ∧ r.automaton.nodes[0]? = some .accept := by
  have h := r.laid_prepend ⟨#[.accept], 0⟩
  exact ⟨h.2 _ fun _ _ _ => rfl, h.1.2 0 (Nat.zero_lt_one)⟩

/-! ### Ways -/

/-- The ends of the ways from pairs of a node and a position, in the order in which they are taken.
There is such a list only if no way is endless. -/
inductive Leads (nodes : Array Node) (text : Array Char) : List (Nat × Nat) → List Nat → Prop
  /-- No pair is left. -/
  | nil : Leads nodes text [] []
  /-- A way ends. -/
  | accept {q i : Nat} {pending : List (Nat × Nat)} {es : List Nat}
      (node : nodes[q]? = some .accept) (rest : Leads nodes text pending es) :
      Leads nodes text ((q, i) :: pending) (i :: es)
  /-- Ways go on from a node. -/
  | step {q i : Nat} {n : Node} {pending : List (Nat × Nat)} {es fs : List Nat}
      (node : nodes[q]? = some n) (inner : n ≠ .accept)
      (further : Leads nodes text (Automaton.steps text i n) es)
      (rest : Leads nodes text pending fs) :
      Leads nodes text ((q, i) :: pending) (es ++ fs)

section

variable {nodes : Array Node} {text : Array Char} {q k : Nat} {ends : Nat → List Nat}

/-- Ways one after the other lead to the ends of both. -/
theorem Leads.append {p p' : List (Nat × Nat)} {es fs : List Nat} (h : Leads nodes text p es)
    (h' : Leads nodes text p' fs) : Leads nodes text (p ++ p') (es ++ fs) := by
  induction h with
  | nil => exact h'
  | accept node _ ih => exact .accept node ih
  | step node inner further _ _ ih =>
    rw [List.append_assoc]
    exact .step node inner further ih

/-- The ways from a node on its own. -/
theorem Leads.single {n : Node} {i : Nat} {es : List Nat} (node : nodes[q]? = some n)
    (inner : n ≠ .accept) (h : Leads nodes text (Automaton.steps text i n) es) :
    Leads nodes text [(q, i)] es := by
  rw [← List.append_nil es]
  exact .step node inner h .nil

/-- A node that reads leads to where the next one leads behind a character. -/
theorem Leads.read {set : CharSet} {i : Nat} (node : nodes[q]? = some (.read set k))
    (h : ∀ j ∈ readAt set.contains text i, Leads nodes text [(k, j)] (ends j)) :
    Leads nodes text [(q, i)] ((readAt set.contains text i).flatMap ends) := by
  refine .single node nofun ?_
  unfold readAt at h ⊢
  by_cases hread : (text[i]?).any set.contains
  · simp only [Automaton.steps, if_pos hread] at h ⊢
    rw [List.flatMap_singleton]
    exact h (i + 1) (List.mem_singleton_self _)
  · simp only [Automaton.steps, if_neg hread]
    exact .nil

/-- A fork leads to where its preferred way does, and then to where the other one does. -/
theorem Leads.fork {a b i : Nat} {es fs : List Nat} (node : nodes[q]? = some (.fork a b))
    (ha : Leads nodes text [(a, i)] es) (hb : Leads nodes text [(b, i)] fs) :
    Leads nodes text [(q, i)] (es ++ fs) :=
  .single node nofun (ha.append hb)

/-- A fork of a repetition: the ways into a further round and the ways out, in the order of
preference. -/
theorem Leads.roundFork {greedy : Bool} {inner i : Nat} {further stop : List Nat}
    (node : nodes[q]? = some (Automaton.roundFork greedy inner k))
    (hinner : Leads nodes text [(inner, i)] (further.flatMap ends))
    (hexit : Leads nodes text [(k, i)] (stop.flatMap ends)) :
    Leads nodes text [(q, i)] ((preferring greedy further stop).flatMap ends) := by
  unfold preferring
  cases greedy with
  | true =>
    rw [if_pos rfl, List.flatMap_append]
    exact .fork node hinner hexit
  | false =>
    rw [if_neg Bool.false_ne_true, List.flatMap_append]
    exact .fork node hexit hinner

/-- A text that is laid out leads to where the next node leads behind it. -/
theorem LaidText.leads {cs : List Char} {i : Nat} (laid : LaidText nodes cs q k)
    (h : ∀ j ∈ literalEnds text cs i, Leads nodes text [(k, j)] (ends j)) :
    Leads nodes text [(q, i)] ((literalEnds text cs i).flatMap ends) := by
  induction cs generalizing q i with
  | nil =>
    cases laid
    rw [literalEnds, List.flatMap_singleton]
    exact h i (List.mem_singleton_self i)
  | cons c cs ih =>
    obtain ⟨next, node, laid⟩ := laid
    rw [literalEnds, List.flatMap_assoc]
    exact .read node fun m hm => ih laid fun j hj => h j (List.mem_flatMap.2 ⟨m, hm, hj⟩)

/-- Rounds, if the ways through the body end where its matches do. Each round but the last reads
something, so that `fuel` more rounds are all that the rest of the text has room for. -/
theorem Leads.rounds {greedy : Bool} {body : Nat → List Nat} {inner again : Nat}
    (node : nodes[again]? = some (Automaton.roundFork greedy inner k))
    (reads : ∀ i, ∀ j ∈ body i, i < j)
    (within : ∀ i, ∀ j ∈ body i, i ≤ j ∧ j ≤ max i text.size)
    (through : ∀ i ≤ text.size, ∀ further : Nat → List Nat,
      (∀ j ∈ body i, Leads nodes text [(again, j)] (further j)) →
        Leads nodes text [(inner, i)] ((body i).flatMap further)) :
    ∀ fuel, ∀ i ≤ text.size, text.size < i + fuel →
      (∀ j ∈ roundsFrom greedy body fuel i, Leads nodes text [(k, j)] (ends j)) →
        Leads nodes text [(inner, i)] ((roundsFrom greedy body fuel i).flatMap ends) := by
  intro fuel
  -- On the fuel: a round reads something, so the rest of the text gets shorter with every further
  -- one.
  induction fuel with
  | zero =>
    intro i hi hfuel
    omega
  | succ fuel ih =>
    intro i hi hfuel h
    rw [roundsFrom, List.flatMap_assoc]
    refine through i hi _ fun j hj => ?_
    have hlt := reads i j hj
    have hsize : j ≤ text.size := by
      have := within i j hj
      omega
    have mem : ∀ e ∈ preferring greedy (roundsFrom greedy body fuel j) [j],
        e ∈ roundsFrom greedy body (fuel + 1) i := by
      intro e he
      refine List.mem_flatMap.2 ⟨j, hj, ?_⟩
      rwa [if_pos hlt]
    rw [if_pos hlt]
    refine .roundFork node ?_ ?_
    · exact ih j hsize (by omega) fun e he => h e (mem e (mem_preferring.2 (.inl he)))
    · rw [List.flatMap_singleton]
      exact h j (mem j (mem_preferring.2 (.inr (List.mem_singleton_self j))))

end

/-- The ways through the layout of an expression end where its matches do, in the same order. -/
theorem Regex.Laid.leads {nodes : Array Node} {text : Array Char} {r : Regex} {q k i : Nat}
    {ends : Nat → List Nat} (laid : r.Laid nodes q k) (steady : r.IsSteady text)
    (hi : i ≤ text.size) (h : ∀ j ∈ r.ends text i, Leads nodes text [(k, j)] (ends j)) :
    Leads nodes text [(q, i)] ((r.ends text i).flatMap ends) := by
  -- On the expression, for whatever the ways lead on to; a repetition goes round through the node
  -- that forks.
  induction r generalizing q k i ends with
  | empty =>
    cases laid
    rw [Regex.ends, List.flatMap_singleton]
    exact h i (List.mem_singleton_self i)
  | literal cs => exact LaidText.leads laid h
  | oneOf set => exact .read laid h
  | anchor place =>
    refine .single laid nofun ?_
    unfold Regex.ends at h ⊢
    by_cases hplace : place.holds text.size i
    · simp only [Automaton.steps, if_pos hplace] at h ⊢
      rw [List.flatMap_singleton]
      exact h i (List.mem_singleton_self i)
    · simp only [Automaton.steps, if_neg hplace]
      exact .nil
  | group _ body ih => exact ih laid steady hi h
  | seq first second ihf ihs =>
    obtain ⟨middle, laidf, laids⟩ := laid
    rw [Regex.ends, List.flatMap_assoc]
    refine ihf laidf steady.1 hi fun m hm => ?_
    have hsize : m ≤ text.size := by
      have := first.ends_bounds text i m hm
      omega
    exact ihs laids steady.2 hsize fun j hj => h j (List.mem_flatMap.2 ⟨m, hm, hj⟩)
  | alt first second ihf ihs =>
    obtain ⟨a, b, node, laidf, laids⟩ := laid
    rw [Regex.ends, List.flatMap_append]
    exact .fork node (ihf laidf steady.1 hi fun j hj => h j (List.mem_append_left _ hj))
      (ihs laids steady.2 hi fun j hj => h j (List.mem_append_right _ hj))
  | repetition rounds greedy body ih =>
    have through : ∀ {inner again : Nat}, body.Laid nodes inner again → ∀ i ≤ text.size,
        ∀ further : Nat → List Nat,
          (∀ j ∈ body.ends text i, Leads nodes text [(again, j)] (further j)) →
            Leads nodes text [(inner, i)] ((body.ends text i).flatMap further) :=
      fun laid i hi further h => ih laid steady.1 hi h
    have within := body.ends_bounds text
    cases rounds with
    | atMostOne =>
      obtain ⟨inner, node, laid⟩ := laid
      refine .roundFork node ?_ ?_
      · exact ih laid steady.1 hi fun j hj => h j (mem_preferring.2 (.inl hj))
      · rw [List.flatMap_singleton]
        exact h i (mem_preferring.2 (.inr (List.mem_singleton_self i)))
    | any =>
      obtain ⟨again, inner, node, laid, entry⟩ := laid
      refine .roundFork entry ?_ ?_
      · exact .rounds node (steady.2 nofun) within (through laid) _ i hi (by omega)
          fun j hj => h j (mem_preferring.2 (.inl hj))
      · rw [List.flatMap_singleton]
        exact h i (mem_preferring.2 (.inr (List.mem_singleton_self i)))
    | atLeastOne =>
      obtain ⟨again, node, laid⟩ := laid
      exact .rounds node (steady.2 nofun) within (through laid) _ i hi (by omega) h

/-- The ways through the automaton of an expression end where its matches do, in the same order. -/
theorem Regex.leads_automaton {text : Array Char} (r : Regex) (steady : r.IsSteady text) {i : Nat}
    (hi : i ≤ text.size) :
    Leads r.automaton.nodes text [(r.automaton.entry, i)] (r.ends text i) := by
  have h : Leads r.automaton.nodes text [(r.automaton.entry, i)]
      ((r.ends text i).flatMap fun j => [j]) :=
    r.laid_automaton.1.leads steady hi fun j _ => .accept r.laid_automaton.2 .nil
  rwa [List.flatMap_singleton'] at h

end Unscramble.Pattern
