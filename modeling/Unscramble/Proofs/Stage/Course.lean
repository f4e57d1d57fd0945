import Unscramble.Proofs.Stage.Hooks

/-! # The course of a run

A run is watched by hooks that do what the hooks of its transform do and also note each call: what
the hook was given, what it left of that, and what it answered. The watched run leaves what the run
leaves. Its notes show which hooks were called, in which order, on which parts of the codebase, and
they decide how the run ends.

Main definitions: `Transform.noting`, `Course`. Main statement: `Transform.run_course`. -/

namespace Unscramble

/-! ### Hooks that note their calls -/

variable {σ α β : Type}

namespace Context

/-- A context without notes. -/
def forget (c : Context (σ × List Call)) : Context σ :=
  ⟨c.state.1, c.settings, c.counters, c.journal⟩

/-- The calls noted so far. -/
def calls (c : Context (σ × List Call)) : List Call :=
  c.state.2

/-- A context with notes. -/
def withCalls (c : Context σ) (calls : List Call) : Context (σ × List Call) :=
  ⟨(c.state, calls), c.settings, c.counters, c.journal⟩

/-- Without its notes a context is what it was. -/
@[simp] theorem forget_withCalls (c : Context σ) (calls : List Call) :
    (c.withCalls calls).forget = c := rfl

/-- The notes of a context are those that were put there. -/
@[simp] theorem calls_withCalls (c : Context σ) (calls : List Call) :
    (c.withCalls calls).calls = calls := rfl

end Context

namespace Hook

/-- The hook that does what `f` does and notes the call. -/
def noting (note : α → α → Except Error Bool → Call) (f : Hook σ α) : Hook (σ × List Call) α :=
  fun a c =>
    let s := f a c.forget
    ⟨s.changed, s.value, s.context.withCalls (c.calls ++ [note a s.value s.changed])⟩

/-- Without its notes a hook is another one. -/
def Forgets (g : Hook (σ × List Call) α) (f : Hook σ α) : Prop :=
  ∀ a c, f a c.forget = ⟨(g a c).changed, (g a c).value, (g a c).context.forget⟩

/-- A hook notes certain calls, whose verdict is its answer. -/
def Notes (g : Hook (σ × List Call) α) (visits : α → List Call → α → Prop) : Prop :=
  ∀ a c, ∃ calls, (g a c).context.calls = c.calls ++ calls ∧ visits a calls (g a c).value ∧
    (g a c).changed = verdict calls

/-- A hook that notes its calls does what it does without. -/
theorem forgets_noting (note : α → α → Except Error Bool → Call) (f : Hook σ α) :
    (f.noting note).Forgets f :=
  fun _ _ => rfl

/-- So does a hook after another one. -/
theorem Forgets.andThen {g g' : Hook (σ × List Call) α} {f f' : Hook σ α} (h : g.Forgets f)
    (h' : g'.Forgets f') : (g.andThen g').Forgets (f.andThen f') := by
  intro a c
  rw [Hook.andThen, Hook.andThen, h]
  dsimp only
  split
  · next e he => dsimp only
  · next changed he => rw [h']

/-- So does a hook for a part. -/
theorem Forgets.focus {part : α → β} {setPart : α → β → α} {g : Hook (σ × List Call) β}
    {f : Hook σ β} (h : g.Forgets f) :
    (Hook.focus part setPart g).Forgets (Hook.focus part setPart f) := by
  intro a c
  rw [Hook.focus, Hook.focus, h]

/-- So does a hook for each element. -/
theorem Forgets.each {g : Hook (σ × List Call) α} {f : Hook σ α} (h : g.Forgets f) :
    (Hook.each g).Forgets (Hook.each f) := by
  intro as
  induction as with
  | nil => exact fun _ => rfl
  | cons a as ih =>
    intro c
    rw [Hook.each, Hook.each, h]
    dsimp only
    split
    · next e he => dsimp only
    · next changed he => rw [ih]

/-- The calls of two hooks one after the other. -/
inductive VisitsThen (first second : α → List Call → α → Prop) : α → List Call → α → Prop
  /-- The first hook fails. -/
  | stopped {a a' : α} {calls : List Call} {e : Error} (visited : first a calls a')
      (failed : verdict calls = .error e) : VisitsThen first second a calls a'
  /-- The first hook does not fail. -/
  | next {a a₁ a' : α} {calls calls' : List Call} {changed : Bool} (visited : first a calls a₁)
      (fine : verdict calls = .ok changed) (others : second a₁ calls' a') :
      VisitsThen first second a (calls ++ calls') a'

/-- What is noted may be said with less. -/
theorem Notes.mono {g : Hook (σ × List Call) α} {visits visits' : α → List Call → α → Prop}
    (h : g.Notes visits) (himp : ∀ {a calls a'}, visits a calls a' → visits' a calls a') :
    g.Notes visits' := by
  intro a c
  obtain ⟨calls, hcalls, hvisits, hverdict⟩ := h a c
  exact ⟨calls, hcalls, himp hvisits, hverdict⟩

/-- A hook that notes its calls notes one for each time. -/
theorem notes_noting (note : α → α → Except Error Bool → Call)
    (hnote : ∀ a a' answer, (note a a' answer).answer = answer) (f : Hook σ α) :
    (f.noting note).Notes fun a calls a' => ∃ answer, calls = [note a a' answer] := by
  intro a c
  refine ⟨_, rfl, ⟨_, rfl⟩, ?_⟩
  rw [verdict_singleton, hnote]
  rfl

/-- A hook after another one notes the calls of both. -/
theorem Notes.andThen {g g' : Hook (σ × List Call) α} {first second : α → List Call → α → Prop}
    (h : g.Notes first) (h' : g'.Notes second) :
    (g.andThen g').Notes (VisitsThen first second) := by
  intro a c
  obtain ⟨calls, hcalls, hvisits, hverdict⟩ := h a c
  rw [Hook.andThen]
  dsimp only
  split
  · next e he =>
    rw [he] at hverdict
    exact ⟨calls, hcalls, .stopped hvisits hverdict.symm, he.trans hverdict⟩
  · next changed hchanged =>
    obtain ⟨calls', hcalls', hvisits', hverdict'⟩ := h' (g a c).value (g a c).context
    rw [hchanged] at hverdict
    refine ⟨calls ++ calls', ?_, .next hvisits hverdict.symm hvisits', ?_⟩
    · rw [hcalls', hcalls, List.append_assoc]
    · rw [verdict_append_of_ok hverdict.symm, hverdict']

/-- A hook for a part notes the calls for the part. -/
theorem Notes.focus (part : α → β) (setPart : α → β → α) {g : Hook (σ × List Call) β}
    {visits : β → List Call → β → Prop} (h : g.Notes visits) :
    (Hook.focus part setPart g).Notes fun a calls a' =>
      ∃ b, visits (part a) calls b ∧ a' = setPart a b := by
  intro a c
  obtain ⟨calls, hcalls, hvisits, hverdict⟩ := h (part a) c
  exact ⟨calls, hcalls, ⟨_, hvisits, rfl⟩, hverdict⟩

/-- A hook for each element notes the calls for all of them. -/
theorem Notes.each {g : Hook (σ × List Call) α} {visits : α → List Call → α → Prop}
    (h : g.Notes visits) : (Hook.each g).Notes (VisitsEach visits) := by
  intro as
  induction as with
  | nil => exact fun c => ⟨[], (List.append_nil _).symm, .done, rfl⟩
  | cons a as ih =>
    intro c
    obtain ⟨calls, hcalls, hvisits, hverdict⟩ := h a c
    rw [Hook.each]
    dsimp only
    split
    · next e he =>
      rw [he] at hverdict
      exact ⟨calls, hcalls, .stopped hvisits hverdict.symm, hverdict⟩
    · next changed hchanged =>
      obtain ⟨calls', hcalls', hvisits', hverdict'⟩ := ih (g a c).context
      rw [hchanged] at hverdict
      refine ⟨calls ++ calls', ?_, .next hvisits hverdict.symm hvisits', ?_⟩
      · rw [hcalls', hcalls, List.append_assoc]
      · rw [verdict_append_of_ok hverdict.symm, hverdict']

end Hook

/-! ### Watched transforms -/

namespace Transform

/-- The transform that does what `t` does and notes every call of a hook. -/
def noting (t : Transform σ) : Transform (σ × List Call) where
  name := t.name
  start := (t.start, [])
  beforeAll := t.beforeAll.noting .beforeAll
  onClass := t.onClass.noting .onClass
  onField := t.onField.noting .onField
  beforeBody := t.beforeBody.noting .beforeBody
  onBody m := (t.onBody m).noting (.onBody m)
  afterBody := t.afterBody.noting .afterBody
  onPass := t.onPass.noting .onPass
  afterAll := t.afterAll.noting .afterAll

variable (t : Transform σ)

/-- Without its notes a watched transform is the transform. -/
theorem forgets_pass : t.noting.pass.Forgets t.pass := by
  have hbody : Hook.Forgets (visitBody t.noting.onBody) (visitBody t.onBody) := by
    intro m c
    rw [visitBody.eq_def, visitBody.eq_def]
    dsimp only
    split <;> rfl
  have hmethod : t.noting.visitMethod.Forgets t.visitMethod :=
    ((Hook.forgets_noting _ _).andThen hbody).andThen (Hook.forgets_noting _ _)
  have hclass : t.noting.visitClass.Forgets t.visitClass :=
    ((Hook.forgets_noting _ _).andThen (Hook.forgets_noting _ _).each.focus).andThen
      hmethod.each.focus
  exact hclass.each.focus.andThen (Hook.forgets_noting _ _)

/-- A watched transform notes the calls on a method. -/
theorem notes_visitMethod : t.noting.visitMethod.Notes VisitsMethod := by
  have hbody : Hook.Notes (visitBody t.noting.onBody) fun m calls m' =>
      (m.body = none ∧ calls = [] ∧ m' = m) ∨
        ∃ b b' answer, m.body = some b ∧ calls = [.onBody { m with body := none } b b' answer] ∧
          m' = { m with body := some b' } := by
    intro m c
    rw [visitBody.eq_def]
    dsimp only
    split
    · next hm => exact ⟨[], (List.append_nil _).symm, .inl ⟨hm, rfl, rfl⟩, rfl⟩
    · next b hm =>
      refine ⟨_, rfl, .inr ⟨b, _, _, hm, rfl, rfl⟩, ?_⟩
      rw [verdict_singleton]
      rfl
  have hmethod := ((Hook.notes_noting .beforeBody (fun _ _ _ => rfl) t.beforeBody).andThen
    hbody).andThen (Hook.notes_noting .afterBody (fun _ _ _ => rfl) t.afterBody)
  refine hmethod.mono fun h => ?_
  -- Either the first hook ends the visit, or the body does, or it goes on to the last hook.
  rcases h with ⟨h, failed⟩ | ⟨h, fine, answer, rfl⟩
  · rcases h with ⟨⟨r, rfl⟩, hr⟩ | ⟨⟨r, rfl⟩, hr, hbody⟩
    · rw [verdict_singleton] at hr
      cases hr
      exact .stopped
    · rw [verdict_append_of_ok hr] at failed
      rw [verdict_singleton] at hr
      cases hr
      rcases hbody with ⟨-, rfl, rfl⟩ | ⟨b, b', r, hm, rfl, rfl⟩
      · cases failed
      · rw [verdict_singleton] at failed
        cases r with
        | ok changed => cases failed
        | error e => exact .stoppedAtBody hm
  · rcases h with ⟨h, failed⟩ | ⟨⟨r, rfl⟩, hr, hbody⟩
    · rw [failed] at fine
      cases fine
    · rw [verdict_append_of_ok hr] at fine
      rw [verdict_singleton] at hr
      cases hr
      rcases hbody with ⟨hm, rfl, rfl⟩ | ⟨b, b', r, hm, rfl, rfl⟩
      · exact .withoutBody hm
      · rw [verdict_singleton] at fine
        cases r with
        | error e => cases fine
        | ok changed => exact .withBody hm

/-- A watched transform notes the calls on a class. -/
theorem notes_visitClass : t.noting.visitClass.Notes VisitsClass := by
  have hfield : t.noting.onField.Notes VisitsField :=
    (Hook.notes_noting .onField (fun _ _ _ => rfl) t.onField).mono fun ⟨_, h⟩ => h ▸ .visited
  have hclass := ((Hook.notes_noting .onClass (fun _ _ _ => rfl) t.onClass).andThen
    (hfield.each.focus (·.fields) (fun c fields => { c with fields }))).andThen
    (t.notes_visitMethod.each.focus (·.methods) (fun c methods => { c with methods }))
  refine hclass.mono fun h => ?_
  -- As for a method: the visit ends at the class, at one of the fields, or goes on to the methods.
  rcases h with ⟨h, failed⟩ | ⟨h, fine, methods, onMethods, rfl⟩
  · rcases h with ⟨⟨r, rfl⟩, hr⟩ | ⟨⟨r, rfl⟩, hr, fields, onFields, rfl⟩
    · rw [verdict_singleton] at hr
      cases hr
      exact .stopped
    · rw [verdict_append_of_ok hr] at failed
      rw [verdict_singleton] at hr
      cases hr
      next calls _ =>
      cases hcalls : verdict calls with
      | error e => exact .stoppedAtField onFields hcalls
      | ok changed =>
        rw [hcalls] at failed
        cases failed
  · rcases h with ⟨h, failed⟩ | ⟨⟨r, rfl⟩, hr, fields, onFields, rfl⟩
    · rw [failed] at fine
      cases fine
    · rw [verdict_append_of_ok hr] at fine
      rw [verdict_singleton] at hr
      cases hr
      next calls _ =>
      cases hcalls : verdict calls with
      | error e =>
        rw [hcalls] at fine
        cases fine
      | ok changed => exact .visited onFields hcalls onMethods

/-- A watched transform notes the calls of a pass. -/
theorem notes_pass : t.noting.pass.Notes VisitsCodebase := by
  have hpass := (t.notes_visitClass.each.focus (·.classes) (fun (p : Codebase) classes =>
    { p with classes })).andThen (Hook.notes_noting .onPass (fun _ _ _ => rfl) t.onPass)
  refine hpass.mono fun h => ?_
  rcases h with ⟨⟨classes, onClasses, rfl⟩, failed⟩ | ⟨⟨classes, onClasses, rfl⟩, fine, r, rfl⟩
  · exact .stopped onClasses failed
  · exact .visited onClasses fine

/-- Without their notes, the passes of a watched transform are those of the transform. -/
theorem forget_settle (left done : Nat) (p : Codebase) (c : Context (σ × List Call)) :
    t.settle left done p c.forget =
      ((t.noting.settle left done p c).1, (t.noting.settle left done p c).2.1,
        (t.noting.settle left done p c).2.2.forget) := by
  induction left generalizing done p c with
  | zero => rfl
  | succ left ih =>
    rw [settle, settle, t.forgets_pass]
    dsimp only
    split
    · rfl
    · exact ih _ _ _
    · rfl

/-- How passes go that are made until one changes nothing, `left` more at most after `done`. -/
inductive Repeats (name : String) : (left done : Nat) → List (List Call) → Except Error Nat → Prop
  /-- There are no more passes. -/
  | spent {done : Nat} : Repeats name 0 done [] (.error (.unsettled name done))
  /-- A hook fails. -/
  | failed {left done : Nat} {calls : List Call} {e : Error} (failed : verdict calls = .error e) :
      Repeats name (left + 1) done [calls] (.error e)
  /-- A pass changes nothing. -/
  | settled {left done : Nat} {calls : List Call} (still : verdict calls = .ok false) :
      Repeats name (left + 1) done [calls] (.ok (done + 1))
  /-- A pass changes something. -/
  | again {left done : Nat} {calls : List Call} {passes : List (List Call)} {r : Except Error Nat}
      (changed : verdict calls = .ok true) (others : Repeats name left (done + 1) passes r) :
      Repeats name (left + 1) done (calls :: passes) r

/-- A watched transform notes the calls of its passes. -/
theorem notes_settle (left done : Nat) (p : Codebase) (c : Context (σ × List Call)) :
    ∃ passes, (t.noting.settle left done p c).2.2.calls = c.calls ++ passes.flatten ∧
      VisitsInTurn p passes (t.noting.settle left done p c).2.1 ∧
      Repeats t.name left done passes (t.noting.settle left done p c).1 := by
  induction left generalizing done p c with
  | zero => exact ⟨[], (List.append_nil _).symm, .none, .spent⟩
  | succ left ih =>
    obtain ⟨calls, hcalls, hvisits, hverdict⟩ := t.notes_pass p c
    rw [settle]
    split
    · next e he =>
      rw [he] at hverdict
      refine ⟨[calls], ?_, .pass hvisits .none, .failed hverdict.symm⟩
      rw [hcalls, List.flatten_singleton]
    · next he =>
      rw [he] at hverdict
      obtain ⟨passes, hpasses, hturn, hrepeats⟩ :=
        ih (done + 1) (t.noting.pass p c).value (t.noting.pass p c).context
      refine ⟨calls :: passes, ?_, .pass hvisits hturn, .again hverdict.symm hrepeats⟩
      rw [hpasses, hcalls, List.flatten_cons, List.append_assoc]
    · next he =>
      rw [he] at hverdict
      refine ⟨[calls], ?_, .pass hvisits .none, .settled hverdict.symm⟩
      rw [hcalls, List.flatten_singleton]

namespace Repeats

variable {name : String} {left done : Nat} {passes : List (List Call)} {r : Except Error Nat}

/-- There are not more passes than there may be. -/
theorem length_le (h : Repeats name left done passes r) : passes.length ≤ left := by
  induction h with
  | spent => exact Nat.le_refl 0
  | failed failed => exact Nat.le_add_left 1 _
  | settled still => exact Nat.le_add_left 1 _
  | again changed others ih => exact Nat.succ_le_succ ih

/-- Every pass but the last changes something. -/
theorem verdict_of_mem_dropLast (h : Repeats name left done passes r) :
    ∀ calls ∈ passes.dropLast, verdict calls = .ok true := by
  induction h with
  | spent => simp
  | failed failed => simp
  | settled still => simp
  | @again left done calls passes r changed others ih =>
    cases passes with
    | nil => simp
    | cons calls' passes =>
      rw [List.dropLast_cons_cons]
      exact List.forall_mem_cons.2 ⟨changed, ih⟩

/-- The passes end with one that changes nothing, or with one in which a hook fails, or all of them
change something. -/
theorem ending (h : Repeats name left done passes r) :
    (∃ calls ∈ passes.getLast?, verdict calls = .ok false ∧ r = .ok (done + passes.length)) ∨
      (∃ calls ∈ passes.getLast?, ∃ e, verdict calls = .error e ∧ r = .error e) ∨
      (∀ calls ∈ passes, verdict calls = .ok true) ∧ passes.length = left ∧
        r = .error (.unsettled name (done + left)) := by
  induction h with
  | spent => exact .inr (.inr ⟨by simp, rfl, rfl⟩)
  | failed failed => exact .inr (.inl ⟨_, rfl, _, failed, rfl⟩)
  | settled still => exact .inl ⟨_, rfl, still, rfl⟩
  | @again left done calls passes r changed others ih =>
    rcases ih with ⟨last, hlast, still, rfl⟩ | ⟨last, hlast, e, failed, rfl⟩ | ⟨hall, rfl, rfl⟩
    · refine .inl ⟨last, ?_, still, ?_⟩
      · rw [List.getLast?_cons, Option.mem_def.1 hlast]
        rfl
      · rw [List.length_cons, Nat.add_assoc, Nat.add_comm 1]
    · refine .inr (.inl ⟨last, ?_, e, failed, rfl⟩)
      rw [List.getLast?_cons, Option.mem_def.1 hlast]
      rfl
    · refine .inr (.inr ⟨List.forall_mem_cons.2 ⟨changed, hall⟩, rfl, ?_⟩)
      rw [Nat.add_assoc, Nat.add_comm 1]

end Repeats

end Transform

/-! ### Whole runs -/

/-- The calls of a run in order. -/
structure Course where
  /-- The call before the passes. -/
  first : Call
  /-- The calls of each pass. -/
  passes : List (List Call)
  /-- The call after the passes, if there is one. -/
  last : List Call

namespace Course

/-- All calls in order. -/
def calls (k : Course) : List Call :=
  k.first :: (k.passes.flatten ++ k.last)

/-- How a run of the stage `name` over `p` goes that leaves `p'` and comes to a number of passes or
fails. -/
structure Describes (k : Course) (name : String) (p p' : Codebase) (outcome : Except Error Nat) :
    Prop where
  /-- The hook before the passes is called once. The passes are made in turn over what it leaves,
  and the hook after them is called at most once, over what they leave. -/
  chain : ∃ p₁ p₂ answer, k.first = .beforeAll p p₁ answer ∧ VisitsInTurn p₁ k.passes p₂ ∧
    (k.last = [] ∧ p' = p₂ ∨ ∃ answer, k.last = [.afterAll p₂ p' answer])
  /-- The hook after the passes is called if the last pass changed nothing. -/
  last_ne_nil_iff : k.last ≠ [] ↔
    Smooth (k.first :: k.passes.flatten) ∧ ∃ calls ∈ k.passes.getLast?, ¬Changes calls
  /-- There are at most so many passes. -/
  length_le : k.passes.length ≤ Transform.maxPasses
  /-- A pass that is followed by another one changed something. -/
  changes : ∀ calls ∈ k.passes.dropLast, Changes calls
  /-- No hook is called after one that failed. -/
  smooth_dropLast : Smooth k.calls.dropLast
  /-- The run succeeds if no hook failed and the last pass, and no pass before it, changed nothing.
  -/
  ok_iff : ∀ n, outcome = .ok n ↔ Smooth k.calls ∧ k.passes.length = n ∧
    (∀ calls ∈ k.passes.dropLast, Changes calls) ∧
    (∃ calls ∈ k.passes.getLast?, ¬Changes calls) ∧ n ≤ Transform.maxPasses
  /-- The run fails with the error of the first hook that failed, or because no hook failed and as
  many passes as there may be all changed something. -/
  error_iff : ∀ e, outcome = .error e ↔ k.calls.findSome? Call.error? = some e ∨
    Smooth k.calls ∧ k.passes.length = Transform.maxPasses ∧ (∀ calls ∈ k.passes, Changes calls) ∧
      e = .unsettled name Transform.maxPasses

end Course

namespace Course

variable {name : String} {p p₁ p₂ p₃ : Codebase} {changed : Bool} {passes : List (List Call)}

/-- A run that fails before its passes. -/
theorem describes_of_error (e : Error) :
    Describes ⟨.beforeAll p p₁ (.error e), [], []⟩ name p p₁ (.error e) where
  chain := ⟨p₁, p₁, .error e, rfl, .none, .inl ⟨rfl, rfl⟩⟩
  last_ne_nil_iff := by simp
  length_le := Nat.zero_le _
  changes := by simp
  smooth_dropLast := by simp [calls, Smooth]
  ok_iff := by simp
  error_iff e' := by
    have hmax : (0 : Nat) ≠ Transform.maxPasses := by decide
    simp [calls, Call.error?, Call.answer, hmax]

section

variable (hturn : VisitsInTurn p₁ passes p₂) {r : Except Error Nat}
  (h : Transform.Repeats name Transform.maxPasses 0 passes r)

include h in
/-- No hook fails before the last pass. -/
theorem smooth_front : Smooth (.beforeAll p p₁ (.ok changed) :: passes.dropLast.flatten) :=
  List.forall_mem_cons.2 ⟨rfl, smooth_flatten fun calls hm =>
    smooth_of_verdict (h.verdict_of_mem_dropLast calls hm)⟩

include h in
/-- What the calls up to the end of the last pass come to. -/
theorem verdict_passes {last : List Call} (hlast : last ∈ passes.getLast?) :
    verdict (.beforeAll p p₁ (.ok changed) :: passes.flatten) =
      (verdict last).map ((.beforeAll p p₁ (.ok changed) :: passes.dropLast.flatten :
        List Call).any Call.changed || ·) := by
  have hflatten : passes.flatten = passes.dropLast.flatten ++ last := by
    conv_lhs => rw [← List.dropLast_append_getLast? last hlast]
    rw [List.flatten_append, List.flatten_singleton]
  rw [hflatten, ← List.cons_append, verdict_append_of_ok (verdict_of_smooth (smooth_front h))]

include hturn h in
/-- No hook is called behind one that fails in a pass. -/
theorem smooth_dropLast_passes :
    Smooth (.beforeAll p p₁ (.ok changed) :: passes.flatten).dropLast := by
  cases hlast : passes.getLast? with
  | none =>
    rw [List.getLast?_eq_none_iff.1 hlast]
    simp [Smooth]
  | some last =>
    have hflatten : passes.flatten = passes.dropLast.flatten ++ last := by
      conv_lhs => rw [← List.dropLast_append_getLast? last hlast]
      rw [List.flatten_append, List.flatten_singleton]
    rw [hflatten, ← List.cons_append]
    exact smooth_dropLast_append (smooth_front h)
      (hturn.smooth_dropLast last (List.mem_of_mem_getLast? hlast))

end

/-- Passes that end without success: a hook fails, or all of them change something. -/
theorem describes_of_failed (hturn : VisitsInTurn p₁ passes p₂) {e : Error}
    (h : Transform.Repeats name Transform.maxPasses 0 passes (.error e)) :
    Describes ⟨.beforeAll p p₁ (.ok changed), passes, []⟩ name p p₂ (.error e) := by
  -- A last pass without changes would have ended the passes with success.
  have hunstill : ¬(Smooth (.beforeAll p p₁ (.ok changed) :: passes.flatten) ∧
      ∃ calls ∈ passes.getLast?, ¬Changes calls) := by
    rintro ⟨hsmooth, last, hlast, hstill⟩
    obtain ⟨b, hb⟩ := smooth_iff.1 hsmooth
    rw [verdict_passes h hlast] at hb
    rcases h.ending with ⟨_, _, _, hr⟩ | ⟨last', hlast', e', hfailed, -⟩ | ⟨hall, -, -⟩
    · cases hr
    · cases Option.mem_unique hlast hlast'
      rw [hfailed] at hb
      cases hb
    · exact hstill (verdict_eq_true_iff.1 (hall last (List.mem_of_mem_getLast? hlast))).2
  refine ⟨⟨p₁, p₂, _, rfl, hturn, .inl ⟨rfl, rfl⟩⟩, ?_, h.length_le, ?_, ?_, ?_, ?_⟩
  · simpa using hunstill
  · exact fun calls hm => (verdict_eq_true_iff.1 (h.verdict_of_mem_dropLast calls hm)).2
  · rw [calls, List.append_nil]
    exact smooth_dropLast_passes hturn h
  · intro n
    rw [calls, List.append_nil]
    exact iff_of_false (by simp) fun ⟨hsmooth, _, _, hlast, _⟩ => hunstill ⟨hsmooth, hlast⟩
  · intro e'
    rw [calls, List.append_nil, ← verdict_eq_error_iff, Except.error.injEq]
    -- Failing means that some call failed or that there were too many passes; which of them it is
    -- tells the error.
    rcases h.ending with ⟨_, _, _, hr⟩ | ⟨last, hlast, e, hfailed, hr⟩ | ⟨hall, hlength, hr⟩
    · cases hr
    · cases hr
      have hverdict : verdict (.beforeAll p p₁ (.ok changed) :: passes.flatten) = .error e := by
        rw [verdict_passes h hlast, hfailed]
        rfl
      rw [hverdict, Except.error.injEq, or_iff_left]
      rintro ⟨hsmooth, -⟩
      obtain ⟨b, hb⟩ := smooth_iff.1 hsmooth
      rw [hverdict] at hb
      cases hb
    · cases hr
      have hsmooth : Smooth (.beforeAll p p₁ (.ok changed) :: passes.flatten) :=
        List.forall_mem_cons.2 ⟨rfl, smooth_flatten fun calls hm => smooth_of_verdict (hall calls hm)⟩
      have hchanges : ∀ calls ∈ passes, Changes calls := fun calls hm =>
        (verdict_eq_true_iff.1 (hall calls hm)).2
      rw [verdict_of_smooth hsmooth, or_iff_right (by simp), Nat.zero_add, eq_comm]
      exact ⟨fun he => ⟨hsmooth, hlength, hchanges, he⟩, fun he => he.2.2.2⟩

/-- Passes that end with one that changes nothing. -/
theorem describes_of_settled (hturn : VisitsInTurn p₁ passes p₂) {n : Nat}
    (h : Transform.Repeats name Transform.maxPasses 0 passes (.ok n)) (answer : Except Error Bool) :
    Describes ⟨.beforeAll p p₁ (.ok changed), passes, [.afterAll p₂ p₃ answer]⟩ name p p₃
      (answer.map fun _ => n) := by
  -- The passes have ended with success, so only the last hook can still fail.
  rcases h.ending with ⟨last, hlast, hstill, hn⟩ | ⟨_, _, _, _, hr⟩ | ⟨_, _, hr⟩
  · rw [Nat.zero_add, Except.ok.injEq] at hn
    have hunchanged : ¬Changes last := (verdict_eq_false_iff.1 hstill).2
    have hchanges : ∀ calls ∈ passes.dropLast, Changes calls := fun calls hm =>
      (verdict_eq_true_iff.1 (h.verdict_of_mem_dropLast calls hm)).2
    have hsmooth : Smooth (.beforeAll p p₁ (.ok changed) :: passes.flatten) := by
      rw [smooth_iff, verdict_passes h hlast, hstill]
      exact ⟨_, rfl⟩
    have hsmooth_calls : Smooth (.beforeAll p p₁ (.ok changed) ::
        (passes.flatten ++ [.afterAll p₂ p₃ answer])) ↔ ∃ b, answer = .ok b := by
      rw [smooth_iff, ← List.cons_append, verdict_append_of_ok (verdict_of_smooth hsmooth),
        verdict_singleton, Call.answer]
      cases answer <;> simp [Except.map]
    refine ⟨⟨p₁, p₂, _, rfl, hturn, .inr ⟨answer, rfl⟩⟩, ?_, h.length_le, hchanges, ?_, ?_, ?_⟩
    · exact iff_of_true (List.cons_ne_nil _ _) ⟨hsmooth, last, hlast, hunchanged⟩
    · rw [calls, ← List.cons_append, List.dropLast_concat]
      exact hsmooth
    · intro k
      rw [calls, hsmooth_calls]
      dsimp only
      cases answer with
      | error e => simp [Except.map]
      | ok b =>
        rw [Except.map, Except.ok.injEq, hn]
        refine ⟨fun hk => ⟨⟨b, rfl⟩, hk, hchanges, ⟨last, hlast, hunchanged⟩, ?_⟩, fun hk => hk.2.1⟩
        rw [← hk]
        exact h.length_le
    · intro e
      rw [calls, ← verdict_eq_error_iff, ← List.cons_append,
        verdict_append_of_ok (verdict_of_smooth hsmooth), verdict_singleton, Call.answer,
        or_iff_left fun hall => hunchanged (hall.2.2.1 last (List.mem_of_mem_getLast? hlast))]
      cases answer <;> simp [Except.map]
  · cases hr
  · cases hr

end Course

/-- A run without its notes. -/
def Run.forget (r : Run (σ × List Call)) : Run σ :=
  ⟨r.report, r.codebase, r.context.forget⟩

namespace Transform

/-- Without its notes a watched run is the run. -/
theorem forget_run (t : Transform σ) (settings : Settings) (journal : Journal) (p : Codebase) :
    (t.noting.run settings journal p).forget = t.run settings journal p := by
  have hstart : ({ state := t.start, settings, journal } : Context σ) =
      Context.forget { state := t.noting.start, settings, journal } := rfl
  have hbefore : t.noting.beforeAll.Forgets t.beforeAll := Hook.forgets_noting _ _
  rw [run, run, hstart, hbefore]
  generalize t.noting.beforeAll p { state := t.noting.start, settings, journal } = s
  dsimp only
  cases s.changed with
  | error e => rfl
  | ok changed =>
    dsimp only
    rw [t.forget_settle]
    generalize t.noting.settle maxPasses 0 s.value s.context = r
    obtain ⟨_ | n, p₂, c⟩ := r
    · rfl
    · rfl

/-- Watching a run changes nothing in it, and shows its course. -/
theorem run_course (t : Transform σ) (settings : Settings) (journal : Journal) (p : Codebase) :
    (t.noting.run settings journal p).forget = t.run settings journal p ∧
      ∃ k : Course, (t.noting.run settings journal p).context.calls = k.calls ∧
        k.Describes t.name p (t.run settings journal p).codebase
          ((t.run settings journal p).report.map (·.passes)) := by
  refine ⟨t.forget_run settings journal p, ?_⟩
  rw [← t.forget_run settings journal p, run]
  have hfirst : (t.noting.beforeAll p { state := t.noting.start, settings, journal }).context.calls =
      [.beforeAll p (t.noting.beforeAll p { state := t.noting.start, settings, journal }).value
        (t.noting.beforeAll p { state := t.noting.start, settings, journal }).changed] := rfl
  generalize t.noting.beforeAll p { state := t.noting.start, settings, journal } = s at hfirst
  dsimp only [Run.forget]
  -- The course has as many parts as the run: the first hook, the passes and the last hook.
  cases hs : s.changed with
  | error e =>
    rw [hs] at hfirst
    exact ⟨⟨.beforeAll p s.value (.error e), [], []⟩, hfirst, Course.describes_of_error e⟩
  | ok changed =>
    obtain ⟨passes, hcalls, hturn, hrepeats⟩ := t.notes_settle maxPasses 0 s.value s.context
    rw [hfirst, hs, List.singleton_append] at hcalls
    dsimp only
    split
    · next e p₂ c heq =>
      rw [heq] at hcalls hturn hrepeats
      refine ⟨⟨.beforeAll p s.value (.ok changed), passes, []⟩, ?_,
        Course.describes_of_failed hturn hrepeats⟩
      rw [hcalls, Course.calls, List.append_nil]
    · next n p₂ c heq =>
      rw [heq] at hcalls hturn hrepeats
      have hlast : (t.noting.afterAll p₂ c).context.calls =
          c.calls ++ [.afterAll p₂ (t.noting.afterAll p₂ c).value
            (t.noting.afterAll p₂ c).changed] := rfl
      generalize t.noting.afterAll p₂ c = s' at hlast
      have hreport : (s'.changed.map fun _ => (⟨t.noting.name, n, s'.context.counters⟩ : Report)).map
          (·.passes) = s'.changed.map fun _ => n := by
        cases s'.changed <;> rfl
      refine ⟨⟨.beforeAll p s.value (.ok changed), passes, [.afterAll p₂ s'.value s'.changed]⟩,
        ?_, ?_⟩
      · rw [hlast, hcalls, Course.calls, List.cons_append]
      · rw [hreport]
        exact Course.describes_of_settled hturn hrepeats s'.changed

end Transform

end Unscramble
