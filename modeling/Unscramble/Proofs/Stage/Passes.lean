import Unscramble.Proofs.Stage.Hooks
import Unscramble.Stage.Bodies

/-! # Passes that come to an end

A stage settles if every pass takes what it sees a level down and a pass at the lowest level changes
nothing. Levels are carried from the parts of a codebase to the whole, so that it is enough to know
what the hooks of a stage do.

Main definitions: `Error.isUnsettled`, `Hook.Sober`, `Hook.Lowers`, `Transform.after`,
`Stage.SettlesWithin`, `Transform.EndsAfter`. Main statements:
`Transform.settlesWithin_of_quiet`, `Transform.endsAfter`, `Transform.lowers_bodies`. -/

namespace Unscramble

/-- Whether an error says that a stage did not settle. -/
def Error.isUnsettled : Error → Bool
  | .unsettled _ _ => true
  | _ => false

/-- How an answer is joined with an earlier one that was no failure. -/
theorem map_or_eq_error {changed : Bool} {r : Except Error Bool} {e : Error} :
    r.map (changed || ·) = .error e ↔ r = .error e := by
  cases r with
  | error => exact ⟨fun h => h ▸ rfl, fun h => h ▸ rfl⟩
  | ok => exact ⟨nofun, nofun⟩

/-- Something changed if it did before or in what is left. -/
theorem map_or_eq_ok {changed all : Bool} {r : Except Error Bool} :
    r.map (changed || ·) = .ok all ↔ ∃ rest, r = .ok rest ∧ (changed || rest) = all := by
  cases r with
  | error => exact ⟨nofun, fun ⟨_, h, _⟩ => nomatch h⟩
  | ok rest => exact ⟨fun h => ⟨rest, rfl, Except.ok.inj h⟩, fun ⟨_, h, hall⟩ => by cases h; exact congrArg _ hall⟩

namespace Hook

variable {σ α β : Type} {f g : Hook σ α} {G : Context σ → Prop} {R R' : Nat → α → Prop}

/-- A hook before one that does nothing is that hook alone. -/
theorem andThen_idle (f : Hook σ α) : f.andThen idle = f := by
  funext a c
  rw [Hook.andThen]
  dsimp only [idle]
  cases f a c with
  | mk changed value context =>
    cases changed with
    | error => rfl
    | ok changed =>
      show Step.mk (.ok (changed || false)) value context = _
      rw [Bool.or_false]

/-! ### Hooks that fail for other reasons -/

/-- If a hook fails, it is not for a stage that does not settle. -/
def Sober (f : Hook σ α) : Prop :=
  ∀ a c e, (f a c).changed = .error e → e.isUnsettled = false

/-- Doing nothing never fails for want of passes. -/
theorem sober_idle : (idle : Hook σ α).Sober :=
  fun _ _ _ => nofun

/-- Counting changes never fails for want of passes. -/
theorem sober_counting {counter : String} {f : α → Nat × α} :
    (Hook.counting counter f : Hook σ α).Sober :=
  fun _ _ _ => nofun

/-- A hook after another one fails for want of passes only if one of them does. -/
theorem Sober.andThen (hf : f.Sober) (hg : g.Sober) : (f.andThen g).Sober := by
  intro a c e he
  rw [Hook.andThen] at he
  dsimp only at he
  split at he
  · exact hf a c e he
  · exact hg _ _ _ (map_or_eq_error.1 he)

/-- A hook for each element fails for want of passes only if the hook for one does. -/
theorem Sober.each (hf : f.Sober) : (Hook.each f).Sober := by
  intro as
  induction as with
  | nil => exact fun c e => nofun
  | cons a as ih =>
    intro c e he
    rw [Hook.each] at he
    dsimp only at he
    split at he
    · next e' hfirst =>
      cases he
      exact hf a c e hfirst
    · exact ih _ _ (map_or_eq_error.1 he)

/-- A hook for a part fails for want of passes only if the hook does. -/
theorem Sober.focus {part : α → β} {setPart : α → β → α} {f : Hook σ β} (hf : f.Sober) :
    (Hook.focus part setPart f).Sober :=
  fun a => hf (part a)

/-! ### Levels -/

/-- A hook takes what it sees a level down, and at the lowest level it changes nothing. -/
structure Lowers (f : Hook σ α) (G : Context σ → Prop) (R : Nat → α → Prop) : Prop where
  /-- What is asked of the context stays true. -/
  context : ∀ a c, G c → G (f a c).context
  /-- What is left is a level lower, unless the hook fails. -/
  level : ∀ k a c changed, G c → R k a → (f a c).changed = .ok changed →
    R (k - 1) (f a c).value ∧ (k = 0 → changed = false)

/-- A hook that gives the right answer at once. -/
theorem lowers_of_once {Q : α → Prop} (hcontext : ∀ a c, G c → G (f a c).context)
    (hvalue : ∀ a c, G c → Q (f a c).value)
    (hagain : ∀ a c, G c → Q a → (f a c).changed ≠ .ok true) :
    f.Lowers G (fun k a => k = 0 → Q a) where
  context := hcontext
  level := by
    intro k a c changed hc hk hchanged
    refine ⟨fun _ => hvalue a c hc, fun hzero => ?_⟩
    cases changed with
    | false => rfl
    | true => exact absurd hchanged (hagain a c hc (hk hzero))

/-- Two hooks that leave each other's levels alone. -/
theorem Lowers.andThen (hf : f.Lowers G R) (hg : g.Lowers G R')
    (hkeep : ∀ k a c, G c → R' k a → R' k (f a c).value)
    (hkeep' : ∀ k a c, G c → R k a → R k (g a c).value) :
    (f.andThen g).Lowers G (fun k a => R k a ∧ R' k a) := by
  -- A failure of the first hook is not asked about; otherwise both have lowered their levels.
  constructor
  · intro a c hc
    rw [Hook.andThen]
    dsimp only
    split
    · exact hf.context a c hc
    · exact hg.context _ _ (hf.context a c hc)
  · intro k a c changed hc hk hchanged
    rw [Hook.andThen] at hchanged ⊢
    dsimp only at hchanged ⊢
    split at hchanged
    · next herror =>
      rw [herror] at hchanged
      cases hchanged
    · next first hfirst =>
      obtain ⟨second, hsecond, hall⟩ := map_or_eq_ok.1 hchanged
      have hcontext := hf.context a c hc
      obtain ⟨hlow, hzero⟩ := hf.level k a c first hc hk.1 hfirst
      obtain ⟨hlow', hzero'⟩ :=
        hg.level k _ _ second hcontext (hkeep k a c hc hk.2) hsecond
      refine ⟨⟨hkeep' _ _ _ hcontext hlow, hlow'⟩, fun hk => ?_⟩
      rw [← hall, hzero hk, hzero' hk]
      rfl

/-- A hook lowers by every relation that is the same. -/
theorem Lowers.congr (hf : f.Lowers G R) (h : ∀ k a, R k a ↔ R' k a) : f.Lowers G R' where
  context := hf.context
  level := by
    intro k a c changed hc hk hchanged
    obtain ⟨hlow, hzero⟩ := hf.level k a c changed hc ((h k a).2 hk) hchanged
    exact ⟨(h _ _).1 hlow, hzero⟩

/-- A list is at the level of its elements. -/
theorem Lowers.each (hf : f.Lowers G R) : (Hook.each f).Lowers G (fun k as => ∀ a ∈ as, R k a) := by
  -- On the elements, first for the context and then for the levels.
  constructor
  · intro as
    induction as with
    | nil => exact fun c hc => hc
    | cons a as ih =>
      intro c hc
      rw [Hook.each]
      dsimp only
      split
      · exact hf.context a c hc
      · exact ih _ (hf.context a c hc)
  · intro k as
    induction as with
    | nil =>
      intro c changed _ _ h
      exact ⟨fun a ha => absurd ha List.not_mem_nil, fun _ => (Except.ok.inj h).symm⟩
    | cons a as ih =>
      intro c changed hc hk hchanged
      obtain ⟨hhead, hrest⟩ := List.forall_mem_cons.1 hk
      rw [Hook.each] at hchanged ⊢
      dsimp only at hchanged ⊢
      split at hchanged
      · cases hchanged
      · next first hfirst =>
        obtain ⟨second, hsecond, hall⟩ := map_or_eq_ok.1 hchanged
        obtain ⟨hlow, hzero⟩ := hf.level k a c first hc hhead hfirst
        obtain ⟨hlow', hzero'⟩ := ih _ second (hf.context a c hc) hrest hsecond
        refine ⟨List.forall_mem_cons.2 ⟨hlow, hlow'⟩, fun hk => ?_⟩
        rw [← hall, hzero hk, hzero' hk]
        rfl

/-- What a hook looks at is at the level of the part that it sees. -/
theorem Lowers.focus {part : α → β} {setPart : α → β → α} {f : Hook σ β} {R : Nat → β → Prop}
    (hf : f.Lowers G R) (hset : ∀ a b, part (setPart a b) = b) :
    (Hook.focus part setPart f).Lowers G (fun k a => R k (part a)) where
  context a := hf.context (part a)
  level := by
    intro k a c changed hc hk hchanged
    obtain ⟨hlow, hzero⟩ := hf.level k (part a) c changed hc hk hchanged
    refine ⟨?_, hzero⟩
    show R (k - 1) (part (setPart a (f (part a) c).value))
    rwa [hset]

end Hook

/-! ### Runs -/

/-- A stage does not fail for want of passes, and if it does not fail at all it takes no more passes
than a given number. -/
def Stage.SettlesWithin (stage : Stage) (bound : Nat) (settings : Settings) (journal : Journal)
    (p : Codebase) : Prop :=
  (∀ e, (stage.run settings journal p).1 = .error e → e.isUnsettled = false) ∧
    ∀ report, (stage.run settings journal p).1 = .ok report → report.passes ≤ bound

namespace Transform

variable {σ : Type} {t : Transform σ} {G : Context σ → Prop} {R : Nat → Codebase → Prop}

/-- What is left after some passes, whether or not they change something. -/
def after (t : Transform σ) (p : Codebase) (c : Context σ) : Nat → Codebase × Context σ
  | 0 => (p, c)
  | n + 1 => t.after (t.pass p c).value (t.pass p c).context n

/-- Whether a transform makes no difference, or fails, after as many passes. -/
def QuietAt (t : Transform σ) (n : Nat) (settings : Settings) (journal : Journal) (p : Codebase) :
    Prop :=
  let s := t.beforeAll p { state := t.start, settings, journal }
  let (p, c) := t.after s.value s.context n
  (t.pass p c).changed ≠ .ok true

/-- After as many passes as a given number, or fewer, comes one that makes no difference or fails, and
the stage settles with it unless this is more than it is granted. -/
def EndsAfter (t : Transform σ) (bound : Nat) (settings : Settings) (journal : Journal)
    (p : Codebase) : Prop :=
  ∃ n ≤ bound, t.QuietAt n settings journal p ∧
    (n < maxPasses → t.toStage.SettlesWithin (n + 1) settings journal p)

/-- If every pass that changes something goes down from a level, one after as many of them at most
changes nothing more or fails. -/
theorem exists_quiet {L : Nat → Codebase → Context σ → Prop}
    (hlower : ∀ k p c, L k p c → (t.pass p c).changed = .ok true →
      ∃ j < k, L j (t.pass p c).value (t.pass p c).context)
    {k : Nat} {p : Codebase} {c : Context σ} (hk : L k p c) :
    ∃ n ≤ k, (t.pass (t.after p c n).1 (t.after p c n).2).changed ≠ .ok true := by
  induction k using Nat.strong_induction_on generalizing p c with
  | h k ih =>
    by_cases hchanged : (t.pass p c).changed = .ok true
    · obtain ⟨j, hj, hlow⟩ := hlower k p c hk hchanged
      obtain ⟨n, hn, hquiet⟩ := ih j hj hlow
      exact ⟨n + 1, by omega, hquiet⟩
    · exact ⟨0, Nat.zero_le k, hchanged⟩

/-- A transform settles with a pass that changes nothing, if it is granted this pass. -/
theorem settle_of_quiet (sober : t.pass.Sober) {n left : Nat} (done : Nat) {p : Codebase}
    {c : Context σ} (hquiet : (t.pass (t.after p c n).1 (t.after p c n).2).changed ≠ .ok true)
    (hn : n < left) :
    (∀ e, (t.settle left done p c).1 = .error e → e.isUnsettled = false) ∧
      ∀ passes, (t.settle left done p c).1 = .ok passes → passes ≤ done + n + 1 := by
  induction left generalizing done n p c with
  | zero => exact absurd hn (Nat.not_lt_zero n)
  | succ left ih =>
    rw [settle]
    split
    · next e hpass =>
      exact ⟨fun e' he' => Except.error.inj he' ▸ sober p c e hpass, fun passes hp => by cases hp⟩
    · next hpass =>
      cases n with
      | zero => exact absurd hpass hquiet
      | succ n =>
        obtain ⟨herror, hpasses⟩ := ih (n := n) (p := (t.pass p c).value)
          (c := (t.pass p c).context) (done + 1) hquiet (Nat.lt_of_succ_lt_succ hn)
        exact ⟨herror, fun passes hp => by have := hpasses passes hp; omega⟩
    · exact ⟨fun e he => (by cases he), fun passes hp => by cases hp; omega⟩

/-- A stage settles with a pass that changes nothing, if this is not beyond the last one that is
granted. -/
theorem settlesWithin_of_quiet (before : t.beforeAll.Sober) (sober : t.pass.Sober)
    (after : t.afterAll.Sober) {n : Nat} (hn : n < maxPasses) {settings : Settings}
    {journal : Journal} {p : Codebase} (hquiet : t.QuietAt n settings journal p) :
    t.toStage.SettlesWithin (n + 1) settings journal p := by
  obtain ⟨herror, hpasses⟩ := settle_of_quiet sober 0 hquiet hn
  show (∀ e, (t.run settings journal p).report = .error e → _) ∧
    ∀ report, (t.run settings journal p).report = .ok report → _
  rw [run]
  -- The run ends in its first hook, in the passes or in its last hook.
  dsimp only
  split
  · next e he =>
    exact ⟨fun e' he' => Except.error.inj he' ▸ before _ _ e he, fun report hreport => by
      cases hreport⟩
  · split
    · next e p' c' heq =>
      rw [heq] at herror
      exact ⟨fun e' he' => herror e' (congrArg Except.error (Except.error.inj he')),
        fun report hreport => by cases hreport⟩
    · next passes p' c' heq =>
      rw [heq] at hpasses
      have hbound := hpasses passes rfl
      dsimp only
      cases hafter : (t.afterAll p' c').changed with
      | error e =>
        exact ⟨fun e' he' => Except.error.inj he' ▸ after _ _ e hafter, fun report hreport => by
          cases hreport⟩
      | ok =>
        refine ⟨fun e he => (by cases he), fun report hreport => ?_⟩
        cases hreport
        show passes ≤ n + 1
        omega

/-- A transform comes to an end if its passes go down from a level. -/
theorem endsAfter_of_level (before : t.beforeAll.Sober) (sober : t.pass.Sober)
    (after : t.afterAll.Sober) {L : Nat → Codebase → Context σ → Prop}
    (hlower : ∀ k p c, L k p c → (t.pass p c).changed = .ok true →
      ∃ j < k, L j (t.pass p c).value (t.pass p c).context)
    {k : Nat} {settings : Settings} {journal : Journal} {p : Codebase}
    (hstart : L k (t.beforeAll p { state := t.start, settings, journal }).value
      (t.beforeAll p { state := t.start, settings, journal }).context) :
    t.EndsAfter k settings journal p := by
  obtain ⟨n, hn, hquiet⟩ := exists_quiet hlower hstart
  exact ⟨n, hn, hquiet, fun hgranted => settlesWithin_of_quiet before sober after hgranted hquiet⟩

/-- A transform comes to an end if its hooks lower what its first hook leaves. -/
theorem endsAfter (before : t.beforeAll.Sober) (sober : t.pass.Sober) (after : t.afterAll.Sober)
    (h : t.pass.Lowers G R) {k : Nat} {settings : Settings} {journal : Journal} {p : Codebase}
    (hstart : G (t.beforeAll p { state := t.start, settings, journal }).context ∧
      R k (t.beforeAll p { state := t.start, settings, journal }).value) :
    t.EndsAfter k settings journal p := by
  have hlower : ∀ k p c, G c ∧ R k p → (t.pass p c).changed = .ok true →
      ∃ j < k, G (t.pass p c).context ∧ R j (t.pass p c).value := by
    rintro k p c ⟨hc, hp⟩ hchanged
    obtain ⟨hlow, hzero⟩ := h.level k p c true hc hp hchanged
    cases k with
    | zero => exact absurd (hzero rfl) Bool.true_eq_false_eq_False
    | succ k => exact ⟨k, Nat.lt_succ_self k, h.context p c hc, hlow⟩
  exact endsAfter_of_level before sober after hlower hstart

/-- What ends after some passes ends after more. -/
theorem EndsAfter.mono {j k : Nat} {settings : Settings} {journal : Journal} {p : Codebase}
    (h : t.EndsAfter j settings journal p) (hjk : j ≤ k) : t.EndsAfter k settings journal p := by
  obtain ⟨n, hn, hquiet⟩ := h
  exact ⟨n, hn.trans hjk, hquiet⟩

/-- A transform that comes to an end before its last pass settles. -/
theorem EndsAfter.settlesWithin {k : Nat} {settings : Settings} {journal : Journal} {p : Codebase}
    (h : t.EndsAfter k settings journal p) (hk : k < maxPasses) :
    t.toStage.SettlesWithin (k + 1) settings journal p := by
  obtain ⟨n, hn, -, hsettles⟩ := h
  obtain ⟨herror, hpasses⟩ := hsettles (by omega)
  exact ⟨herror, fun report hreport => by have := hpasses report hreport; omega⟩

/-! ### Passes over the parts of a codebase -/

/-- A pass is sober if all hooks are. -/
theorem sober_pass (hclass : t.onClass.Sober) (hfield : t.onField.Sober)
    (hbefore : t.beforeBody.Sober) (hbody : ∀ m, (t.onBody m).Sober) (hafter : t.afterBody.Sober)
    (hpass : t.onPass.Sober) : t.pass.Sober := by
  have hvisit : (visitBody t.onBody).Sober := by
    intro m c e he
    rw [visitBody.eq_def] at he
    split at he
    · cases he
    · exact hbody _ _ _ _ he
  exact ((hclass.andThen hfield.each.focus).andThen
    ((hbefore.andThen hvisit).andThen hafter).each.focus).each.focus.andThen hpass

variable {name : String} {start : σ} {beforeAll : Hook σ Codebase} {onBody : Method → Hook σ Body}

/-- A pass of a transform of bodies visits the bodies. -/
theorem pass_eq_visitBodies :
    Transform.pass { name, start, beforeAll, onBody } =
      Hook.focus (·.classes) (fun p classes => { p with classes })
        (.each (.focus (·.methods) (fun c methods => { c with methods })
          (.each (visitBody onBody)))) := by
  have hmethod : visitMethod { name, start, beforeAll, onBody } = visitBody onBody := by
    rw [visitMethod, Hook.idle_andThen, Hook.andThen_idle]
  rw [pass, Hook.andThen_idle]
  unfold visitClass
  rw [hmethod, Hook.each_idle, Hook.focus_idle fun _ => rfl, Hook.idle_andThen, Hook.idle_andThen]

/-- A codebase is at the level of its bodies. -/
theorem lowers_bodies {R : Nat → Body → Prop} (h : ∀ m, (onBody m).Lowers G R) :
    (Transform.pass { name, start, beforeAll, onBody }).Lowers G
      (fun k p => ∀ b ∈ p.bodies, R k b) := by
  -- A hook on bodies keeps the level of a method, and so that of a class and of the codebase.
  have hvisit : (visitBody onBody).Lowers G (fun k m => ∀ b ∈ m.body, R k b) := by
    constructor
    · intro m c hc
      rw [visitBody.eq_def]
      split
      · exact hc
      · exact (h _).context _ _ hc
    · intro k m c changed hc hk hchanged
      rw [visitBody.eq_def] at hchanged ⊢
      split at hchanged
      · next hnone =>
        simp only [hnone]
        exact ⟨fun b hb => (by cases hb), fun _ => (Except.ok.inj hchanged).symm⟩
      · next b hb =>
        obtain ⟨hlow, hzero⟩ := (h _).level k b c changed hc (hk b hb) hchanged
        refine ⟨fun b' hb' => ?_, hzero⟩
        cases hb'
        exact hlow
  have hmethods : (Hook.focus (·.methods) (fun c methods => { c with methods })
      (.each (visitBody onBody)) : Hook σ Class).Lowers G
      (fun k c => ∀ m ∈ c.methods, ∀ b ∈ m.body, R k b) :=
    hvisit.each.focus fun _ _ => rfl
  rw [pass_eq_visitBodies]
  refine (hmethods.each.focus fun _ _ => rfl).congr fun k p => ?_
  simp only [Codebase.bodies, Codebase.methods, List.mem_filterMap, List.mem_flatMap,
    Option.mem_def]
  constructor
  · rintro h b ⟨m, ⟨c, hc, hm⟩, hb⟩
    exact h c hc m hm b hb
  · exact fun h c hc m hm b hb => h b ⟨m, ⟨c, hc, hm⟩, hb⟩

end Transform

/-! ### Lists that thread a state through -/

namespace Stage

variable {σ α : Type} {f : σ → α → σ × α} {s : σ} {as : List α}

/-- What is left of a list was left of some element. -/
theorem mem_mapThrough {a' : α} (h : a' ∈ (mapThrough f s as).2) :
    ∃ s, ∃ a ∈ as, a' = (f s a).2 := by
  induction as generalizing s with
  | nil => cases h
  | cons a as ih =>
    rcases List.mem_cons.1 h with rfl | h
    · exact ⟨s, a, List.mem_cons_self, rfl⟩
    · obtain ⟨s, a, ha, rfl⟩ := ih h
      exact ⟨s, a, List.mem_cons_of_mem _ ha, rfl⟩

/-- What every element keeps of the state, the list keeps. -/
theorem mapThrough_keeps {P : σ → Prop} (hs : P s) (h : ∀ s, ∀ a ∈ as, P s → P (f s a).1) :
    P (mapThrough f s as).1 := by
  induction as generalizing s with
  | nil => exact hs
  | cons a as ih =>
    obtain ⟨ha, has⟩ : (∀ s, P s → P (f s a).1) ∧ ∀ s, ∀ a ∈ as, P s → P (f s a).1 :=
      ⟨fun s => h s a List.mem_cons_self, fun s a' ha' => h s a' (List.mem_cons_of_mem _ ha')⟩
    exact ih (ha s hs) has

end Stage

end Unscramble
