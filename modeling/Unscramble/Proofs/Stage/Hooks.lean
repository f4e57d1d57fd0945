import Mathlib
import Unscramble.Stage.Basic

/-! # Hooks in whole runs

A relation between what is there before and afterwards, which a hook respects whether or not it
fails. If the relation can be chained, a bundle of hooks that respect it respects it over all its
passes, however many there are.

Which hooks are called on a method, a class and a codebase, in which order, and on what. Hooks are
called one after the other whether or not they report a change, and a failure ends the visit at
once. The calls of a visit decide what it comes to: a failure, a change, or neither.

Main definitions: `Hook.Respects`, `Call`, `verdict`, `VisitsEach`, `VisitsMethod`, `VisitsClass`,
`VisitsCodebase`, `VisitsInTurn`. Main statements: `Hook.Respects.andThen`, `Hook.Respects.each`,
`Transform.respects_pass`, `Transform.run_respects`, `Transform.pass_eq_onPass`. -/

namespace Unscramble

namespace Hook

variable {σ α β : Type} {R : α → α → Prop} {S : β → β → Prop}

/-- A hook relates what it sees to what it leaves. -/
def Respects (R : α → α → Prop) (f : Hook σ α) : Prop :=
  ∀ a c, R a (f a c).value

/-- A hook that keeps to a relation keeps to every wider one. -/
theorem Respects.mono {R' : α → α → Prop} {f : Hook σ α} (hf : f.Respects R)
    (himp : ∀ a b, R a b → R' a b) : f.Respects R' :=
  fun a c => himp _ _ (hf a c)

/-- A hook that does nothing keeps to a relation of everything to itself. -/
theorem respects_idle (hrefl : ∀ a, R a a) : (idle : Hook σ α).Respects R :=
  fun a _ => hrefl a

/-- A hook after another one keeps to a transitive relation if both do. -/
theorem Respects.andThen {f g : Hook σ α} (hf : f.Respects R) (hg : g.Respects R)
    (htrans : ∀ a b c, R a b → R b c → R a c) : (f.andThen g).Respects R := by
  intro a c
  rw [Hook.andThen]
  dsimp only
  split
  · exact hf a c
  · exact htrans _ _ _ (hf a c) (hg _ _)

/-- What a hook leaves of a list stands where its origin stood. -/
theorem Respects.each {f : Hook σ α} (hf : f.Respects R) (hrefl : ∀ a, R a a) :
    (Hook.each f).Respects (List.Forall₂ R) := by
  intro as
  induction as with
  | nil => exact fun c => .nil
  | cons a as ih =>
    intro c
    rw [Hook.each]
    dsimp only
    split
    · exact .cons (hf a c) (List.forall₂_same.2 fun b _ => hrefl b)
    · exact .cons (hf a c) (ih _)

/-- A hook for a part keeps to a relation of the whole that follows from one of the part. -/
theorem Respects.focus {part : α → β} {setPart : α → β → α} {f : Hook σ β} (hf : f.Respects S)
    (hpart : ∀ a b, S (part a) b → R a (setPart a b)) : (Hook.focus part setPart f).Respects R :=
  fun a c => hpart _ _ (hf (part a) c)

/-- A hook that counts changes keeps to a relation if the changes do. -/
theorem respects_counting {counter : String} {f : α → Nat × α} (hf : ∀ a, R a (f a).2) :
    (Hook.counting counter f : Hook σ α).Respects R :=
  fun a _ => hf a

/-! ### Idle hooks -/

/-- A hook after one that does nothing is that hook alone. -/
theorem idle_andThen (g : Hook σ α) : idle.andThen g = g := by
  funext a c
  rw [Hook.andThen, idle]
  dsimp only
  cases g a c with
  | mk changed value context => cases changed <;> rfl

/-- Doing nothing with each element is doing nothing. -/
theorem each_idle : Hook.each (idle : Hook σ α) = idle := by
  funext as c
  induction as with
  | nil => rfl
  | cons a as ih =>
    rw [Hook.each, idle]
    dsimp only
    rw [ih]
    rfl

/-- Doing nothing with a part is doing nothing. -/
theorem focus_idle {part : α → β} {setPart : α → β → α} (hset : ∀ a, setPart a (part a) = a) :
    Hook.focus part setPart (idle : Hook σ β) = idle := by
  funext a c
  rw [Hook.focus, idle, hset]
  rfl

end Hook

namespace Transform

variable {σ : Type} {R : Codebase → Codebase → Prop} {C : Class → Class → Prop}
  {F : Field → Field → Prop} {M : Method → Method → Prop} {B : Body → Body → Prop}

/-- A method keeps its place when its body is visited. -/
theorem respects_visitMethod {t : Transform σ} (hrefl : ∀ m, M m m)
    (htrans : ∀ m m' m'', M m m' → M m' m'' → M m m'') (hbefore : t.beforeBody.Respects M)
    (hbody : ∀ m, (t.onBody m).Respects B)
    (hM : ∀ m b b', m.body = some b → B b b' → M m { m with body := some b' })
    (hafter : t.afterBody.Respects M) : t.visitMethod.Respects M := by
  refine (hbefore.andThen ?_ htrans).andThen hafter htrans
  intro m c
  rw [visitBody.eq_def]
  dsimp only
  split
  · exact hrefl m
  · next b hb => exact hM m b _ hb (hbody _ _ _)

/-- A pass respects what its hooks respect. -/
theorem respects_pass {t : Transform σ} (htrans : ∀ p p' p'', R p p' → R p' p'' → R p p'')
    (hC : ∀ c c' c'', C c c' → C c' c'' → C c c'') (hreflC : ∀ c, C c c)
    (hreflF : ∀ f, F f f) (hreflM : ∀ m, M m m) (hclass : t.onClass.Respects C)
    (hfield : t.onField.Respects F) (hmethod : t.visitMethod.Respects M)
    (hfields : ∀ c fields, List.Forall₂ F c.fields fields → C c { c with fields })
    (hmethods : ∀ c methods, List.Forall₂ M c.methods methods → C c { c with methods })
    (hclasses : ∀ p classes, List.Forall₂ C p.classes classes → R p { p with classes })
    (hpass : t.onPass.Respects R) : t.pass.Respects R := by
  have hvisit : t.visitClass.Respects C :=
    (hclass.andThen ((hfield.each hreflF).focus hfields) hC).andThen
      ((hmethod.each hreflM).focus hmethods) hC
  exact ((hvisit.each hreflC).focus hclasses).andThen hpass htrans

/-- All passes respect what one respects. -/
theorem respects_settle {t : Transform σ} (htrans : ∀ p p' p'', R p p' → R p' p'' → R p p'')
    (hrefl : ∀ p, R p p) (hpass : t.pass.Respects R) (left done : Nat) (p : Codebase)
    (c : Context σ) : R p (t.settle left done p c).2.1 := by
  induction left generalizing done p c with
  | zero => exact hrefl p
  | succ left ih =>
    rw [settle]
    split
    · exact hpass p c
    · exact htrans _ _ _ (hpass p c) (ih _ _ _)
    · exact hpass p c

/-- A run respects what its passes and the hooks around them respect. -/
theorem run_respects {t : Transform σ} (htrans : ∀ p p' p'', R p p' → R p' p'' → R p p'')
    (hrefl : ∀ p, R p p) (hbefore : t.beforeAll.Respects R) (hpass : t.pass.Respects R)
    (hafter : t.afterAll.Respects R) (settings : Settings) (journal : Journal) (p : Codebase) :
    R p (t.run settings journal p).codebase := by
  have hstart := hbefore p { state := t.start, settings, journal }
  rw [run]
  dsimp only
  split
  · exact hstart
  · have hsettle := htrans _ _ _ hstart (respects_settle htrans hrefl hpass maxPasses 0 _
      (t.beforeAll p { state := t.start, settings, journal }).context)
    split
    · next heq =>
      rw [heq] at hsettle
      exact hsettle
    · next p' c' heq =>
      rw [heq] at hsettle
      exact htrans _ _ _ hsettle (hafter _ _)

/-! ### Transforms of whole codebases -/

/-- Doing nothing with bodies is doing nothing with methods. -/
theorem visitBody_idle : visitBody (fun _ => .idle) = (.idle : Hook σ Method) := by
  funext m c
  rw [visitBody.eq_def]
  obtain ⟨owner, name, descriptor, access, body, exceptions, annotations, attributes⟩ := m
  cases body <;> rfl

/-- A pass of a transform of whole codebases is what it does to the codebase. -/
theorem pass_eq_onPass {name : String} {start : σ} {beforeAll onPass afterAll : Hook σ Codebase} :
    Transform.pass { name, start, beforeAll, onPass, afterAll } = onPass := by
  have hmethod : visitMethod { name, start, beforeAll, onPass, afterAll } = .idle := by
    change (Hook.idle.andThen (visitBody fun _ => .idle)).andThen .idle = .idle
    rw [visitBody_idle, Hook.idle_andThen, Hook.idle_andThen]
  have hclass : visitClass { name, start, beforeAll, onPass, afterAll } = .idle := by
    rw [visitClass, hmethod, Hook.each_idle, Hook.each_idle, Hook.focus_idle fun _ => rfl,
      Hook.focus_idle fun _ => rfl, Hook.idle_andThen, Hook.idle_andThen]
  rw [pass, hclass, Hook.each_idle, Hook.focus_idle fun _ => rfl, Hook.idle_andThen]

/-- A run that does nothing before or after its passes leaves what these leave. -/
theorem codebase_run {t : Transform σ} (hbefore : t.beforeAll = .idle) (hafter : t.afterAll = .idle)
    (settings : Settings) (journal : Journal) (p : Codebase) :
    (t.run settings journal p).codebase =
      (t.settle maxPasses 0 p { state := t.start, settings, journal }).2.1 := by
  rw [run, hbefore, hafter]
  dsimp only [Hook.idle]
  split
  · next heq => rw [heq]
  · next heq => rw [heq]

end Transform

/-! ### Calls -/

/-- A call of a hook, with what the hook was given, what it left of that, and its answer. -/
inductive Call where
  /-- Of the hook that runs once before the first pass. -/
  | beforeAll (p p' : Codebase) (answer : Except Error Bool)
  /-- Of the hook for a class. -/
  | onClass (c c' : Class) (answer : Except Error Bool)
  /-- Of the hook for a field. -/
  | onField (f f' : Field) (answer : Except Error Bool)
  /-- Of the hook for a method before its body. -/
  | beforeBody (m m' : Method) (answer : Except Error Bool)
  /-- Of the hook for a body, with the method as the hook sees it. -/
  | onBody (m : Method) (b b' : Body) (answer : Except Error Bool)
  /-- Of the hook for a method after its body. -/
  | afterBody (m m' : Method) (answer : Except Error Bool)
  /-- Of the hook for the codebase at the end of a pass. -/
  | onPass (p p' : Codebase) (answer : Except Error Bool)
  /-- Of the hook that runs once after the last pass. -/
  | afterAll (p p' : Codebase) (answer : Except Error Bool)

namespace Call

/-- Whether the hook reported a change, or why it failed. -/
def answer : Call → Except Error Bool
  | beforeAll _ _ answer | onClass _ _ answer | onField _ _ answer | beforeBody _ _ answer
  | onBody _ _ _ answer | afterBody _ _ answer | onPass _ _ answer | afterAll _ _ answer => answer

/-- Why the hook failed. -/
def error? (call : Call) : Option Error :=
  match call.answer with
  | .error e => some e
  | .ok _ => none

/-- Whether the hook reported a change. -/
def changed (call : Call) : Bool :=
  match call.answer with
  | .error _ => false
  | .ok changed => changed

end Call

/-- No hook failed. -/
def Smooth (calls : List Call) : Prop :=
  ∀ call ∈ calls, call.error? = none

/-- Some hook reported a change. -/
def Changes (calls : List Call) : Prop :=
  calls.any Call.changed = true

/-- What calls come to: the error of the first hook that failed, or whether one reported a change.
-/
def verdict : List Call → Except Error Bool
  | [] => .ok false
  | call :: rest =>
    match call.answer with
    | .error e => .error e
    | .ok changed => (verdict rest).map (changed || ·)

/-- The verdict on one call is its answer. -/
@[simp] theorem verdict_singleton (call : Call) : verdict [call] = call.answer := by
  rw [verdict]
  cases call.answer with
  | error e => rfl
  | ok changed => simp [verdict, Except.map]

/-- The verdict on calls after smooth ones is that on the calls, or that something changed before.
-/
theorem verdict_append_of_ok {calls : List Call} {changed : Bool} (h : verdict calls = .ok changed)
    (rest : List Call) : verdict (calls ++ rest) = (verdict rest).map (changed || ·) := by
  induction calls generalizing changed with
  | nil =>
    cases h
    cases hrest : verdict rest <;> simp [hrest, Except.map]
  | cons call calls ih =>
    rw [verdict] at h
    rw [List.cons_append, verdict]
    cases hcall : call.answer with
    | error e => simp [hcall] at h
    | ok first =>
      rw [hcall] at h
      cases hcalls : verdict calls with
      | error e => simp [hcalls, Except.map] at h
      | ok b =>
        rw [hcalls] at h
        cases h
        dsimp only
        rw [ih hcalls]
        cases verdict rest <;> simp [Except.map, Bool.or_assoc]

/-- If no hook failed the verdict tells whether one reported a change. -/
theorem verdict_of_smooth {calls : List Call} (h : Smooth calls) :
    verdict calls = .ok (calls.any Call.changed) := by
  induction calls with
  | nil => rfl
  | cons call calls ih =>
    obtain ⟨hcall, hcalls⟩ := List.forall_mem_cons.1 h
    rw [Call.error?] at hcall
    rw [verdict, List.any_cons, Call.changed, ih hcalls]
    cases hanswer : call.answer with
    | error e => simp [hanswer] at hcall
    | ok changed => rfl

/-- A verdict is an error if a hook failed, the one of the first that did. -/
theorem verdict_eq_error_iff {calls : List Call} {e : Error} :
    verdict calls = .error e ↔ calls.findSome? Call.error? = some e := by
  induction calls with
  | nil => simp [verdict]
  | cons call calls ih =>
    rw [verdict, List.findSome?_cons, Call.error?]
    cases call.answer with
    | error e' => simp
    | ok changed =>
      dsimp only
      rw [← ih]
      cases verdict calls <;> simp [Except.map]

/-- Calls that come to a verdict went well. -/
theorem smooth_of_verdict {calls : List Call} {changed : Bool} (h : verdict calls = .ok changed) :
    Smooth calls := by
  refine List.findSome?_eq_none_iff.1 (Option.eq_none_iff_forall_ne_some.2 fun e he => ?_)
  rw [verdict_eq_error_iff.2 he] at h
  cases h

/-- Calls are smooth if there is a verdict on them. -/
theorem smooth_iff {calls : List Call} : Smooth calls ↔ ∃ changed, verdict calls = .ok changed :=
  ⟨fun h => ⟨_, verdict_of_smooth h⟩, fun ⟨_, h⟩ => smooth_of_verdict h⟩

/-- The verdict is that something changed if the calls are smooth and one of them changes something.
-/
theorem verdict_eq_true_iff {calls : List Call} :
    verdict calls = .ok true ↔ Smooth calls ∧ Changes calls := by
  refine ⟨fun h => ⟨smooth_of_verdict h, ?_⟩, fun ⟨hsmooth, hchanges⟩ => ?_⟩
  · rw [verdict_of_smooth (smooth_of_verdict h)] at h
    exact Except.ok.inj h
  · rw [verdict_of_smooth hsmooth, hchanges]

/-- The verdict is that nothing changed if the calls are smooth and none of them changes anything.
-/
theorem verdict_eq_false_iff {calls : List Call} :
    verdict calls = .ok false ↔ Smooth calls ∧ ¬Changes calls := by
  refine ⟨fun h => ⟨smooth_of_verdict h, ?_⟩, fun ⟨hsmooth, hchanges⟩ => ?_⟩
  · rw [verdict_of_smooth (smooth_of_verdict h)] at h
    rw [Changes, Except.ok.inj h]
    exact Bool.false_ne_true
  · rw [verdict_of_smooth hsmooth, Bool.eq_false_iff.2 hchanges]

/-! ### What is called -/

/-- The calls on the elements of a list, one element after the other until a hook fails; the
elements behind that one stay as they are. -/
inductive VisitsEach {α : Type} (visits : α → List Call → α → Prop) :
    List α → List Call → List α → Prop
  /-- There is no element left. -/
  | done : VisitsEach visits [] [] []
  /-- A hook fails at the first element. -/
  | stopped {a a' : α} {rest : List α} {calls : List Call} {e : Error} (first : visits a calls a')
      (failed : verdict calls = .error e) : VisitsEach visits (a :: rest) calls (a' :: rest)
  /-- No hook fails at the first element, whether or not one reports a change. -/
  | next {a a' : α} {rest rest' : List α} {calls calls' : List Call} {changed : Bool}
      (first : visits a calls a') (fine : verdict calls = .ok changed)
      (others : VisitsEach visits rest calls' rest') :
      VisitsEach visits (a :: rest) (calls ++ calls') (a' :: rest')

/-- The call on a field. -/
inductive VisitsField : Field → List Call → Field → Prop
  /-- Its only hook. -/
  | visited {f f' : Field} {answer : Except Error Bool} : VisitsField f [.onField f f' answer] f'

/-- The calls on a method. The body is detached while its hook runs; what the hook leaves of it is
attached as soon as the hook returns, whatever its answer. -/
inductive VisitsMethod : Method → List Call → Method → Prop
  /-- The hook before the body fails. -/
  | stopped {m m' : Method} {e : Error} : VisitsMethod m [.beforeBody m m' (.error e)] m'
  /-- The hook for the body fails. -/
  | stoppedAtBody {m m₁ : Method} {b b' : Body} {changed : Bool} {e : Error}
      (attached : m₁.body = some b) :
      VisitsMethod m [.beforeBody m m₁ (.ok changed),
        .onBody { m₁ with body := none } b b' (.error e)] { m₁ with body := some b' }
  /-- The method has a body, and the hook for it does not fail. -/
  | withBody {m m₁ m' : Method} {b b' : Body} {changed changed' : Bool}
      {answer : Except Error Bool} (attached : m₁.body = some b) :
      VisitsMethod m [.beforeBody m m₁ (.ok changed),
        .onBody { m₁ with body := none } b b' (.ok changed'),
        .afterBody { m₁ with body := some b' } m' answer] m'
  /-- The method has no body. -/
  | withoutBody {m m₁ m' : Method} {changed : Bool} {answer : Except Error Bool}
      (bare : m₁.body = none) :
      VisitsMethod m [.beforeBody m m₁ (.ok changed), .afterBody m₁ m' answer] m'

/-- The calls on a class: the class itself, then its fields, then its methods. -/
inductive VisitsClass : Class → List Call → Class → Prop
  /-- The hook for the class fails. -/
  | stopped {c c' : Class} {e : Error} : VisitsClass c [.onClass c c' (.error e)] c'
  /-- A hook for a field fails. -/
  | stoppedAtField {c c₁ : Class} {changed : Bool} {e : Error} {calls : List Call}
      {fields : List Field} (onFields : VisitsEach VisitsField c₁.fields calls fields)
      (failed : verdict calls = .error e) :
      VisitsClass c (.onClass c c₁ (.ok changed) :: calls) { c₁ with fields }
  /-- All fields are visited. -/
  | visited {c c₁ : Class} {changed changed' : Bool} {calls calls' : List Call}
      {fields : List Field} {methods : List Method}
      (onFields : VisitsEach VisitsField c₁.fields calls fields)
      (fine : verdict calls = .ok changed')
      (onMethods : VisitsEach VisitsMethod c₁.methods calls' methods) :
      VisitsClass c (.onClass c c₁ (.ok changed) :: calls ++ calls') { c₁ with fields, methods }

/-- The calls of a pass: every class, then the codebase. -/
inductive VisitsCodebase : Codebase → List Call → Codebase → Prop
  /-- A hook fails at a class. -/
  | stopped {p : Codebase} {calls : List Call} {classes : List Class} {e : Error}
      (onClasses : VisitsEach VisitsClass p.classes calls classes)
      (failed : verdict calls = .error e) : VisitsCodebase p calls { p with classes }
  /-- All classes are visited. -/
  | visited {p p' : Codebase} {calls : List Call} {classes : List Class} {changed : Bool}
      {answer : Except Error Bool} (onClasses : VisitsEach VisitsClass p.classes calls classes)
      (fine : verdict calls = .ok changed) :
      VisitsCodebase p (calls ++ [.onPass { p with classes } p' answer]) p'

/-- The calls of passes, each over what the one before it left. -/
inductive VisitsInTurn : Codebase → List (List Call) → Codebase → Prop
  /-- There is no pass. -/
  | none {p : Codebase} : VisitsInTurn p [] p
  /-- A pass, and then others. -/
  | pass {p p₁ p' : Codebase} {calls : List Call} {passes : List (List Call)}
      (first : VisitsCodebase p calls p₁) (others : VisitsInTurn p₁ passes p') :
      VisitsInTurn p (calls :: passes) p'

/-! ### No call after a failure -/

/-- Calls after calls are smooth if both are. -/
theorem smooth_append {calls rest : List Call} :
    Smooth (calls ++ rest) ↔ Smooth calls ∧ Smooth rest :=
  List.forall_mem_append

/-- If no hook failed before some calls, and only the last of these may have failed, then only the
last of all may have. -/
theorem smooth_dropLast_append {calls rest : List Call} (h : Smooth calls)
    (hrest : Smooth rest.dropLast) : Smooth (calls ++ rest).dropLast := by
  cases rest with
  | nil =>
    rw [List.append_nil]
    exact fun call hm => h call (List.mem_of_mem_dropLast hm)
  | cons call rest =>
    rw [List.dropLast_append_of_ne_nil (List.cons_ne_nil call rest)]
    exact smooth_append.2 ⟨h, hrest⟩

section

variable {α : Type} {visits : α → List Call → α → Prop}

/-- All calls but the last one are smooth when each element is visited, if this is so for one
element. -/
theorem VisitsEach.smooth_dropLast (hvisits : ∀ a calls a', visits a calls a' →
    Smooth calls.dropLast) {as as' : List α} {calls : List Call}
    (h : VisitsEach visits as calls as') : Smooth calls.dropLast := by
  induction h with
  | done => exact fun call hm => absurd hm List.not_mem_nil
  | stopped first failed => exact hvisits _ _ _ first
  | next first fine others ih => exact smooth_dropLast_append (smooth_of_verdict fine) ih

end

/-- All calls but the last one are smooth when a field is visited. -/
theorem VisitsField.smooth_dropLast {f f' : Field} {calls : List Call}
    (h : VisitsField f calls f') : Smooth calls.dropLast := by
  cases h
  simp [Smooth]

/-- All calls but the last one are smooth when a method is visited. -/
theorem VisitsMethod.smooth_dropLast {m m' : Method} {calls : List Call}
    (h : VisitsMethod m calls m') : Smooth calls.dropLast := by
  cases h <;> simp [Smooth, Call.error?, Call.answer]

/-- All calls but the last one are smooth when a class is visited. -/
theorem VisitsClass.smooth_dropLast {c c' : Class} {calls : List Call}
    (h : VisitsClass c calls c') : Smooth calls.dropLast := by
  have hclass : ∀ {c₁ : Class} {changed : Bool}, Smooth [.onClass c c₁ (.ok changed)] := by
    simp [Smooth, Call.error?, Call.answer]
  cases h with
  | stopped => simp [Smooth]
  | stoppedAtField onFields failed =>
    exact smooth_dropLast_append hclass
      (onFields.smooth_dropLast fun _ _ _ => VisitsField.smooth_dropLast)
  | visited onFields fine onMethods =>
    exact smooth_dropLast_append (smooth_append.2 ⟨hclass, smooth_of_verdict fine⟩)
      (onMethods.smooth_dropLast fun _ _ _ => VisitsMethod.smooth_dropLast)

/-- All calls but the last one are smooth when a codebase is visited. -/
theorem VisitsCodebase.smooth_dropLast {p p' : Codebase} {calls : List Call}
    (h : VisitsCodebase p calls p') : Smooth calls.dropLast := by
  cases h with
  | stopped onClasses failed =>
    exact onClasses.smooth_dropLast fun _ _ _ => VisitsClass.smooth_dropLast
  | visited onClasses fine =>
    exact smooth_dropLast_append (smooth_of_verdict fine) (by simp [Smooth])

/-- A pass that fails does so at its last call. -/
theorem VisitsInTurn.smooth_dropLast {p p' : Codebase} {passes : List (List Call)}
    (h : VisitsInTurn p passes p') : ∀ calls ∈ passes, Smooth calls.dropLast := by
  induction h with
  | none => simp
  | pass first others ih => exact List.forall_mem_cons.2 ⟨first.smooth_dropLast, ih⟩

/-- The calls of smooth passes are smooth. -/
theorem smooth_flatten {passes : List (List Call)} (h : ∀ calls ∈ passes, Smooth calls) :
    Smooth passes.flatten := by
  intro call hm
  obtain ⟨calls, hcalls, hm⟩ := List.mem_flatten.1 hm
  exact h calls hcalls call hm

end Unscramble
