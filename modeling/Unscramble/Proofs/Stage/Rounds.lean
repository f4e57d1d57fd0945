import Unscramble.Proofs.Flow.SecondRound
import Unscramble.Proofs.Labels.Stages
import Unscramble.Proofs.Stage.Passes

/-! # Stages for bodies settle

A stage for bodies settles if, as long as a body changes, a number falls that the body determines, and
if a body that did not change does not change later. Taking out ranges, dynamic calls and dead code
settles in this way; what the normalizer does settles as the jumps without a condition get fewer.

Main definitions: `Hook.Does`, `Wanes`, `Body.crashRanges`. Main statements: `Wanes.lowers`,
`Transform.endsAfter_bodies`, and one statement per stage. -/

namespace Unscramble

variable {σ α : Type}

/-! ### Changes that come to an end -/

/-- A hook makes a change that does not depend on its context, unless it fails. -/
structure Hook.Does (f : Hook σ α) (G : Context σ → Prop) (change : α → Bool × α) : Prop where
  /-- What is asked of the context stays true. -/
  context : ∀ a c, G c → G (f a c).context
  /-- The change is made, and what is answered is whether it made a difference. -/
  result : ∀ a c changed, G c → (f a c).changed = .ok changed → (changed, (f a c).value) = change a

/-- A hook that counts changes makes them. -/
theorem Hook.does_counting {counter : String} {f : α → Nat × α} :
    (Hook.counting counter f : Hook σ α).Does (fun _ => True)
      (fun a => (decide (0 < (f a).1), (f a).2)) where
  context _ _ _ := trivial
  result := by
    intro a c changed _ h
    cases h
    rfl

/-- A number falls with every change but the last, and nothing changes after a change that makes no
difference. -/
structure Wanes (change : α → Bool × α) (I : α → Prop) (measure : α → Nat) : Prop where
  /-- What is asked stays true. -/
  keeps : ∀ a, I a → I (change a).2
  /-- What made no difference makes none again. -/
  rests : ∀ a, I a → (change a).1 = false → (change (change a).2).1 = false
  /-- Of two differences one behind the other the first one lowers the number. -/
  sinks : ∀ a, I a → (change a).1 = true → (change (change a).2).1 = true →
    measure (change a).2 < measure a

/-- A change that gives the right answer at once. -/
theorem wanes_of_once (change : α → Bool × α) {I : α → Prop} (keeps : ∀ a, I a → I (change a).2)
    (once : ∀ a, I a → (change (change a).2).1 = false) : Wanes change I (fun _ => 0) where
  keeps := keeps
  rests a ha _ := once a ha
  sinks := by
    intro a ha _ hagain
    rw [once a ha] at hagain
    cases hagain

/-- The number of a change is a level of the hook that makes it. -/
theorem Wanes.lowers {change : α → Bool × α} {I : α → Prop} {measure : α → Nat}
    (h : Wanes change I measure) {f : Hook σ α} {G : Context σ → Prop} (does : f.Does G change) :
    f.Lowers G (fun k a => I a ∧ ((change a).1 = true → measure a < k)) where
  context := does.context
  level := by
    intro k a c changed hc ⟨ha, hk⟩ hchanged
    have hresult := does.result a c changed hc hchanged
    have hvalue : (f a c).value = (change a).2 := congrArg Prod.snd hresult
    rw [hvalue]
    refine ⟨⟨h.keeps a ha, fun hagain => ?_⟩, fun hzero => ?_⟩
    · cases hfirst : (change a).1 with
      | false =>
        rw [h.rests a ha hfirst] at hagain
        cases hagain
      | true =>
        have hlt := h.sinks a ha hfirst hagain
        have hle := hk hfirst
        omega
    · have hsame : changed = (change a).1 := congrArg Prod.fst hresult
      rw [hsame]
      by_contra htrue
      have hlt := hk (Bool.eq_true_of_not_eq_false htrue)
      omega

/-- A stage for bodies ends after as many passes as the numbers of the bodies that change. -/
theorem Transform.endsAfter_bodies {name : String} {onBody : Method → Hook Unit Body}
    {change : Body → Bool × Body} {I : Body → Prop} {measure : Body → Nat}
    (h : Wanes change I measure) (sober : ∀ m, (onBody m).Sober)
    (does : ∀ m, (onBody m).Does (fun _ => True) change) {n : Nat} {p : Codebase}
    (hp : ∀ b ∈ p.bodies, I b ∧ ((change b).1 = true → measure b < n)) (settings : Settings)
    (journal : Journal) : EndsAfter { name, start := (), onBody } n settings journal p := by
  refine endsAfter Hook.sober_idle ?_ Hook.sober_idle (lowers_bodies fun m => h.lowers (does m))
    ⟨trivial, hp⟩
  exact sober_pass Hook.sober_idle Hook.sober_idle Hook.sober_idle sober Hook.sober_idle
    Hook.sober_idle

/-- A stage that counts its changes to bodies ends after the first pass if there is nothing to count in
what it leaves. -/
theorem Transform.endsAfter_counting {name counter : String} {f : Body → Nat × Body}
    {I : Body → Prop} (keeps : ∀ b, I b → I (f b).2) (once : ∀ b, I b → (f (f b).2).1 = 0)
    {p : Codebase} (hp : ∀ b ∈ p.bodies, I b) (settings : Settings) (journal : Journal) :
    EndsAfter { name, start := (), onBody := fun _ => .counting counter f } 1 settings journal p := by
  have hwanes := wanes_of_once (fun b => (decide (0 < (f b).1), (f b).2)) keeps fun b hb => by
    rw [once b hb]
    rfl
  exact endsAfter_bodies hwanes (fun _ => Hook.sober_counting) (fun _ => Hook.does_counting)
    (fun b hb => ⟨hp b hb, fun _ => Nat.one_pos⟩) settings journal

/-! ### Crash reports -/

namespace Idiom

/-- The number of ranges of a body that catch runtime exceptions. -/
def crashRanges (b : Body) : Nat :=
  b.guards.countP fun g => g.catches == some runtimeException

/-- A handler stays, or goes with ranges that catch runtime exceptions. -/
theorem removeHandler_cases (state : Nat × Body) (run : List Handle) :
    removeHandler state run = state ∨
      state.1 < (removeHandler state run).1 ∧
        crashRanges (removeHandler state run).2 < crashRanges state.2 := by
  cases run with
  | nil => exact .inl rfl
  | cons entry rest =>
    dsimp only [removeHandler]
    split
    · next hfewer =>
      refine .inr ⟨Nat.lt_succ_self _, ?_⟩
      obtain ⟨g, hg, hgone⟩ := List.length_filter_lt_length_iff_exists.1 hfewer
      have hleads : leadsTo state.2.listing entry g = true := by
        simpa using hgone
      have hcatches : (g.catches == some runtimeException) = true :=
        (Bool.and_eq_true_iff.1 hleads).1
      -- The range that goes is one of those that count.
      have hsplit := List.countP_eq_countP_filter_add state.2.guards
        (fun g => g.catches == some runtimeException)
        (fun g => !leadsTo state.2.listing entry g)
      have hpos : 0 < (state.2.guards.filter fun g => !!leadsTo state.2.listing entry g).countP
          fun g => g.catches == some runtimeException :=
        List.countP_pos_iff.2 ⟨g, List.mem_filter.2 ⟨hg, by rw [hleads]; rfl⟩, hcatches⟩
      show (List.filter _ state.2.guards).countP _ < state.2.guards.countP _
      omega
    · exact .inl rfl

/-- So do all handlers that match a pattern. -/
theorem removeTracingHandlers_cases (handler : Pattern) (b : Body) :
    removeTracingHandlers handler b = (0, b) ∨
      0 < (removeTracingHandlers handler b).1 ∧
        crashRanges (removeTracingHandlers handler b).2 < crashRanges b := by
  have hfold : ∀ (runs : List (List Handle)) (state : Nat × Body),
      runs.foldl removeHandler state = state ∨
        state.1 < (runs.foldl removeHandler state).1 ∧
          crashRanges (runs.foldl removeHandler state).2 < crashRanges state.2 := by
    intro runs
    induction runs with
    | nil => exact fun state => .inl rfl
    | cons run runs ih =>
      intro state
      rw [List.foldl_cons]
      rcases removeHandler_cases state run with hsame | ⟨hcount, hranges⟩
      · rw [hsame]
        exact ih state
      · rcases ih (removeHandler state run) with hsame | ⟨hcount', hranges'⟩
        · rw [hsame]
          exact .inr ⟨hcount, hranges⟩
        · exact .inr ⟨hcount.trans hcount', hranges'.trans hranges⟩
  exact hfold _ (0, b)

/-- The last range that catches runtime exceptions does not count, since nothing goes without one. -/
theorem wanes_removeTracingHandlers (handler : Pattern) :
    Wanes (fun b => (decide (0 < (removeTracingHandlers handler b).1),
      (removeTracingHandlers handler b).2)) (fun _ => True) (fun b => crashRanges b - 1) where
  keeps _ _ := trivial
  rests := by
    intro b _ hnone
    rcases removeTracingHandlers_cases handler b with hsame | ⟨hcount, -⟩
    · show decide (0 < (removeTracingHandlers handler (removeTracingHandlers handler b).2).1) = false
      rw [hsame]
      show decide (0 < (removeTracingHandlers handler b).1) = false
      rw [hsame]
      rfl
    · exact absurd (decide_eq_true hcount) (ne_true_of_eq_false hnone)
  sinks := by
    intro b _ hsome hagain
    -- A pass that takes out handlers takes out a range at least; the one that follows needs one
    -- that is left.
    have hlower : ∀ b, decide (0 < (removeTracingHandlers handler b).1) = true →
        crashRanges (removeTracingHandlers handler b).2 < crashRanges b := by
      intro b hsome
      rcases removeTracingHandlers_cases handler b with hsame | ⟨-, hranges⟩
      · rw [hsame] at hsome
        cases hsome
      · exact hranges
    have hfirst := hlower b hsome
    have hsecond := hlower _ hagain
    dsimp only at hfirst hsecond ⊢
    omega

/-- The ranges that are redundant go at once. -/
theorem removeRedundantGuards_again (b : Body) :
    (removeRedundantGuards (removeRedundantGuards b).2).1 = 0 := by
  by_cases hthrows : ((lastReal? b.listing).any fun h => (b.listing.get h).hasOpcode .athrow) = true
  · have hfirst : (removeRedundantGuards b).2 =
        { b with guards := b.guards.filter fun g => g.catches != some runtimeException } := by
      rw [removeRedundantGuards, if_pos hthrows]
    rw [hfirst, removeRedundantGuards, if_pos hthrows]
    dsimp only
    rw [List.filter_filter]
    simp only [Bool.and_self]
    exact Nat.sub_self _
  · have hfirst : removeRedundantGuards b = (0, b) := by
      rw [removeRedundantGuards, if_neg hthrows]
    rw [hfirst, hfirst]

/-! ### Dynamic calls -/

/-- Whether an instruction calls through a bootstrap method. -/
def isDynamic : Instruction Label → Bool
  | .invokeDynamic _ => true
  | _ => false

/-- The places of the dynamic calls. -/
def dynamicHandles (l : Listing) : List Handle :=
  l.handles.filter fun h => isDynamic (l.get h)

/-- The handles of dynamic calls are those of the calls. -/
theorem map_dynamicCalls (l : Listing) : (dynamicCalls l).map (·.1) = dynamicHandles l := by
  unfold dynamicCalls dynamicHandles
  rw [List.map_filterMap, ← List.filterMap_eq_filter]
  congr 1
  funext h
  rw [Option.guard]
  cases l.get h <;> rfl

/-- Putting in an instruction that is no dynamic call leaves the dynamic calls. -/
theorem dynamicHandles_insert (l : Listing) (anchor : Handle) {i : Instruction Label}
    (hi : isDynamic i = false) :
    dynamicHandles ((l.create i).2.insertBefore anchor (l.create i).1) = dynamicHandles l := by
  -- A handle of no node gets the instruction that stands for none, and this is no dynamic call
  -- either.
  have hget : ∀ h, isDynamic ((l.create i).2.get h) = isDynamic (l.get h) := by
    intro h
    unfold Listing.create Listing.get
    dsimp only
    rw [Array.getElem?_push]
    by_cases hnew : h = l.nodes.size
    · rw [if_pos hnew, hnew, Array.getElem?_eq_none (Nat.le_refl _)]
      exact hi
    · rw [if_neg hnew]
  have hnew : isDynamic ((l.create i).2.get (l.create i).1) = false := by
    rw [hget]
    show isDynamic (l.get l.nodes.size) = false
    unfold Listing.get
    rw [Array.getElem?_eq_none (Nat.le_refl _)]
    rfl
  have hsame : ∀ hs : List Handle, hs.filter (fun h => isDynamic ((l.create i).2.get h)) =
      hs.filter fun h => isDynamic (l.get h) :=
    fun hs => List.filter_congr fun h _ => hget h
  unfold dynamicHandles
  show (Listing.handles _).filter (fun h => isDynamic ((l.create i).2.get h)) = _
  obtain ⟨front, back, hs, hs', -⟩ := Listing.handles_insertBefore (l.create i).2 anchor (l.create i).1
  have hskip : ((l.create i).1 :: back).filter (fun h => isDynamic ((l.create i).2.get h)) =
      back.filter fun h => isDynamic ((l.create i).2.get h) :=
    List.filter_cons_of_neg (ne_true_of_eq_false hnew)
  rw [hs', List.filter_append, hskip, ← List.filter_append, ← hs]
  exact hsame l.handles

/-- A stub takes the place of its dynamic call. -/
theorem dynamicHandles_stubCall (l : Listing) (site : Handle × DynamicCall) :
    dynamicHandles (stubCall l site) = (dynamicHandles l).erase site.1 := by
  have hstub : ∀ (ops : List Opcode) (l : Listing),
      dynamicHandles (ops.foldl (fun l op =>
        (l.create (.plain op)).2.insertBefore site.1 (l.create (.plain op)).1) l) =
        dynamicHandles l := by
    intro ops
    induction ops with
    | nil => exact fun l => rfl
    | cons op ops ih => exact fun l => (ih _).trans (dynamicHandles_insert l site.1 rfl)
  rw [← hstub (stub site.2.descriptor) l]
  unfold dynamicHandles
  exact (congrArg (List.filter _) (Array.toList_erase ..)).trans List.erase_filter.symm

/-- No dynamic call is left. -/
theorem dynamicHandles_stubDynamicCalls (b : Body) :
    dynamicHandles (stubDynamicCalls b).2.listing = [] := by
  have hfold : ∀ (sites : List (Handle × DynamicCall)) (l : Listing),
      dynamicHandles (sites.foldl stubCall l) =
        (sites.map (·.1)).foldl List.erase (dynamicHandles l) := by
    intro sites
    induction sites with
    | nil => exact fun l => rfl
    | cons site sites ih =>
      intro l
      rw [List.foldl_cons, ih, dynamicHandles_stubCall]
      rfl
  show dynamicHandles ((dynamicCalls b.listing).foldl stubCall b.listing) = []
  rw [hfold, map_dynamicCalls]
  induction dynamicHandles b.listing with
  | nil => rfl
  | cons h hs ih => rwa [List.foldl_cons, List.erase_cons_head]

end Idiom

/-! ### Stages -/

namespace Stage

open Idiom Transform Unscramble.Flow

variable {p : Codebase} (settings : Settings) (journal : Journal)

/-- Handlers that trace are gone after as many passes as a body has ranges of them. -/
theorem endsAfter_exceptionTracing {n : Nat} (hp : ∀ b ∈ p.bodies, crashRanges b ≤ n) :
    exceptionTracing.EndsAfter n settings journal p := by
  refine endsAfter_bodies (wanes_removeTracingHandlers tracingHandler) (fun _ => Hook.sober_counting)
    (fun _ => Hook.does_counting) (fun b hb => ⟨trivial, fun hsome => ?_⟩) settings journal
  have hle := hp b hb
  rcases removeTracingHandlers_cases tracingHandler b with hsame | ⟨-, hranges⟩
  · rw [hsame] at hsome
    cases hsome
  · omega

/-- Redundant ranges are gone after the first pass. -/
theorem endsAfter_redundantException : redundantException.EndsAfter 1 settings journal p :=
  endsAfter_counting (I := fun _ => True) (fun _ _ => trivial)
    (fun b _ => removeRedundantGuards_again b) (fun _ _ => trivial) settings journal

/-- Dynamic calls are gone after the first pass. -/
theorem endsAfter_deleteInvokedynamic : deleteInvokedynamic.EndsAfter 1 settings journal p := by
  refine endsAfter_counting (I := fun _ => True) (fun _ _ => trivial) (fun b _ => ?_)
    (fun _ _ => trivial) settings journal
  show (dynamicCalls (stubDynamicCalls b).2.listing).length = 0
  rw [List.length_eq_zero_iff, ← List.map_eq_nil_iff, map_dynamicCalls, dynamicHandles_stubDynamicCalls]

/-- Unreachable code is gone after the first pass. -/
theorem endsAfter_unreachableCode (hp : ∀ b ∈ p.bodies, b.listing.WellFormed) :
    unreachableCode.EndsAfter 1 settings journal p := by
  have hwanes := wanes_of_once
    (fun b => (decide (0 < (removeUnreachable b).1), (removeUnreachable b).2))
    (I := fun b => b.listing.WellFormed) (fun _ wf => wf.restrict _) fun b wf => by
      rw [removeUnreachable_again wf]
      rfl
  refine endsAfter_bodies hwanes (fun _ b c e he => ?_) (fun _ => ⟨fun _ _ _ => trivial, ?_⟩)
    (fun b hb => ⟨hp b hb, fun _ => Nat.one_pos⟩) settings journal
  · dsimp only at he
    split at he <;> cases he
  · intro b c changed _ hchanged
    dsimp only at hchanged ⊢
    split at hchanged
    · next hnone =>
      cases hchanged
      rw [if_pos hnone, hnone]
      rfl
    · next hsome =>
      cases hchanged
      rw [if_neg hsome, decide_eq_true (Nat.pos_of_ne_zero hsome)]

/-! ### The normalizer -/

/-- Drawing and normalizing change what normalizing changes. -/
theorem value_redundantGoto (m : Method) (b : Body) (c : Context Unit) {changed : Bool}
    (h : (redundantGoto.onBody m b c).changed = .ok changed) :
    (redundantGoto.onBody m b c).value = (normalize b).2 ∧
      changed = ((normalize b).2.listing.shape != b.listing.shape) := by
  have hdraw : (drawBody m b c).value = b ∧
      ((drawBody m b c).changed = .ok false ∨ ∃ e, (drawBody m b c).changed = .error e) := by
    rw [drawBody]
    split
    · exact ⟨rfl, .inl rfl⟩
    · dsimp only
      split
      · exact ⟨rfl, .inr ⟨_, rfl⟩⟩
      · exact ⟨rfl, .inl rfl⟩
  have hstep : redundantGoto.onBody m b c = (drawBody m).andThen normalizeBody b c := rfl
  rw [hstep, Hook.andThen] at h ⊢
  dsimp only at h ⊢
  rcases hdraw with ⟨hvalue, hidle | ⟨e, herror⟩⟩
  · rw [hidle, hvalue] at h ⊢
    exact ⟨rfl, (Except.ok.inj h).symm⟩
  · simp only [herror] at h
    cases h

/-- Removing jumps never fails for want of passes. -/
theorem sober_redundantGoto (m : Method) : (redundantGoto.onBody m).Sober := by
  refine Hook.Sober.andThen (fun b c e he => ?_) fun _ _ _ => nofun
  rw [drawBody] at he
  split at he
  · cases he
  · dsimp only at he
    split at he
    · cases he
      rfl
    · cases he

/-- Behind the first pass, every pass that changes a body takes out a jump without a condition. -/
theorem lowers_redundantGoto (m : Method) :
    (redundantGoto.onBody m).Lowers (fun _ => True) fun k b =>
      (Arranged b ∧ (Rests b ∨ gotoCount b.listing ≤ k)) ∨
        b.Intact ∧ b.Stays ∧ gotoCount (normalize b).2.listing < k where
  context _ _ _ := trivial
  level := by
    intro k b c changed _ hk hchanged
    obtain ⟨hvalue, rfl⟩ := value_redundantGoto m b c hchanged
    rw [hvalue]
    rcases hk with ⟨arranged, hrest⟩ | ⟨hb, hs, hlt⟩
    · rcases arranged.normalize_cases with hrests | hfewer
      · rw [hrests]
        exact ⟨.inl ⟨arranged, .inl hrests⟩, fun _ => bne_self_eq_false _⟩
      · have hle : gotoCount b.listing ≤ k := by
          refine hrest.resolve_left fun hrests => ?_
          rw [hrests] at hfewer
          exact Nat.lt_irrefl _ hfewer
        exact ⟨.inl ⟨arranged.normalize, .inr (by omega)⟩, fun hzero => by omega⟩
    · exact ⟨.inl ⟨arranged_normalize hb.wf hb.labels hs, .inr (by omega)⟩, fun hzero => by omega⟩

/-- Redundant jumps are gone after as many passes as a body has jumps, and one more. -/
theorem endsAfter_redundantGoto {n : Nat}
    (hp : ∀ b ∈ p.bodies, b.Intact ∧ b.Stays ∧ gotoCount (normalize b).2.listing < n) :
    redundantGoto.EndsAfter n settings journal p := by
  refine endsAfter Hook.sober_idle ?_ Hook.sober_idle (lowers_bodies lowers_redundantGoto)
    ⟨trivial, fun b hb => .inr (hp b hb)⟩
  exact sober_pass Hook.sober_idle Hook.sober_idle Hook.sober_idle sober_redundantGoto
    Hook.sober_idle Hook.sober_idle

end Stage

end Unscramble
