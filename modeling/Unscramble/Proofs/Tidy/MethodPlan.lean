import Unscramble.Proofs.Tidy.Holder
import Unscramble.Tidy.StaticMethods

/-! # The plan for static methods

What is planned moves static methods with generated names to other classes: into the holder, or to
the class of equal methods that nothing calls. A move is made only if no method of that reference is
declared and no earlier move makes one.

Main definitions: `homes`, `destination`, `IsBound`, `movedTo`, `plannedMoves`, `MovesSpec`. Main
statements: `mem_staticMethods`, `exists_isBound`, `getElem?_methodPlan_of_isBound`,
`getElem?_methodPlan_of_called`, `plannedMoves_spec`. -/

namespace Unscramble.Tidy

open Naming

variable {p : Codebase} {holder target : String} {key : Member} {m s s' : StaticMethod}

/-! ### Where methods go -/

/-- What a map holds after a pass over a list that adds keys of one value to it. -/
theorem getElem?_foldl_insert {α β γ : Type} [BEq β] [Hashable β] [LawfulBEq β]
    [LawfulHashable β] [DecidableEq β] (k : α → β) (c : γ) (as : List α) (plan : Std.HashMap β γ)
    (b : β) : (as.foldl (fun plan a => plan.insert (k a) c) plan)[b]? =
      if b ∈ as.map k then some c else plan[b]? := by
  induction as generalizing plan with
  | nil => simp
  | cons a as ih =>
    rw [List.foldl_cons, ih, Std.HashMap.getElem?_insert, List.map_cons]
    by_cases hrest : b ∈ as.map k
    · rw [if_pos hrest, if_pos (List.mem_cons_of_mem _ hrest)]
    · by_cases hfirst : k a = b
      · rw [if_neg hrest, if_pos (beq_iff_eq.2 hfirst), if_pos (hfirst ▸ List.mem_cons_self)]
      · rw [if_neg hrest, if_neg (by simpa using hfirst), if_neg]
        exact fun h => (List.mem_cons.1 h).elim (fun heq => hfirst heq.symm) hrest

/-- What a map holds after a pass over a list that adds to it. -/
theorem of_getElem?_foldl_insert {α β γ : Type} [BEq β] [Hashable β] [LawfulBEq β]
    [LawfulHashable β] (test : α → Bool) (k : α → β) (v : α → γ) {as : List α}
    {plan : Std.HashMap β γ} {b : β} {c : γ}
    (h : (as.foldl (fun plan a => if test a then plan.insert (k a) (v a) else plan) plan)[b]? =
      some c) : plan[b]? = some c ∨ ∃ a ∈ as, test a = true ∧ k a = b ∧ v a = c := by
  induction as generalizing plan with
  | nil => exact .inl h
  | cons a as ih =>
    rw [List.foldl_cons] at h
    rcases ih h with hplan | ⟨a', ha', heq⟩
    · split at hplan
      · next htest =>
        rw [Std.HashMap.getElem?_insert] at hplan
        split at hplan
        · next hk =>
          exact .inr ⟨a, List.mem_cons_self, htest, beq_iff_eq.1 hk, Option.some.inj hplan⟩
        · exact .inl hplan
      · exact .inl hplan
    · exact .inr ⟨a', List.mem_cons_of_mem _ ha', heq⟩

/-- What a map holds under a key that a list adds with one value only. -/
theorem getElem?_foldl_insert_of_mem {α β γ : Type} [BEq β] [Hashable β] [LawfulBEq β]
    [LawfulHashable β] (test : α → Bool) (k : α → β) (v : α → γ) {as : List α} {a : α} (ha : a ∈ as)
    (htest : test a = true) (honly : ∀ a' ∈ as, test a' = true → k a' = k a → v a' = v a) :
    (as.foldl (fun plan a => if test a then plan.insert (k a) (v a) else plan)
      (∅ : Std.HashMap β γ))[k a]? = some (v a) := by
  -- On the items, for every map so far: nothing is taken out of the map again.
  have hsome : ∀ (as : List α) (plan : Std.HashMap β γ),
      a ∈ as ∨ plan[k a]?.isSome = true →
      ((as.foldl (fun plan a => if test a then plan.insert (k a) (v a) else plan) plan)[k a]?).isSome
        = true := by
    intro as
    induction as with
    | nil => exact fun plan h => h.resolve_left List.not_mem_nil
    | cons a' as ih =>
      intro plan h
      rw [List.foldl_cons]
      refine ih _ ?_
      rcases h with h | h
      · rcases List.mem_cons.1 h with rfl | h
        · rw [if_pos htest, Std.HashMap.getElem?_insert_self]
          exact .inr rfl
        · exact .inl h
      · right
        split
        · rw [Std.HashMap.getElem?_insert]
          split
          · rfl
          · exact h
        · exact h
  obtain ⟨c, hc⟩ := Option.isSome_iff_exists.1 (hsome as ∅ (.inl ha))
  rcases of_getElem?_foldl_insert test k v hc with h | ⟨a', ha', htest', hkey, rfl⟩
  · simp at h
  · rw [hc, honly a' ha' htest' hkey]

/-- The names that are called are those that instructions call. -/
theorem mem_calledNames {name : String} : name ∈ calledNames p ↔
    ∃ b ∈ p.bodies, ∃ i ∈ b.listing.instructions, calledName? i = some name := by
  -- one step of the search: over the instructions of a body, or over the bodies
  have hstep : ∀ {α : Type} (adds : α → String → Prop)
      (step : Std.HashSet String → α → Std.HashSet String)
      (_ : ∀ s a, name ∈ step s a ↔ name ∈ s ∨ adds a name) (as : List α) (s : Std.HashSet String),
      name ∈ as.foldl step s ↔ name ∈ s ∨ ∃ a ∈ as, adds a name := by
    intro α adds step h as
    induction as with
    | nil => simp
    | cons a as ih =>
      intro s
      rw [List.foldl_cons, ih, h, or_assoc]
      simp
  rw [calledNames, hstep fun (b : Body) name =>
    ∃ i ∈ b.listing.instructions, calledName? i = some name]
  · simp
  · intro s b
    refine hstep (fun i name => calledName? i = some name) _ (fun s i => ?_) _ s
    split
    · next called h => simp [h, or_comm]
    · next h => simp [h]

/-- The methods that may move are the static ones with a generated name and a body of the classes
that are no interfaces. -/
theorem mem_staticMethods : m ∈ staticMethods p ↔ ∃ c ∈ p.classes, c.isInterface = false ∧
    ∃ d ∈ c.methods, d.isStatic = true ∧ isGenerated methodStem d.name = true ∧
      ∃ b, d.body = some b ∧
        m = ⟨fingerprint d b, d.key, (calledNames p).contains d.name, isMovable p c d b⟩ := by
  rw [staticMethods, List.mem_mergeSort, List.mem_flatMap]
  simp only [List.mem_filter, Bool.not_eq_true', and_assoc]
  refine exists_congr fun c => and_congr_right fun _ => and_congr_right fun _ => ?_
  rw [List.mem_filterMap]
  refine exists_congr fun d => and_congr_right fun _ => ?_
  rw [staticMethod?]
  split
  · next htest =>
    obtain ⟨hstatic, hname⟩ := Bool.and_eq_true_iff.1 htest
    simp [hstatic, hname, eq_comm]
  · next htest =>
    simp only [reduceCtorEq, false_iff, not_and]
    exact fun hstatic hname => absurd (Bool.and_eq_true_iff.2 ⟨hstatic, hname⟩) htest

/-- A method that may move is a declared static one with a generated name. -/
theorem of_mem_staticMethods (hm : m ∈ staticMethods p) : ∃ d ∈ p.methods, m.key = d.key ∧
    d.isStatic = true ∧ isGenerated methodStem d.name = true := by
  obtain ⟨c, hc, -, d, hd, hstatic, hname, b, -, rfl⟩ := mem_staticMethods.1 hm
  exact ⟨d, List.mem_flatMap.2 ⟨c, hc, hd⟩, rfl, hstatic, hname⟩

/-- The class that a group belongs to is that of one of its methods, which nothing calls. -/
theorem of_homeOf? {group : List StaticMethod} {home : String} (h : homeOf? group = some home) :
    ∃ m ∈ group, m.called = false ∧ m.key.owner = home := by
  rw [homeOf?] at h
  split at h
  · cases h
  · next owner rest heq =>
    split at h
    · cases h
      have hmem : home ∈ (group.filter fun m => !m.called).map (·.key.owner) := by
        rw [heq]
        exact List.mem_cons_self
      obtain ⟨m, hm, howner⟩ := List.mem_map.1 hmem
      obtain ⟨hm, hcalled⟩ := List.mem_filter.1 hm
      exact ⟨m, hm, by simpa using hcalled, howner⟩
    · cases h

/-! ### Groups -/

/-- A list of lists in ascending order, where the last item of each is less than the first of the
next, has equal items in one of them only. -/
theorem mem_of_mem_flatten {α κ : Type} [LinearOrder κ] (f : α → κ) {groups : List (List α)}
    (hsorted : groups.flatten.Pairwise fun a b => f a ≤ f b)
    (hbounds : groups.IsChain fun g g' => ∃ hg hg', f (g.getLast hg) ≠ f (g'.head hg'))
    {group : List α} (hgroup : group ∈ groups) {a b : α} (ha : a ∈ group) (hb : b ∈ groups.flatten)
    (heq : f b = f a) : b ∈ group := by
  induction groups generalizing group a b with
  | nil => cases hgroup
  | cons first rest ih =>
    rw [List.flatten_cons, List.pairwise_append] at hsorted
    obtain ⟨hfirst, hrest, hacross⟩ := hsorted
    rw [List.isChain_cons] at hbounds
    -- what stands in the first list is less than what stands behind it
    have hlt : ∀ x ∈ first, ∀ y ∈ rest.flatten, f x < f y := by
      intro x hx y hy
      cases rest with
      | nil => cases hy
      | cons next rest =>
        obtain ⟨hne, hne', hbound⟩ := hbounds.1 next rfl
        have hlast := hacross _ (List.getLast_mem hne) _
          (List.mem_flatten.2 ⟨next, List.mem_cons_self, List.head_mem hne'⟩)
        have hx : f x ≤ f (first.getLast hne) := by
          rw [← List.dropLast_append_getLast hne] at hx hfirst
          rcases List.mem_append.1 hx with hx | hx
          · exact (List.pairwise_append.1 hfirst).2.2 x hx _ List.mem_cons_self
          · rw [List.mem_singleton.1 hx]
        have hy : f (next.head hne') ≤ f y := by
          rw [← List.cons_head_tail hne', List.flatten_cons, List.cons_append] at hy hrest
          rcases List.mem_cons.1 hy with rfl | hy
          · exact le_refl _
          · exact (List.pairwise_cons.1 hrest).1 y hy
        exact hx.trans_lt ((lt_of_le_of_ne hlast hbound).trans_le hy)
    rw [List.flatten_cons, List.mem_append] at hb
    rcases List.mem_cons.1 hgroup with rfl | hgroup
    · exact hb.resolve_right fun hb => (hlt a ha b hb).ne heq.symm
    · have ha' : a ∈ rest.flatten := List.mem_flatten.2 ⟨group, hgroup, ha⟩
      exact ih hrest hbounds.2 hgroup ha
        (hb.resolve_left fun hb => (hlt b hb a ha').ne heq) heq

/-- The methods that may move are sorted by their fingerprints. -/
theorem pairwise_staticMethods (p : Codebase) :
    (staticMethods p).Pairwise fun a b => a.fingerprint ≤ b.fingerprint := by
  rw [staticMethods]
  refine (List.pairwise_mergeSort ?_ ?_ _).imp fun h => of_decide_eq_true h
  · intro a b c hab hbc
    exact decide_eq_true ((of_decide_eq_true hab).trans (of_decide_eq_true hbc))
  · intro a b
    rw [Bool.or_eq_true, decide_eq_true_iff, decide_eq_true_iff]
    exact le_total _ _

/-- The groups of methods are those of equal fingerprints. -/
theorem mem_group_iff {group : List StaticMethod}
    (hgroup : group ∈ (staticMethods p).splitBy fun a b => a.fingerprint == b.fingerprint)
    (hs : s ∈ group) :
    s' ∈ group ↔ s' ∈ staticMethods p ∧ s'.fingerprint = s.fingerprint := by
  have hflatten := List.flatten_splitBy (fun a b => a.fingerprint == b.fingerprint)
    (staticMethods p)
  constructor
  · intro hs'
    refine ⟨hflatten ▸ List.mem_flatten.2 ⟨group, hgroup, hs'⟩, ?_⟩
    have htrans : Trans (fun a b : StaticMethod => (a.fingerprint == b.fingerprint) = true)
        (fun a b : StaticMethod => (a.fingerprint == b.fingerprint) = true)
        (fun a b : StaticMethod => (a.fingerprint == b.fingerprint) = true) :=
      ⟨fun hab hbc => beq_iff_eq.2 ((beq_iff_eq.1 hab).trans (beq_iff_eq.1 hbc))⟩
    have hpairs : group.Pairwise fun a b => a.fingerprint = b.fingerprint :=
      (List.isChain_iff_pairwise.1 (List.isChain_of_mem_splitBy hgroup)).imp beq_iff_eq.1
    have hsymm : Std.Symm fun a b : StaticMethod => a.fingerprint = b.fingerprint :=
      ⟨fun _ _ h => h.symm⟩
    exact List.Pairwise.forall_of_forall
      (R := fun a b : StaticMethod => a.fingerprint = b.fingerprint) (fun _ _ => rfl) hpairs hs' hs
  · rintro ⟨hs', heq⟩
    refine mem_of_mem_flatten StaticMethod.fingerprint (hflatten.symm ▸ pairwise_staticMethods p)
      ((List.isChain_getLast_head_splitBy _ _).imp ?_) hgroup hs (hflatten.symm ▸ hs') heq
    rintro g g' ⟨hg, hg', hbound⟩
    exact ⟨hg, hg', by simpa using hbound⟩

/-! ### Homes -/

/-- The classes that have uncalled methods of a fingerprint. -/
def homes (p : Codebase) (text : String) : List String :=
  (((staticMethods p).filter fun s => !s.called && s.fingerprint == text).map (·.key.owner)).dedup

/-- A home of a fingerprint is a class with such a method that is not called. -/
theorem mem_homes {text owner : String} : owner ∈ homes p text ↔
    ∃ s ∈ staticMethods p, s.called = false ∧ s.fingerprint = text ∧ s.key.owner = owner := by
  simp [homes, and_assoc]

/-- No home is listed twice. -/
theorem nodup_homes (p : Codebase) (text : String) : (homes p text).Nodup :=
  List.nodup_dedup _

/-- The homes are listed once each, so being the only one is a matter of membership. -/
theorem homes_eq_singleton_iff {text home : String} :
    homes p text = [home] ↔ ∀ owner, owner ∈ homes p text ↔ owner = home := by
  rw [← List.perm_singleton, List.perm_ext_iff_of_nodup (nodup_homes _ _)
    (List.nodup_singleton _)]
  simp

/-- The class that a called method belongs to, by the classes with uncalled methods of its
fingerprint: the only one of them, or else the holder. -/
def destination (holder : String) : List String → String
  | [home] => home
  | _ => holder

/-- Without a single home the holder is the destination. -/
theorem destination_eq_holder {owners : List String} (h : ∀ home, owners ≠ [home]) :
    destination holder owners = holder := by
  rw [destination.eq_def]
  split
  · next home => exact absurd rfl (h home)
  · rfl

/-- The home of a group is the only class with uncalled methods of its fingerprint. -/
theorem homeOf?_eq_some_iff {group : List StaticMethod}
    (hgroup : group ∈ (staticMethods p).splitBy fun a b => a.fingerprint == b.fingerprint)
    (hs : s ∈ group) {home : String} :
    homeOf? group = some home ↔ homes p s.fingerprint = [home] := by
  have howners : ∀ owner, owner ∈ homes p s.fingerprint ↔
      owner ∈ (group.filter fun m => !m.called).map (·.key.owner) := by
    intro owner
    rw [mem_homes]
    simp only [List.mem_map, List.mem_filter, mem_group_iff hgroup hs, Bool.not_eq_true']
    constructor
    · rintro ⟨m, hm, hcalled, htext, howner⟩
      exact ⟨m, ⟨⟨hm, htext⟩, hcalled⟩, howner⟩
    · rintro ⟨m, ⟨⟨hm, htext⟩, hcalled⟩, howner⟩
      exact ⟨m, hm, hcalled, htext, howner⟩
  rw [homes_eq_singleton_iff, homeOf?]
  simp only [howners]
  cases (group.filter fun m => !m.called).map (·.key.owner) with
  | nil =>
    simp only [reduceCtorEq, List.not_mem_nil, false_iff, not_forall, not_not, exists_eq]
  | cons owner rest =>
    simp only [Option.ite_none_right_eq_some, List.all_eq_true, beq_iff_eq, Option.some.injEq,
      List.mem_cons]
    constructor
    · rintro ⟨hall, rfl⟩ other
      exact ⟨fun h => h.elim id (hall other), .inl⟩
    · intro hall
      have howner : owner = home := (hall owner).1 (.inl rfl)
      exact ⟨fun other hother => ((hall other).1 (.inr hother)).trans howner.symm, howner⟩

/-- A called method goes back to the only class with uncalled methods of its fingerprint. -/
theorem mem_settledMethods_iff {home : String} :
    (s, home) ∈ settledMethods
        ((staticMethods p).splitBy fun a b => a.fingerprint == b.fingerprint) ↔
      s ∈ staticMethods p ∧ s.called = true ∧ homes p s.fingerprint = [home] := by
  rw [settledMethods, List.mem_flatMap]
  constructor
  · rintro ⟨group, hgroup, hs⟩
    split at hs
    · next home' hhome =>
      split at hs
      · obtain ⟨m, hm, heq⟩ := List.mem_map.1 hs
        cases heq
        obtain ⟨hm, hcalled⟩ := List.mem_filter.1 hm
        exact ⟨((mem_group_iff hgroup hm).1 hm).1, hcalled, (homeOf?_eq_some_iff hgroup hm).1 hhome⟩
      · cases hs
    · cases hs
  · rintro ⟨hs, hcalled, hhomes⟩
    rw [← List.flatten_splitBy (fun a b => a.fingerprint == b.fingerprint) (staticMethods p)] at hs
    obtain ⟨group, hgroup, hs⟩ := List.mem_flatten.1 hs
    refine ⟨group, hgroup, ?_⟩
    have hhome := (homeOf?_eq_some_iff hgroup hs).2 hhomes
    obtain ⟨m, hm, huncalled, -⟩ := of_homeOf? hhome
    -- an uncalled and a called method are two
    have hlength : 1 < group.length := by
      by_contra hle
      obtain ⟨x, hx⟩ := List.length_eq_one_iff.1 (Nat.le_antisymm (Nat.not_lt.1 hle)
        (List.length_pos_of_mem hs))
      rw [hx, List.mem_singleton] at hs hm
      rw [hm, ← hs, hcalled] at huncalled
      cases huncalled
    rw [hhome]
    dsimp only
    rw [if_pos hlength]
    exact List.mem_map_of_mem (List.mem_filter.2 ⟨hs, hcalled⟩)

/-- What makes a method go to a class: it is called, works elsewhere, is in another class, and either
equal uncalled methods are in that class only, or they are in none or in several, and the class is the
holder and of the same package. -/
structure IsBound (holder : String) (p : Codebase) (s : StaticMethod) (target : String) : Prop where
  /-- Some instruction calls a method of its name. -/
  called : s.called = true
  /-- It works in any other class. -/
  movable : s.movable = true
  /-- It is not there yet. -/
  leaves : s.key.owner ≠ target
  /-- It is where the uncalled methods of its fingerprint are, or in the holder. -/
  home : homes p s.fingerprint = [target] ∨ (∀ home, homes p s.fingerprint ≠ [home]) ∧
    target = holder ∧ packageOf s.key.owner = packageOf holder

/-- The class that a method is bound for is its destination. -/
theorem IsBound.eq_destination (h : IsBound holder p s target) :
    target = destination holder (homes p s.fingerprint) := by
  rcases h.home with hhomes | ⟨hnone, htarget, -⟩
  · rw [hhomes, destination]
  · rw [htarget, destination_eq_holder hnone]

/-- The methods that belong somewhere else than into the holder. -/
theorem mem_settledKeys_iff : key ∈ (settledMethods ((staticMethods p).splitBy
      fun a b => a.fingerprint == b.fingerprint)).foldl
      (fun (s : Std.HashSet Member) x => s.insert x.1.key) ∅ ↔
    ∃ s ∈ staticMethods p, s.key = key ∧ s.called = true ∧
      ∃ home, homes p s.fingerprint = [home] := by
  rw [mem_foldl_insert_iff fun x : StaticMethod × String => x.1.key]
  constructor
  · rintro (h | ⟨⟨s, home⟩, hs, hkey⟩)
    · simp at h
    · obtain ⟨hs, hcalled, hhomes⟩ := mem_settledMethods_iff.1 hs
      exact ⟨s, hs, hkey, hcalled, home, hhomes⟩
  · rintro ⟨s, hs, hkey, hcalled, home, hhomes⟩
    exact .inr ⟨(s, home), mem_settledMethods_iff.2 ⟨hs, hcalled, hhomes⟩, hkey⟩

/-- **Where methods go**: what is planned moves a method to the class that it is bound for. -/
theorem exists_isBound (h : (methodPlan holder p)[key]? = some target) :
    ∃ s ∈ staticMethods p, s.key = key ∧ IsBound holder p s target := by
  rw [methodPlan] at h
  dsimp only at h
  rw [getElem?_foldl_insert StaticMethod.key] at h
  split at h
  · next hmem =>
    cases h
    obtain ⟨s, hs, rfl⟩ := List.mem_map.1 hmem
    obtain ⟨hs, htest⟩ := List.mem_filter.1 hs
    simp only [Bool.and_eq_true, Bool.not_eq_true', bne_iff_ne, beq_iff_eq, ne_eq] at htest
    obtain ⟨⟨⟨⟨hcalled, hmovable⟩, hsettled⟩, hne⟩, hpackage⟩ := htest
    refine ⟨s, hs, rfl, hcalled, hmovable, hne, .inr ⟨fun home hhomes => ?_, rfl, hpackage⟩⟩
    rw [← Bool.not_eq_true, Std.HashSet.contains_iff_mem] at hsettled
    exact hsettled (mem_settledKeys_iff.2 ⟨s, hs, rfl, hcalled, home, hhomes⟩)
  · rcases of_getElem?_foldl_insert
        (fun x : StaticMethod × String => x.1.movable && x.1.key.owner != x.2) (·.1.key) (·.2) h with
      h | ⟨⟨s, home⟩, hx, htest, rfl, rfl⟩
    · simp at h
    · obtain ⟨hs, hcalled, hhomes⟩ := mem_settledMethods_iff.1 hx
      obtain ⟨hmovable, hne⟩ := Bool.and_eq_true_iff.1 htest
      exact ⟨s, hs, rfl, hcalled, hmovable, by simpa using hne, .inl hhomes⟩

/-- If methods are told by their references, a method that is bound for a class is planned to go there.
-/
theorem getElem?_methodPlan_of_isBound
    (hunique : ∀ s ∈ staticMethods p, ∀ s' ∈ staticMethods p, s.key = s'.key → s = s')
    (hs : s ∈ staticMethods p) (h : IsBound holder p s target) :
    (methodPlan holder p)[s.key]? = some target := by
  rw [methodPlan]
  dsimp only
  rw [getElem?_foldl_insert StaticMethod.key]
  rcases h.home with hhomes | ⟨hnone, rfl, hpackage⟩
  -- The second pass skips what the first one has planned, which has one entry for each method.
  · rw [if_neg]
    · refine getElem?_foldl_insert_of_mem
        (fun x : StaticMethod × String => x.1.movable && x.1.key.owner != x.2) (·.1.key) (·.2)
        (a := (s, target)) (mem_settledMethods_iff.2 ⟨hs, h.called, hhomes⟩) ?_ ?_
      · simp [h.movable, h.leaves]
      · rintro ⟨s', home⟩ hs' - hkey
        obtain ⟨hs', -, hhomes'⟩ := mem_settledMethods_iff.1 hs'
        obtain rfl := hunique s' hs' s hs hkey
        exact List.singleton_inj.1 (hhomes'.symm.trans hhomes)
    · intro hmem
      obtain ⟨s', hs', hkey⟩ := List.mem_map.1 hmem
      obtain ⟨hs', htest⟩ := List.mem_filter.1 hs'
      obtain rfl := hunique s' hs' s hs hkey
      simp only [Bool.and_eq_true, Bool.not_eq_true'] at htest
      have hsettled := htest.1.1.2
      rw [← Bool.not_eq_true, Std.HashSet.contains_iff_mem] at hsettled
      exact hsettled (mem_settledKeys_iff.2 ⟨s', hs, rfl, h.called, target, hhomes⟩)
  · rw [if_pos]
    refine List.mem_map_of_mem (List.mem_filter.2 ⟨hs, ?_⟩)
    simp only [Bool.and_eq_true, Bool.not_eq_true', bne_iff_ne, beq_iff_eq, ne_eq]
    refine ⟨⟨⟨⟨h.called, h.movable⟩, ?_⟩, h.leaves⟩, hpackage⟩
    rw [← Bool.not_eq_true, Std.HashSet.contains_iff_mem, mem_settledKeys_iff]
    rintro ⟨s', hs', hkey, -, home, hhomes⟩
    obtain rfl := hunique s' hs' s hs hkey
    exact hnone home hhomes

/-- What is planned moves a method that may move into the holder or to the class of another method
that may move, and never to its own class. -/
theorem of_getElem?_methodPlan (h : (methodPlan holder p)[key]? = some target) :
    (∃ m ∈ staticMethods p, m.key = key) ∧ key.owner ≠ target ∧
      (target = holder ∨ ∃ m ∈ staticMethods p, m.key.owner = target) := by
  obtain ⟨s, hs, hkey, hbound⟩ := exists_isBound h
  have htarget := hbound.eq_destination
  refine ⟨⟨s, hs, hkey⟩, hkey ▸ hbound.leaves, ?_⟩
  by_cases hsingle : ∃ home, homes p s.fingerprint = [home]
  · obtain ⟨home, hhomes⟩ := hsingle
    obtain ⟨m, hm, -, -, howner⟩ := mem_homes.1 (hhomes ▸ List.mem_singleton_self home)
    rw [hhomes, destination] at htarget
    exact .inr ⟨m, hm, howner.trans htarget.symm⟩
  · rw [destination_eq_holder fun home h => hsingle ⟨home, h⟩] at htarget
    exact .inl htarget

/-- If every method that may move is called, those in the package of the holder go there. -/
theorem getElem?_methodPlan_of_called (hcalled : ∀ m ∈ staticMethods p, m.called = true) :
    (methodPlan holder p)[key]? = some target ↔ target = holder ∧
      ∃ m ∈ staticMethods p, m.movable = true ∧ m.key = key ∧ key.owner ≠ holder ∧
        packageOf key.owner = packageOf holder := by
  -- no method goes back to another class
  have hsettled : settledMethods ((staticMethods p).splitBy
      fun a b => a.fingerprint == b.fingerprint) = [] := by
    rw [List.eq_nil_iff_forall_not_mem]
    rintro ⟨s, home⟩ hs
    obtain ⟨-, -, hhomes⟩ := mem_settledMethods_iff.1 hs
    obtain ⟨m, hm, huncalled, -⟩ := mem_homes.1 (hhomes ▸ List.mem_singleton_self home)
    rw [hcalled m hm] at huncalled
    cases huncalled
  rw [methodPlan]
  dsimp only
  rw [hsettled, getElem?_foldl_insert StaticMethod.key]
  constructor
  · intro h
    split at h
    · next hmem =>
      obtain ⟨m, hm, rfl⟩ := List.mem_map.1 hmem
      obtain ⟨hm, htest⟩ := List.mem_filter.1 hm
      simp only [Bool.and_eq_true, bne_iff_ne, beq_iff_eq, ne_eq] at htest
      exact ⟨(Option.some.inj h).symm, m, hm, htest.1.1.1.2, rfl, htest.1.2, htest.2⟩
    · simp at h
  · rintro ⟨rfl, m, hm, hmovable, rfl, hne, hpackage⟩
    rw [if_pos]
    refine List.mem_map_of_mem (List.mem_filter.2 ⟨hm, ?_⟩)
    simp [hcalled m hm, hmovable, hne, hpackage]

/-! ### The moves -/

/-- A member that moves with its new reference. -/
def movedTo (move : Move) : Member × Member :=
  (move.1, move.1.withOwner move.2)

/-- Planning moves one after the other makes those of which the new reference is free. -/
theorem foldl_addMove (families : Families) (xs : List Move) (state : MethodMoves) :
    ∃ made : List Move, made.Sublist xs ∧
      (xs.foldl (addMove families) state).moves = made.reverse ++ state.moves ∧
      (xs.foldl (addMove families) state).names = (made.map movedTo).foldl (fun r x =>
        (families.linked x.1).foldl (fun r old => r.mapMember old x.2) r) state.names ∧
      (made.map fun x => (movedTo x).2).Nodup ∧
      (∀ x ∈ made, (movedTo x).2 ∉ state.taken) ∧
      ∀ x ∈ xs, x ∈ made ∨ (movedTo x).2 ∈ state.taken ∨
        ∃ y ∈ made, (movedTo y).2 = (movedTo x).2 := by
  -- On the moves, for every plan so far: a move to a reference that is taken is left out.
  induction xs generalizing state with
  | nil => exact ⟨[], .slnil, rfl, rfl, .nil, by simp, by simp⟩
  | cons x xs ih =>
    rw [List.foldl_cons]
    by_cases htaken : state.taken.contains (x.1.withOwner x.2) = true
    · have hself : addMove families state x = state := by
        rw [addMove]
        exact if_pos htaken
      rw [hself]
      obtain ⟨made, hsub, hmoves, hnames, hnodup, hfree, hleft⟩ := ih state
      refine ⟨made, hsub.cons x, hmoves, hnames, hnodup, hfree, ?_⟩
      refine List.forall_mem_cons.2 ⟨.inr (.inl ?_), hleft⟩
      rwa [Std.HashSet.contains_iff_mem] at htaken
    · obtain ⟨made, hsub, hmoves, hnames, hnodup, hfree, hleft⟩ := ih (addMove families state x)
      have hadd : addMove families state x =
          { taken := state.taken.insert (x.1.withOwner x.2)
            moves := x :: state.moves
            names := (families.linked x.1).foldl
              (fun r old => r.mapMember old (x.1.withOwner x.2)) state.names } := by
        rw [addMove]
        exact if_neg htaken
      rw [hadd] at hmoves hnames hfree hleft
      have hfree : ∀ y ∈ made, (movedTo y).2 ≠ (movedTo x).2 ∧ (movedTo y).2 ∉ state.taken := by
        intro y hy
        have hy := hfree y hy
        rw [Std.HashSet.mem_insert, not_or, beq_iff_eq] at hy
        exact ⟨Ne.symm hy.1, hy.2⟩
      refine ⟨x :: made, hsub.cons_cons x, ?_, ?_, List.nodup_cons.2 ⟨?_, hnodup⟩, ?_, ?_⟩
      · rw [hadd, hmoves, List.reverse_cons, List.append_assoc]
        rfl
      · rw [hadd, hnames]
        rfl
      · intro hmem
        obtain ⟨y, hy, heq⟩ := List.mem_map.1 hmem
        exact (hfree y hy).1 heq
      · intro y hy
        rcases List.mem_cons.1 hy with rfl | hy
        · rwa [Std.HashSet.contains_iff_mem] at htaken
        · exact (hfree y hy).2
      · refine List.forall_mem_cons.2 ⟨.inl List.mem_cons_self, fun y hy => ?_⟩
        rcases hleft y hy with hmade | htaken | ⟨z, hz, heq⟩
        · exact .inl (List.mem_cons_of_mem _ hmade)
        · rw [Std.HashSet.mem_insert, beq_iff_eq] at htaken
          rcases htaken with heq | htaken
          · exact .inr (.inr ⟨x, List.mem_cons_self, heq⟩)
          · exact .inr (.inl htaken)
        · exact .inr (.inr ⟨z, List.mem_cons_of_mem _ hz, heq⟩)

/-- The moves of static methods in the order in which they are made. -/
def plannedMoves (holder : String) (p : Codebase) : List Move :=
  (methodMoves (methodPlan holder p) p).moves.reverse

/-- What the planned moves are. -/
structure MovesSpec (holder : String) (p : Codebase) (moves : List Move) : Prop where
  /-- References to what moves become references to the new class. -/
  names : (methodMoves (methodPlan holder p) p).names =
    Renaming.ofFamilies (Families.ofCodebase p) (moves.map movedTo)
  /-- No method moves twice. -/
  nodup : (moves.map (·.1)).Nodup
  /-- Different methods get different new references. -/
  apart : (moves.map fun x => (movedTo x).2).Nodup
  /-- What moves is planned to. -/
  planned : ∀ x ∈ moves, (methodPlan holder p)[x.1]? = some x.2
  /-- No method has a new reference already. -/
  free : ∀ x ∈ moves, ∀ m ∈ p.methods, m.key ≠ (movedTo x).2
  /-- What is planned moves if its new reference is neither declared nor given to another method. -/
  complete : ∀ x : Move, (methodPlan holder p)[x.1]? = some x.2 → x ∈ moves ∨
    (∃ m ∈ p.methods, m.key = (movedTo x).2) ∨ ∃ y ∈ moves, (movedTo y).2 = (movedTo x).2

/-- The planned moves are those of different methods to other classes, and the new references differ
from each other and from those of all methods. -/
theorem plannedMoves_spec (holder : String) (p : Codebase) :
    MovesSpec holder p (plannedMoves holder p) := by
  obtain ⟨made, hsub, hmoves, hnames, hnodup, hfree, hleft⟩ :=
    foldl_addMove (Families.ofCodebase p)
      ((methodPlan holder p).toList.mergeSort fun a b => (compare a.1 b.1).isLE)
      { taken := p.methods.foldl (fun s m => s.insert m.key) ∅ }
  have hplanned : plannedMoves holder p = made := by
    rw [plannedMoves, methodMoves, hmoves, List.append_nil, List.reverse_reverse]
  rw [hplanned]
  refine ⟨hnames, ?_, hnodup, ?_, ?_, ?_⟩
  · have hkeys : ((methodPlan holder p).toList.map (·.1)).Nodup := by
      rw [List.Nodup, List.pairwise_map]
      exact (methodPlan holder p).distinct_keys_toList.imp fun h => by simpa using h
    exact ((List.mergeSort_perm _ _).map _).nodup_iff.2 hkeys |>.sublist (hsub.map _)
  · intro x hx
    have hmem := List.mem_mergeSort.1 (hsub.subset hx)
    exact Std.HashMap.mem_toList_iff_getElem?_eq_some.1 hmem
  · intro x hx m hm heq
    exact hfree x hx ((mem_foldl_insert_iff _ _ _ _).2 (.inr ⟨m, hm, heq⟩))
  · intro x hx
    have hmem := Std.HashMap.mem_toList_iff_getElem?_eq_some.2 hx
    refine (hleft x (List.mem_mergeSort.2 hmem)).imp_right (Or.imp_left fun htaken => ?_)
    exact ((mem_foldl_insert_iff _ _ _ _).1 htaken).resolve_left (by simp)

/-- A plan of one move to a class without such a method makes this move. -/
theorem plannedMoves_eq_singleton
    (hplan : ∀ k t, (methodPlan holder p)[k]? = some t ↔ k = key ∧ t = target)
    (hfree : ∀ m ∈ p.methods, m.key ≠ key.withOwner target) :
    plannedMoves holder p = [(key, target)] := by
  have hlist : (methodPlan holder p).toList = [(key, target)] := by
    refine List.perm_singleton.1 ((List.perm_ext_iff_of_nodup ?_ (List.nodup_singleton _)).2 ?_)
    · refine List.Nodup.of_map (·.1) ?_
      rw [List.Nodup, List.pairwise_map]
      exact (methodPlan holder p).distinct_keys_toList.imp fun h => by simpa using h
    · rintro ⟨k, t⟩
      rw [Std.HashMap.mem_toList_iff_getElem?_eq_some, hplan]
      simp
  have htaken : (p.methods.foldl (fun (s : Std.HashSet Member) m => s.insert m.key) ∅).contains
      (key.withOwner target) = false := by
    rw [← Bool.not_eq_true, Std.HashSet.contains_iff_mem, mem_foldl_insert_iff]
    rintro (h | ⟨m, hm, heq⟩)
    · simp at h
    · exact hfree m hm heq
  rw [plannedMoves, methodMoves, hlist, List.mergeSort_singleton, List.foldl_cons, List.foldl_nil, addMove]
  dsimp only
  rw [htaken]
  rfl

end Unscramble.Tidy
