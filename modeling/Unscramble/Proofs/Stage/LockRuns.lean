import Unscramble.Proofs.Machine
import Unscramble.Proofs.Stage.LockCopies

/-! # Running a body with copies of locks

A lock that is stored and loaded back leaves the stack and the slot as one that is copied and stored
does. So a body runs as before when its locks are copied, unless control comes to the load from
somewhere else than the store: then the load is missing there.

Main definitions: `CopiesLock.shift`, `CopiesLock.isReload`, `CopiesLock.CopyFollows`,
`CopiesLock.LoadFollows`, `reloads`. Main statements: `CopiesLock.shows_copy`,
`CopiesLock.shows_load`, `shows_replaceLoads`. -/

namespace Unscramble

open Pattern

namespace Idiom

namespace CopiesLock

variable {l l' : Listing} {front mid back rest : List Handle} {store load enter a n t : Handle}

/-! ### What stands behind an instruction -/

/-- What takes the place of an instruction: of the store the copy, and of the load what follows it.
-/
def shift (l : Listing) (store load enter n : Handle) : Handle :=
  if n = store then l.capacity else if n = load then enter else n

/-- What is neither store nor load keeps its handle. -/
theorem shift_of_ne (hstore : n ≠ store) (hload : n ≠ load) : shift l store load enter n = n := by
  rw [shift, if_neg hstore, if_neg hload]

/-- The store is shown by its copy. -/
theorem shift_store : shift l store load enter store = l.capacity :=
  if_pos rfl

/-- The store, the load and the taking of the lock are different, and so is the copy. -/
theorem distinct (c : CopiesLock l l' front mid back store load enter rest) :
    store ≠ load ∧ store ≠ enter ∧ load ≠ enter ∧
      ∀ h ∈ l.handles, h ≠ l.capacity := by
  have hne : ∀ {a b : Handle} {op op' : Opcode}, (l.get a).opcode? = some op →
      (l.get b).opcode? = some op' → op ≠ op' → a ≠ b := by
    rintro a b op op' ha hb hop rfl
    exact hop (Option.some.inj (ha.symm.trans hb))
  exact ⟨hne c.stores c.loads (by decide), hne c.stores c.enters (by decide),
    hne c.loads c.enters (by decide), fun h hh => (c.wf.lt_capacity h hh).ne⟩

/-- The store and the load stand nowhere else. -/
theorem apart (c : CopiesLock l l' front mid back store load enter rest) :
    (store ∉ front ∧ store ∉ back) ∧ load ∉ front ∧ load ∉ mid ∧ load ∉ back := by
  have hnodup := c.wf.nodup
  rw [c.handles] at hnodup
  simp only [List.nodup_append, List.nodup_cons, List.mem_append, List.mem_cons] at hnodup
  grind

/-- The handles that stay. -/
theorem mem_handles_iff (c : CopiesLock l l' front mid back store load enter rest)
    (hload : a ≠ load) (hcopy : a ≠ l.capacity) : a ∈ l'.handles ↔ a ∈ l.handles := by
  rw [c.handles, c.handles']
  simp only [List.mem_append, List.mem_cons, hload, hcopy, false_or]

/-- A handle other than store and load stands in front of both, between them or behind. -/
theorem mem_handles_cases (c : CopiesLock l l' front mid back store load enter rest)
    (ha : a ∈ l.handles) (hstore : a ≠ store) (hload : a ≠ load) :
    a ∈ front ∨ a ∈ mid ∨ a ∈ back := by
  rw [c.handles] at ha
  simpa [hstore, hload] using ha

/-- In front of the store the copy can be next. -/
theorem head?_follow_of_front (c : CopiesLock l l' front mid back store load enter rest)
    (ha : a ∈ front) : (l'.follow a).head? = (l.follow a).head?.map (shift l store load enter) := by
  obtain ⟨hfront, -, -, -⟩ := c.linked
  obtain ⟨⟨hstore, -⟩, hload, -, -⟩ := c.apart
  obtain ⟨first, second, hs⟩ := List.append_of_mem ha
  have hsplit : l.handles = first ++ a :: (second ++ store :: (mid ++ load :: back)) := by
    rw [c.handles, hs]
    simp
  have hsplit' : l'.handles = first ++ a :: (second ++ l.capacity :: store :: (mid ++ back)) := by
    rw [c.handles', hs]
    simp
  rw [(Listing.follow_of_split c.wf hsplit).1, (Listing.follow_of_split c.wf' hsplit').1,
    List.filter_append, List.filter_append, c.filter_eq fun h hh => hfront h (by simp [hs, hh]),
    List.filter_cons_of_pos (isReal_of_opcode? c.stores),
    List.filter_cons_of_pos (isReal_of_opcode? c.copy)]
  cases hreal : second.filter l.isReal with
  | nil => simp [shift_store]
  | cons x xs =>
    have hx : x ∈ front := by
      rw [hs]
      exact List.mem_append_right _ (List.mem_cons_of_mem _
        (List.mem_of_mem_filter (hreal ▸ List.mem_cons_self)))
    have hshift : shift l store load enter x = x :=
      shift_of_ne (fun heq => hstore (heq ▸ hx)) fun heq => hload (heq ▸ hx)
    simp [hshift]

/-- Between the store and the load the lock is taken next. -/
theorem head?_follow_of_mid (c : CopiesLock l l' front mid back store load enter rest)
    (ha : a ∈ mid) : (l'.follow a).head? = (l.follow a).head?.map (shift l store load enter) := by
  obtain ⟨-, hmid, hback, -⟩ := c.linked
  obtain ⟨first, second, hs⟩ := List.append_of_mem ha
  have hsplit : l.handles = (front ++ store :: first) ++ a :: (second ++ load :: back) := by
    rw [c.handles, hs]
    simp
  have hsplit' : l'.handles =
      (front ++ l.capacity :: store :: first) ++ a :: (second ++ back) := by
    rw [c.handles', hs]
    simp
  have hnone : second.filter l.isReal = [] := by
    have hbetween := c.between
    rw [hs, List.filter_append, List.append_eq_nil_iff] at hbetween
    exact List.eq_nil_of_sublist_nil (hbetween.2 ▸ (List.sublist_cons_self a second).filter _)
  rw [(Listing.follow_of_split c.wf hsplit).1, (Listing.follow_of_split c.wf' hsplit').1,
    List.filter_append, List.filter_append, c.filter_eq fun h hh => hmid h (by simp [hs, hh]),
    hnone, List.filter_cons_of_pos (isReal_of_opcode? c.loads), c.filter_eq hback, c.behind]
  have hne := c.distinct.1
  simp [shift, Ne.symm hne]

/-- Behind the load nothing changes. -/
theorem head?_follow_of_back (c : CopiesLock l l' front mid back store load enter rest)
    (ha : a ∈ back) : (l'.follow a).head? = (l.follow a).head?.map (shift l store load enter) := by
  obtain ⟨-, -, hback, -⟩ := c.linked
  obtain ⟨⟨-, hstore⟩, -, -, hload⟩ := c.apart
  obtain ⟨first, second, hs⟩ := List.append_of_mem ha
  have hsplit : l.handles = (front ++ store :: (mid ++ load :: first)) ++ a :: second := by
    rw [c.handles, hs]
    simp
  have hsplit' : l'.handles =
      (front ++ l.capacity :: store :: (mid ++ first)) ++ a :: second := by
    rw [c.handles', hs]
    simp
  have hsecond : ∀ h ∈ second, h ∈ back := fun h hh => by simp [hs, hh]
  rw [(Listing.follow_of_split c.wf hsplit).1, (Listing.follow_of_split c.wf' hsplit').1,
    c.filter_eq fun h hh => hback h (hsecond h hh)]
  cases hreal : second.filter l.isReal with
  | nil => rfl
  | cons x xs =>
    have hx : x ∈ back := hsecond x (List.mem_of_mem_filter (hreal ▸ List.mem_cons_self))
    have hshift : shift l store load enter x = x :=
      shift_of_ne (fun heq => hstore (heq ▸ hx)) fun heq => hload (heq ▸ hx)
    rw [List.head?_cons, Option.map_some, hshift]

/-- Behind all other instructions what follows is shifted. -/
theorem head?_follow (c : CopiesLock l l' front mid back store load enter rest)
    (ha : a ∈ l.handles) (hstore : a ≠ store) (hload : a ≠ load) :
    (l'.follow a).head? = (l.follow a).head?.map (shift l store load enter) := by
  rcases c.mem_handles_cases ha hstore hload with hin | hin | hin
  · exact c.head?_follow_of_front hin
  · exact c.head?_follow_of_mid hin
  · exact c.head?_follow_of_back hin

/-- The next instruction behind another one is shifted. -/
theorem realAfter?_eq (c : CopiesLock l l' front mid back store load enter rest)
    (ha : a ∈ l.handles) (hstore : a ≠ store) (hload : a ≠ load) :
    realAfter? l' a = (realAfter? l a).map (shift l store load enter) := by
  rw [Listing.realAfter?_eq_head?, Listing.realAfter?_eq_head?, c.head?_follow ha hstore hload]

/-- The instruction that a label leads to is shifted. -/
theorem nextReal?_eq (c : CopiesLock l l' front mid back store load enter rest)
    (ht : t ∈ l.handles) (hlabel : (l.get t).isLabel = true) :
    l'.nextReal? t = (l.nextReal? t).map (shift l store load enter) := by
  have hmarker : l.isReal t = false := Instruction.isReal_of_isLabel hlabel
  have hmarker' : l'.isReal t = false := by
    rw [Listing.isReal, c.get_linked ht]
    exact hmarker
  have hne : ∀ {h : Handle} {op : Opcode}, (l.get h).opcode? = some op → t ≠ h := by
    rintro h op hop rfl
    rw [isLabel_of_opcode? hop] at hlabel
    cases hlabel
  have hnext : ∀ {l : Listing}, l.isReal t = false → l.nextReal? t = realAfter? l t := by
    intro l hmarker
    rw [Listing.nextReal?, List.find?_cons_of_neg (by simp [hmarker])]
    rfl
  rw [hnext hmarker, hnext hmarker', c.realAfter?_eq ht (hne c.stores) (hne c.loads)]

/-- The next instructions from the store on, and from the copy on. -/
theorem realAfter?_run (c : CopiesLock l l' front mid back store load enter rest) :
    realAfter? l store = some load ∧ realAfter? l load = some enter ∧
      realAfter? l' l.capacity = some store ∧ realAfter? l' store = some enter := by
  obtain ⟨hreals, hreals'⟩ := c.reals_eq
  have hin : ∀ {a b : Handle}, [a, b] <:+: [store, load, enter] → [a, b] <:+: l.reals := by
    intro a b h
    rw [hreals]
    exact h.trans ((List.prefix_append _ rest).isInfix.trans (List.suffix_append _ _).isInfix)
  have hin' : ∀ {a b : Handle}, [a, b] <:+: [l.capacity, store, enter] → [a, b] <:+: l'.reals := by
    intro a b h
    rw [hreals']
    exact h.trans ((List.prefix_append _ rest).isInfix.trans (List.suffix_append _ _).isInfix)
  exact ⟨(Listing.realAfter?_eq_some_iff c.wf (isReal_of_opcode? c.stores)).2
      (hin (List.prefix_append [store, load] [enter]).isInfix),
    (Listing.realAfter?_eq_some_iff c.wf (isReal_of_opcode? c.loads)).2
      (hin (List.suffix_cons store [load, enter]).isInfix),
    (Listing.realAfter?_eq_some_iff c.wf' (isReal_of_opcode? c.copy)).2
      (hin' (List.prefix_append [l.capacity, store] [enter]).isInfix),
    (Listing.realAfter?_eq_some_iff c.wf' (isReal_of_opcode? c.opcodes.1)).2
      (hin' (List.suffix_cons l.capacity [store, enter]).isInfix)⟩

/-- Control enters at the copy if it entered at the store. -/
theorem head?_reals (c : CopiesLock l l' front mid back store load enter rest) :
    l'.reals.head? = l.reals.head?.map (shift l store load enter) := by
  obtain ⟨hreals, hreals'⟩ := c.reals_eq
  obtain ⟨⟨hstore, -⟩, hload, -⟩ := c.apart
  rw [hreals, hreals']
  cases hfront : front.filter l.isReal with
  | nil => simp [shift_store]
  | cons x xs =>
    have hx : x ∈ front := List.mem_of_mem_filter (hfront ▸ List.mem_cons_self)
    have hshift : shift l store load enter x = x :=
      shift_of_ne (fun heq => hstore (heq ▸ hx)) fun heq => hload (heq ▸ hx)
    simp [hshift]

/-- A range covers the same instructions. -/
theorem covers_iff (c : CopiesLock l l' front mid back store load enter rest) {g : Guard Label}
    (hg : ∀ t ∈ g.labels, t ∈ l.handles ∧ (l.get t).isLabel = true) (ha : a ∈ l.handles)
    (hload : a ≠ load) : Flow.Covers l' g a ↔ Flow.Covers l g a := by
  -- Without the copy on one side and the load on the other the two listings are the same.
  have hhandles : (l'.restrict (· != l.capacity)).handles = (l.restrict (· != load)).handles := by
    obtain ⟨hfront, hmid, hback, hlinked⟩ := c.linked
    obtain ⟨-, hloadFront, hloadMid, hloadBack⟩ := c.apart
    have hkeep : ∀ hs : List Handle, (∀ h ∈ hs, h ∈ l.handles) →
        hs.filter (· != l.capacity) = hs := fun hs hm =>
      List.filter_eq_self.2 fun h hh => by simpa using c.distinct.2.2.2 h (hm h hh)
    have hapart : ∀ hs : List Handle, load ∉ hs → hs.filter (· != load) = hs := fun hs hm =>
      List.filter_eq_self.2 fun h hh => by
        simpa using fun heq : h = load => hm (heq ▸ hh)
    rw [Listing.handles_restrict, Listing.handles_restrict, c.handles, c.handles']
    simp only [List.filter_append, List.filter_cons, hkeep front hfront, hkeep mid hmid,
      hkeep back hback, hapart front hloadFront, hapart mid hloadMid, hapart back hloadBack,
      bne_self_eq_false, Bool.false_eq_true, if_false]
    have hstore := c.distinct.2.2.2 store (hlinked store (by simp))
    simp [hstore, c.distinct.1]
  have hcongr : ∀ {l₁ l₂ : Listing}, l₁.handles = l₂.handles →
      (Flow.Covers l₁ g a ↔ Flow.Covers l₂ g a) := by
    intro l₁ l₂ heq
    rw [Flow.Covers, Flow.Covers, Listing.onward, Listing.after, Listing.onward, Listing.after, heq]
  have hlabel : ∀ t ∈ g.labels, t ≠ load := by
    rintro t ht rfl
    obtain ⟨-, hlabel⟩ := hg _ ht
    rw [isLabel_of_opcode? c.loads] at hlabel
    cases hlabel
  have hcopy := c.distinct.2.2.2
  have hwithout : Flow.Covers (l'.restrict (· != l.capacity)) g a ↔ Flow.Covers l' g a :=
    Flow.covers_restrict (by simpa using hcopy a ha) fun t ht => by simpa using hcopy t (hg t ht).1
  rw [← hwithout, hcongr hhandles,
    Flow.covers_restrict (by simpa using hload) fun t ht => by simpa using hlabel t ht]

/-! ### The same runs -/

/-- What shifts to an instruction. -/
theorem shift_inj (c : CopiesLock l l' front mid back store load enter rest) {m : Handle}
    (hn : n ∈ l.handles) (hm : m ∈ l.handles) (hnload : n ≠ load) (hmload : m ≠ load)
    (h : shift l store load enter n = shift l store load enter m) : n = m := by
  obtain ⟨-, -, -, hcopy⟩ := c.distinct
  have hn' := hcopy n hn
  have hm' := hcopy m hm
  rw [shift, shift, if_neg hnload, if_neg hmload] at h
  split at h <;> split at h <;> simp_all

/-- Nothing shifts to the store. -/
theorem shift_ne_store (c : CopiesLock l l' front mid back store load enter rest) (n : Handle) :
    shift l store load enter n ≠ store := by
  obtain ⟨-, hstore, -, hcopy⟩ := c.distinct
  have hlinked := hcopy store (c.linked.2.2.2 store (by simp))
  rw [shift]
  split
  · exact Ne.symm hlinked
  · split
    · exact Ne.symm hstore
    · assumption

/-- The load stands behind the store only. -/
theorem eq_store_of_realAfter? (c : CopiesLock l l' front mid back store load enter rest)
    (hreal : l.isReal a = true) (h : realAfter? l a = some load) : a = store := by
  have hstands := (Listing.realAfter?_eq_some_iff c.wf hreal).1 h
  have hrun := (Listing.realAfter?_eq_some_iff c.wf (isReal_of_opcode? c.stores)).1 c.realAfter?_run.1
  exact eq_of_pair_isInfix (List.nodup_reverse.2 c.wf.nodup_reals) (List.reverse_infix.2 hstands)
    (List.reverse_infix.2 hrun)

/-- Control does not enter at the load. -/
theorem head?_reals_ne (c : CopiesLock l l' front mid back store load enter rest) :
    l.reals.head? ≠ some load := by
  obtain ⟨-, hload, -⟩ := c.apart
  rw [c.reals_eq.1]
  cases hfront : front.filter l.isReal with
  | nil => simpa using c.distinct.1
  | cons x xs =>
    have hx : x ∈ front := List.mem_of_mem_filter (hfront ▸ List.mem_cons_self)
    simpa using fun heq : x = load => hload (heq ▸ hx)

/-- A label that is linked stays so. -/
theorem mem_handles_of_isLabel (c : CopiesLock l l' front mid back store load enter rest)
    (ht : t ∈ l.handles) (hlabel : (l.get t).isLabel = true) : t ∈ l'.handles := by
  refine (c.mem_handles_iff ?_ (c.distinct.2.2.2 t ht)).2 ht
  rintro rfl
  rw [isLabel_of_opcode? c.loads] at hlabel
  cases hlabel

/-- A call of a subroutine is neither the store nor the load. -/
theorem ne_of_jsr (c : CopiesLock l l' front mid back store load enter rest)
    (ha : (l.get a).hasOpcode .jsr = true) : a ≠ store ∧ a ≠ load := by
  constructor
  · rintro rfl
    rw [hasOpcode_of_opcode? c.stores (by decide)] at ha
    cases ha
  · rintro rfl
    rw [hasOpcode_of_opcode? c.loads (by decide)] at ha
    cases ha

section

variable {V W : Type} {M : Machine V W} {b b' : Body} {start s s' : Frame V W}
  {passed : List (Machine.Visit V W)} {h : Handle} {e : Exit V} {slot : UInt16}

open Machine

/-- Control leaves all other instructions of the body with the copy as it leaves them with the load,
for what shifts there. -/
theorem exists_leads (c : CopiesLock b.listing b'.listing front mid back store load enter rest)
    (hb : b.LabelsLinked) (hguards : b'.guards = b.guards) (hh : h ∈ b.listing.handles)
    (hstore : h ≠ store) (hload : h ≠ load) (leads : M.Leads b' h e n) :
    ∃ a, M.Leads b h e a ∧ shift b.listing store load enter a = n := by
  have hget : b'.listing.get h = b.listing.get h := c.get_linked hh
  -- By how control gets there: below, to a target, back from a subroutine or to a handler; each way
  -- shifts its end.
  cases leads with
  | below running next =>
    rw [c.realAfter?_eq hh hstore hload] at next
    obtain ⟨a, ha, hshift⟩ := Option.map_eq_some_iff.1 next
    exact ⟨a, .below (hget ▸ running) ha, hshift⟩
  | target mem linked next =>
    rw [hget] at mem
    obtain ⟨ht, hlabel⟩ := hb.targets h hh _ mem
    rw [c.nextReal?_eq ht hlabel] at next
    obtain ⟨a, ha, hshift⟩ := Option.map_eq_some_iff.1 next
    exact ⟨a, .target mem ht ha, hshift⟩
  | @back call _ linked calls next =>
    have hne : call ≠ b.listing.capacity := by
      rintro rfl
      rw [hasOpcode_of_opcode? c.copy (by decide)] at calls
      cases calls
    have hm : call ∈ b.listing.handles :=
      (c.mem_handles_iff (fun heq => c.load_gone (heq ▸ linked)) hne).1 linked
    rw [c.get_linked hm] at calls
    obtain ⟨hnstore, hnload⟩ := c.ne_of_jsr calls
    rw [c.realAfter?_eq hm hnstore hnload] at next
    obtain ⟨a, ha, hshift⟩ := Option.map_eq_some_iff.1 next
    exact ⟨a, .back hm calls ha, hshift⟩
  | @caught _ others _ g _ guards covers catches first linked next =>
    rw [hguards] at guards
    have hcovers : ∀ g ∈ b.guards, Flow.Covers b'.listing g h ↔ Flow.Covers b.listing g h :=
      fun g hg => c.covers_iff (hb.guards g hg) hh hload
    have hg : g ∈ b.guards := by simp [guards]
    obtain ⟨ht, hlabel⟩ := hb.guards g hg g.handler (by simp [Guard.labels])
    rw [c.nextReal?_eq ht hlabel] at next
    obtain ⟨a, ha, hshift⟩ := Option.map_eq_some_iff.1 next
    refine ⟨a, .caught guards ((hcovers g hg).1 covers) catches (fun other hother hc => ?_) ht ha,
      hshift⟩
    exact first other hother ((hcovers other (by simp [guards, hother])).2 hc)

/-- Control leaves all other instructions of the body with the load as it leaves them with the copy.
-/
theorem leads_shift (c : CopiesLock b.listing b'.listing front mid back store load enter rest)
    (hb : b.LabelsLinked) (hguards : b'.guards = b.guards) (hh : h ∈ b.listing.handles)
    (hstore : h ≠ store) (hload : h ≠ load) (leads : M.Leads b h e a) :
    M.Leads b' h e (shift b.listing store load enter a) := by
  have hget : b'.listing.get h = b.listing.get h := c.get_linked hh
  cases leads with
  | below running next =>
    exact .below (hget.symm ▸ running) (by rw [c.realAfter?_eq hh hstore hload, next]; rfl)
  | target mem linked next =>
    obtain ⟨ht, hlabel⟩ := hb.targets h hh _ mem
    exact .target (hget.symm ▸ mem) (c.mem_handles_of_isLabel ht hlabel)
      (by rw [c.nextReal?_eq ht hlabel, next]; rfl)
  | back linked calls next =>
    obtain ⟨hnstore, hnload⟩ := c.ne_of_jsr calls
    exact .back ((c.mem_handles_iff hnload (c.distinct.2.2.2 _ linked)).2 linked)
      ((c.get_linked linked).symm ▸ calls)
      (by rw [c.realAfter?_eq linked hnstore hnload, next]; rfl)
  | @caught _ others _ g _ guards covers catches first linked next =>
    have hcovers : ∀ g ∈ b.guards, Flow.Covers b'.listing g h ↔ Flow.Covers b.listing g h :=
      fun g hg => c.covers_iff (hb.guards g hg) hh hload
    have hg : g ∈ b.guards := by simp [guards]
    obtain ⟨ht, hlabel⟩ := hb.guards g hg g.handler (by simp [Guard.labels])
    refine .caught (hguards.trans guards) ((hcovers g hg).2 covers) catches
      (fun other hother hc => ?_) (c.mem_handles_of_isLabel ht hlabel)
      (by rw [c.nextReal?_eq ht hlabel, next]; rfl)
    exact first other hother ((hcovers other (by simp [guards, hother])).1 hc)

/-- Control comes to the load from the store only, if no label leads to it. -/
theorem ne_load_of_leads (c : CopiesLock b.listing b'.listing front mid back store load enter rest)
    (hentry : ∀ t ∈ b.entries, b.listing.nextReal? t ≠ some load) (hh : h ∈ b.listing.reals)
    (hstore : h ≠ store) (leads : M.Leads b h e n) : n ≠ load := by
  obtain ⟨hm, hreal⟩ := List.mem_filter.1 hh
  rintro rfl
  cases leads with
  | below _ next => exact hstore (c.eq_store_of_realAfter? hreal next)
  | target mem _ next =>
    exact hentry _ (List.mem_append_right _ (List.mem_flatMap.2 ⟨h, hm, mem⟩)) next
  | @back call _ linked calls next =>
    have hcall : b.listing.isReal call = true := by
      rw [Listing.isReal, Instruction.isReal, Option.isSome_iff_exists]
      exact ⟨.jsr, by simpa [Instruction.hasOpcode] using calls⟩
    rw [c.eq_store_of_realAfter? hcall next, hasOpcode_of_opcode? c.stores (by decide)] at calls
    cases calls
  | @caught _ others after g _ guards _ _ _ _ next =>
    have hg : g ∈ b.guards := by simp [guards]
    exact hentry _ (List.mem_append_left _ (List.mem_map_of_mem hg)) next

/-- What the copy replaces. -/
def isReload (l : Listing) (store load h : Handle) : Bool :=
  h == store || h == load || h == l.capacity

/-- No other instruction reloads the lock. -/
theorem isReload_of_mem (c : CopiesLock b.listing b'.listing front mid back store load enter rest)
    (hh : h ∈ b.listing.handles) (hstore : h ≠ store) (hload : h ≠ load) :
    isReload b.listing store load h = false := by
  simp [isReload, hstore, hload, c.distinct.2.2.2 h hh]

/-- Storing a value and loading it back. -/
theorem execution_load (c : CopiesLock b.listing b'.listing front mid back store load enter rest)
    (hstore : b.listing.get store = .slot .astore slot) (hload : b.listing.get load = .slot .aload slot)
    {v : V} {stack : List V} {slots : UInt16 → Option V} {world : W}
    (execution : M.Execution b start passed store ⟨v :: stack, slots, world⟩) :
    M.Execution b start
      (⟨load, ⟨stack, Function.update slots slot (some v), world⟩⟩ ::
        ⟨store, ⟨v :: stack, slots, world⟩⟩ :: passed)
      enter ⟨v :: stack, Function.update slots slot (some v), world⟩ := by
  obtain ⟨hnextStore, hnextLoad, -, -⟩ := c.realAfter?_run
  have heffect : M.Effect store (b.listing.get store) ⟨v :: stack, slots, world⟩ .below
      ⟨stack, Function.update slots slot (some v), world⟩ :=
    hstore ▸ .store (by decide)
  have heffect' : M.Effect load (b.listing.get load)
      ⟨stack, Function.update slots slot (some v), world⟩ .below
      ⟨v :: stack, Function.update slots slot (some v), world⟩ :=
    hload ▸ .load (by decide) (Function.update_self slot _ _)
  exact (execution.step heffect (.below (by rw [hstore]; rfl) hnextStore)).step heffect'
    (.below (by rw [hload]; rfl) hnextLoad)

/-- Copying a value and storing the copy. -/
theorem execution_copy (c : CopiesLock b.listing b'.listing front mid back store load enter rest)
    (hstore : b.listing.get store = .slot .astore slot)
    (hcopy : b'.listing.get b.listing.capacity = .plain .dup)
    {v : V} {stack : List V} {slots : UInt16 → Option V} {world : W}
    (execution : M.Execution b' start passed b.listing.capacity ⟨v :: stack, slots, world⟩) :
    M.Execution b' start
      (⟨store, ⟨v :: v :: stack, slots, world⟩⟩ ::
        ⟨b.listing.capacity, ⟨v :: stack, slots, world⟩⟩ :: passed)
      enter ⟨v :: stack, Function.update slots slot (some v), world⟩ := by
  obtain ⟨-, -, hnextCopy, hnextStore⟩ := c.realAfter?_run
  rw [← c.get_linked (c.linked.2.2.2 store (by simp))] at hstore
  have heffect : M.Effect b.listing.capacity (b'.listing.get b.listing.capacity)
      ⟨v :: stack, slots, world⟩ .below ⟨v :: v :: stack, slots, world⟩ :=
    hcopy ▸ .dup
  have heffect' : M.Effect store (b'.listing.get store) ⟨v :: v :: stack, slots, world⟩ .below
      ⟨v :: stack, Function.update slots slot (some v), world⟩ :=
    hstore ▸ .store (by decide)
  exact (execution.step heffect (.below (by rw [hcopy]; rfl) hnextCopy)).step heffect'
    (.below (by rw [hstore]; rfl) hnextStore)

/-- The body with the copy has gone through the same steps, as far as they are shown. Where the other
body is at the load, behind the store, it has taken the next two steps already. -/
def CopyFollows (M : Machine V W) (b b' : Body) (store load enter : Handle) (slot : UInt16)
    (start : Frame V W) (passed : List (Machine.Visit V W)) (h : Handle) (s : Frame V W) : Prop :=
  ∃ passed', shown (isReload b.listing store load) passed' =
      shown (isReload b.listing store load) passed ∧
    (h ≠ load → M.Execution b' start passed' (shift b.listing store load enter h) s) ∧
    (h = load → ∃ v, s.slots slot = some v ∧
      M.Execution b' start passed' enter ⟨v :: s.stack, s.slots, s.world⟩)

/-- At the store, the body with the copy makes the copy and stores it. -/
theorem copyFollows_store (c : CopiesLock b.listing b'.listing front mid back store load enter rest)
    (hstore : b.listing.get store = .slot .astore slot)
    (hcopy : b'.listing.get b.listing.capacity = .plain .dup)
    (follows : CopyFollows M b b' store load enter slot start passed store s)
    (effect : M.Effect store (b.listing.get store) s e s') (leads : M.Leads b store e n) :
    CopyFollows M b b' store load enter slot start (⟨store, s⟩ :: passed) n s' := by
  obtain ⟨passed', hsame, hother, -⟩ := follows
  obtain ⟨hnextStore, -, -, -⟩ := c.realAfter?_run
  rw [hstore] at effect
  obtain ⟨v, stack, hstack, rfl, rfl⟩ := effect.of_store (by decide)
  have hn : n = load := by
    cases leads with
    | below _ next => exact Option.some.inj (next.symm.trans hnextStore)
  have hbefore := hother c.distinct.1
  rw [shift_store] at hbefore
  obtain ⟨_, slots, world⟩ := s
  cases hstack
  refine ⟨_, ?_, fun hne => absurd hn hne,
    fun _ => ⟨v, by simp, c.execution_copy hstore hcopy hbefore⟩⟩
  rw [shown_cons_of_hidden (by simp [isReload]), shown_cons_of_hidden (by simp [isReload]),
    shown_cons_of_hidden (by simp [isReload]), hsame]

/-- At the load, the body with the copy stands where it leads to already. -/
theorem copyFollows_load (c : CopiesLock b.listing b'.listing front mid back store load enter rest)
    (hload : b.listing.get load = .slot .aload slot)
    (follows : CopyFollows M b b' store load enter slot start passed load s)
    (effect : M.Effect load (b.listing.get load) s e s') (leads : M.Leads b load e n) :
    CopyFollows M b b' store load enter slot start (⟨load, s⟩ :: passed) n s' := by
  obtain ⟨passed', hsame, -, hatLoad⟩ := follows
  obtain ⟨-, hstoreEnter, hloadEnter, -⟩ := c.distinct
  obtain ⟨-, hnextLoad, -, -⟩ := c.realAfter?_run
  rw [hload] at effect
  obtain ⟨v, hv, rfl, rfl⟩ := effect.of_load (by decide)
  have hn : n = enter := by
    cases leads with
    | below _ next => exact Option.some.inj (next.symm.trans hnextLoad)
  obtain ⟨v', hv', hentered⟩ := hatLoad rfl
  cases hv.symm.trans hv'
  refine ⟨passed', ?_, fun _ => ?_, fun heq => absurd (hn.symm.trans heq).symm hloadEnter⟩
  · rw [shown_cons_of_hidden (by simp [isReload]), hsame]
  · rw [hn, shift_of_ne (Ne.symm hstoreEnter) (Ne.symm hloadEnter)]
    exact hentered

/-- The body with the copy does what the body with the load does. -/
theorem shows_copy (c : CopiesLock b.listing b'.listing front mid back store load enter rest)
    (hb : b.LabelsLinked) (hguards : b'.guards = b.guards)
    (hstore : b.listing.get store = .slot .astore slot) (hload : b.listing.get load = .slot .aload slot)
    (hcopy : b'.listing.get b.listing.capacity = .plain .dup)
    (hentry : ∀ t ∈ b.entries, b.listing.nextReal? t ≠ some load) :
    M.Shows (isReload b.listing store load) b b' := by
  have hfollows : ∀ (start : Frame V W) passed h s, M.Execution b start passed h s →
      CopyFollows M b b' store load enter slot start passed h s := by
    intro start passed h s execution
    induction execution with
    | @entry h first =>
      refine ⟨[], rfl, fun _ => .entry (by rw [c.head?_reals, first]; rfl), ?_⟩
      rintro rfl
      exact absurd first c.head?_reals_ne
    | @step passed h n s s' e before effect leads ih =>
      by_cases hatStore : h = store
      · subst hatStore
        exact c.copyFollows_store hstore hcopy ih effect leads
      · by_cases hatLoad : h = load
        · subst hatLoad
          exact c.copyFollows_load hload ih effect leads
        -- any other instruction does the same on both sides
        · obtain ⟨passed', hsame, hother, -⟩ := ih
          have hm := List.mem_of_mem_filter before.mem_reals
          have hbefore := hother hatLoad
          rw [shift_of_ne hatStore hatLoad] at hbefore
          refine ⟨_, ?_, fun _ => hbefore.step ((c.get_linked hm).symm ▸ effect)
            (c.leads_shift hb hguards hm hatStore hatLoad leads), fun heq => ?_⟩
          · have hshown := c.isReload_of_mem hm hatStore hatLoad
            rw [shown_cons_of_not_hidden hshown, shown_cons_of_not_hidden hshown, hsame]
          · exact absurd heq (c.ne_load_of_leads hentry before.mem_reals hatStore leads)
  intro start passed h s hshown execution
  simp only [isReload, Bool.or_eq_false_iff, beq_eq_false_iff_ne] at hshown
  obtain ⟨passed', hsame, hother, -⟩ := hfollows start passed h s execution
  refine ⟨passed', ?_, hsame⟩
  have hresult := hother hshown.1.2
  rwa [shift_of_ne hshown.1.1 hshown.1.2] at hresult

/-- The body with the load has gone through the same steps, as far as they are shown. Where the other
body is at the store, behind the copy, the value is there twice, and this body has it once. -/
def LoadFollows (M : Machine V W) (b : Body) (store load enter : Handle) (start : Frame V W)
    (passed : List (Machine.Visit V W)) (h : Handle) (s : Frame V W) : Prop :=
  ∃ passed', shown (isReload b.listing store load) passed' =
      shown (isReload b.listing store load) passed ∧
    (∀ a ∈ b.listing.handles, a ≠ load → shift b.listing store load enter a = h →
      M.Execution b start passed' a s) ∧
    (h = store → ∃ v stack, s.stack = v :: v :: stack ∧
      M.Execution b start passed' store ⟨v :: stack, s.slots, s.world⟩)

/-- At the copy, the body with the load stays at the store. -/
theorem loadFollows_copy (c : CopiesLock b.listing b'.listing front mid back store load enter rest)
    (hcopy : b'.listing.get b.listing.capacity = .plain .dup)
    (follows : LoadFollows M b store load enter start passed b.listing.capacity s)
    (effect : M.Effect b.listing.capacity (b'.listing.get b.listing.capacity) s e s')
    (leads : M.Leads b' b.listing.capacity e n) :
    LoadFollows M b store load enter start (⟨b.listing.capacity, s⟩ :: passed) n s' := by
  obtain ⟨passed', hsame, hother, -⟩ := follows
  obtain ⟨-, -, hnextCopy, -⟩ := c.realAfter?_run
  rw [hcopy] at effect
  obtain ⟨v, stack, hstack, rfl, rfl⟩ := effect.of_dup
  have hn : n = store := by
    cases leads with
    | below _ next => exact Option.some.inj (next.symm.trans hnextCopy)
  have hbefore := hother store (c.linked.2.2.2 store (by simp)) c.distinct.1 shift_store
  obtain ⟨_, slots, world⟩ := s
  cases hstack
  refine ⟨passed', ?_, fun a ha hne hshift => ?_, fun _ => ⟨v, stack, rfl, hbefore⟩⟩
  · rw [shown_cons_of_hidden (by simp [isReload]), hsame]
  · exact absurd (hshift.trans hn) (c.shift_ne_store a)

/-- At the store, the body with the load stores the value and loads it back. -/
theorem loadFollows_store (c : CopiesLock b.listing b'.listing front mid back store load enter rest)
    (hstore : b.listing.get store = .slot .astore slot)
    (hload : b.listing.get load = .slot .aload slot)
    (follows : LoadFollows M b store load enter start passed store s)
    (effect : M.Effect store (b'.listing.get store) s e s') (leads : M.Leads b' store e n) :
    LoadFollows M b store load enter start (⟨store, s⟩ :: passed) n s' := by
  obtain ⟨passed', hsame, -, hatStore⟩ := follows
  obtain ⟨-, hstoreEnter, hloadEnter, -⟩ := c.distinct
  obtain ⟨-, -, -, hnextStore⟩ := c.realAfter?_run
  obtain ⟨-, -, -, hlinked⟩ := c.linked
  rw [c.get_linked (hlinked store (by simp)), hstore] at effect
  obtain ⟨v', stack', hstack', rfl, rfl⟩ := effect.of_store (by decide)
  obtain ⟨v, stack, hstack, hbefore⟩ := hatStore rfl
  cases hstack'.symm.trans hstack
  have hn : n = enter := by
    cases leads with
    | below _ next => exact Option.some.inj (next.symm.trans hnextStore)
  refine ⟨⟨load, ⟨stack, Function.update s.slots slot (some v'), s.world⟩⟩ ::
    ⟨store, ⟨v' :: stack, s.slots, s.world⟩⟩ :: passed', ?_, fun a ha hne hshift => ?_,
    fun heq => absurd (hn.symm.trans heq) (Ne.symm hstoreEnter)⟩
  · rw [shown_cons_of_hidden (by simp [isReload]), shown_cons_of_hidden (by simp [isReload]),
      shown_cons_of_hidden (by simp [isReload]), hsame]
  · have hshiftEnter : shift b.listing store load enter enter = enter :=
      shift_of_ne (Ne.symm hstoreEnter) (Ne.symm hloadEnter)
    have ha' : a = enter := c.shift_inj ha (hlinked enter (by simp)) hne (Ne.symm hloadEnter)
      (hshift.trans (hn.trans hshiftEnter.symm))
    rw [ha']
    exact c.execution_load hstore hload hbefore

/-- Any other instruction does the same on both sides, and leads to instructions that correspond. -/
theorem loadFollows_other (c : CopiesLock b.listing b'.listing front mid back store load enter rest)
    (hb : b.LabelsLinked) (hguards : b'.guards = b.guards)
    (hentry : ∀ t ∈ b.entries, b.listing.nextReal? t ≠ some load)
    (hcopy : h ≠ b.listing.capacity) (hstore : h ≠ store) (hreal : h ∈ b'.listing.reals)
    (follows : LoadFollows M b store load enter start passed h s)
    (effect : M.Effect h (b'.listing.get h) s e s') (leads : M.Leads b' h e n) :
    LoadFollows M b store load enter start (⟨h, s⟩ :: passed) n s' := by
  obtain ⟨passed', hsame, hother, -⟩ := follows
  obtain ⟨hmem, hreal⟩ := List.mem_filter.1 hreal
  have hload : h ≠ load := fun heq => c.load_gone (heq ▸ hmem)
  have hm : h ∈ b.listing.handles := (c.mem_handles_iff hload hcopy).1 hmem
  rw [Listing.isReal, c.get_linked hm] at hreal
  obtain ⟨a, hleads, hshift⟩ := c.exists_leads hb hguards hm hstore hload leads
  have hne := c.ne_load_of_leads hentry (List.mem_filter.2 ⟨hm, hreal⟩) hstore hleads
  have hbefore := hother h hm hload (shift_of_ne hstore hload)
  have hnext := hbefore.step (c.get_linked hm ▸ effect) hleads
  have hshown := c.isReload_of_mem hm hstore hload
  refine ⟨⟨h, s⟩ :: passed', ?_, fun a' ha' hne' hshift' => ?_,
    fun heq => absurd (hshift.trans heq) (c.shift_ne_store a)⟩
  · rw [shown_cons_of_not_hidden hshown, shown_cons_of_not_hidden hshown, hsame]
  · have ha := List.mem_of_mem_filter hleads.mem_reals
    rw [c.shift_inj ha' ha hne' hne (hshift'.trans hshift.symm)]
    exact hnext

/-- The body with the load does what the body with the copy does. -/
theorem shows_load (c : CopiesLock b.listing b'.listing front mid back store load enter rest)
    (hb : b.LabelsLinked) (hguards : b'.guards = b.guards)
    (hstore : b.listing.get store = .slot .astore slot) (hload : b.listing.get load = .slot .aload slot)
    (hcopy : b'.listing.get b.listing.capacity = .plain .dup)
    (hentry : ∀ t ∈ b.entries, b.listing.nextReal? t ≠ some load) :
    M.Shows (isReload b.listing store load) b' b := by
  have hfollows : ∀ (start : Frame V W) passed h s, M.Execution b' start passed h s →
      LoadFollows M b store load enter start passed h s := by
    intro start passed h s execution
    induction execution with
    | @entry h first =>
      rw [c.head?_reals] at first
      obtain ⟨a, hfirst, rfl⟩ := Option.map_eq_some_iff.1 first
      have ha : a ∈ b.listing.handles := List.mem_of_mem_filter (List.mem_of_mem_head? hfirst)
      have haload : a ≠ load := fun heq => c.head?_reals_ne (heq ▸ hfirst)
      refine ⟨[], rfl, fun a' ha' hne hshift => ?_, fun heq => absurd heq (c.shift_ne_store a)⟩
      rw [c.shift_inj ha' ha hne haload hshift]
      exact .entry hfirst
    | @step passed h n s s' e before effect leads ih =>
      by_cases hatCopy : h = b.listing.capacity
      · subst hatCopy
        exact c.loadFollows_copy hcopy ih effect leads
      · by_cases hatStore : h = store
        · subst hatStore
          exact c.loadFollows_store hstore hload ih effect leads
        · exact c.loadFollows_other hb hguards hentry hatCopy hatStore before.mem_reals ih effect
            leads
  intro start passed h s hshown execution
  obtain ⟨passed', hsame, hother, -⟩ := hfollows start passed h s execution
  simp only [isReload, Bool.or_eq_false_iff, beq_eq_false_iff_ne] at hshown
  have hm : h ∈ b.listing.handles :=
    (c.mem_handles_iff hshown.1.2 hshown.2).1 (List.mem_of_mem_filter execution.mem_reals)
  exact ⟨passed', hother h hm hshown.1.2 (shift_of_ne hshown.1.1 hshown.1.2), hsame⟩

end

end CopiesLock

/-! ### All loads of locks -/

/-- The runs whose loads are replaced. -/
def reloads (b : Body) : List (List Handle) :=
  (loadBeforeEnter.runs b.listing).filter (loadsBack b.listing)

/-- The instructions of these runs that are replaced, and those that replace them. -/
def isReplaced (b : Body) (h : Handle) : Bool :=
  decide (b.listing.capacity ≤ h) || (reloads b).any fun run => (run.take 2).contains h

/-- No label that control can be transferred to leads to a load that is replaced. -/
def ReloadsUnentered (b : Body) : Prop :=
  ∀ run ∈ reloads b, ∀ t ∈ b.entries, b.listing.nextReal? t ≠ run[1]?

/-- What is replaced stores a value to a slot and loads it from there. -/
theorem exists_of_mem_reloads {b : Body} {run : List Handle} (hrun : run ∈ reloads b) :
    ∃ store load enter slot, run = [store, load, enter] ∧
      b.listing.get store = .slot .astore slot ∧ b.listing.get load = .slot .aload slot := by
  obtain ⟨hrun, hback⟩ := List.mem_filter.1 hrun
  obtain ⟨store, load, enter, rfl, -, hstore, hload, -⟩ := mem_runs_loadBeforeEnter_iff.1 hrun
  rw [loadsBack, Bool.and_eq_true, beq_iff_eq, Option.isSome_iff_exists] at hback
  obtain ⟨⟨slot, hslot⟩, hsame⟩ := hback
  refine ⟨store, load, enter, slot, rfl, ?_, ?_⟩
  -- The instruction has the opcode of the place and stores to a slot, so it is the one for slots.
  · cases hget : b.listing.get store with
    | slot op n =>
      rw [hget] at hstore hslot
      cases hstore
      cases hslot
      rfl
    | increment n amount =>
      rw [hget] at hstore
      cases hstore
    | _ =>
      rw [hget] at hslot
      cases hslot
  · rw [hslot] at hsame
    cases hget : b.listing.get load with
    | slot op n =>
      rw [hget] at hload hsame
      cases hload
      cases hsame
      rfl
    | increment n amount =>
      rw [hget] at hload
      cases hload
    | _ =>
      rw [hget] at hsame
      cases hsame

/-- The labels of a body stay linked when a lock is copied. -/
theorem labelsLinked_duplicateLock {b : Body} (hb : b.LabelsLinked) {store load enter : Handle}
    {front mid back rest : List Handle}
    (c : CopiesLock b.listing (duplicateLock b.listing [store, load, enter]) front mid back store
      load enter rest)
    (copies : Copies b.listing (duplicateLock b.listing [store, load, enter])) :
    let b' := { b with listing := duplicateLock b.listing [store, load, enter] }
    b'.LabelsLinked ∧ ∀ t ∈ b'.entries, t ∈ b.entries := by
  intro b'
  have hcopy : b'.listing.get b.listing.capacity = .plain .dup :=
    Flow.get_create b.listing (.plain .dup)
  -- The copy has no targets, so every target is one of an instruction that was there.
  have htargets : ∀ h ∈ b'.listing.handles, ∀ t ∈ (b'.listing.get h).targets,
      h ∈ b.listing.handles ∧ t ∈ (b.listing.get h).targets := by
    intro h hh t ht
    have hne : h ≠ b.listing.capacity := by
      rintro rfl
      rw [hcopy] at ht
      cases ht
    have hload : h ≠ load := by
      rintro rfl
      exact c.load_gone hh
    have hm : h ∈ b.listing.handles := (c.mem_handles_iff hload hne).1 hh
    rw [c.get_linked hm] at ht
    exact ⟨hm, ht⟩
  have hstay : ∀ t, t ∈ b.listing.handles ∧ (b.listing.get t).isLabel = true →
      t ∈ b'.listing.handles ∧ (b'.listing.get t).isLabel = true := fun t ht =>
    Listing.mem_labels_iff.1 (copies.labels t (Listing.mem_labels_iff.2 ht))
  refine ⟨⟨fun h hh t ht => ?_, fun g hg t ht => hstay t (hb.guards g hg t ht)⟩, fun t ht => ?_⟩
  · obtain ⟨hm, ht⟩ := htargets h hh t ht
    exact hstay t (hb.targets h hm t ht)
  · rcases List.mem_append.1 ht with ht | ht
    · exact List.mem_append_left _ ht
    · obtain ⟨h, hh, ht⟩ := List.mem_flatMap.1 ht
      exact List.mem_append_right _ (List.mem_flatMap.2 ⟨h, htargets h hh t ht⟩)

/-- A label that control is transferred to leads to no other load after a lock has been copied if it
led to none of the two before. -/
theorem nextReal?_duplicateLock_ne {b : Body} {front mid back rest : List Handle}
    {store load enter t other : Handle} (hb : b.LabelsLinked)
    (c : CopiesLock b.listing (duplicateLock b.listing [store, load, enter]) front mid back store
      load enter rest) (ht : t ∈ b.entries) (hload : b.listing.nextReal? t ≠ some load)
    (hother : b.listing.nextReal? t ≠ some other) (hlinked : other ∈ b.listing.handles) :
    (duplicateLock b.listing [store, load, enter]).nextReal? t ≠ some other := by
  intro heq
  obtain ⟨hm, hlabel⟩ : t ∈ b.listing.handles ∧ (b.listing.get t).isLabel = true := by
    rcases List.mem_append.1 ht with ht | ht
    · obtain ⟨g, hg, rfl⟩ := List.mem_map.1 ht
      exact hb.guards g hg _ (by simp [Guard.labels])
    · obtain ⟨h, hh, ht⟩ := List.mem_flatMap.1 ht
      exact hb.targets h hh t ht
  rw [c.nextReal?_eq hm hlabel] at heq
  obtain ⟨a, ha, hshift⟩ := Option.map_eq_some_iff.1 heq
  have haload : a ≠ load := fun heq => hload (heq ▸ ha)
  have hastore : a ≠ store := by
    rintro rfl
    rw [CopiesLock.shift_store] at hshift
    exact absurd (c.wf.lt_capacity other hlinked) (hshift ▸ Nat.lt_irrefl _)
  rw [CopiesLock.shift_of_ne hastore haload] at hshift
  exact hother (hshift ▸ ha)

section

variable {V W : Type}

open Machine

/-- A body whose locks are copied one after the other runs as before. -/
theorem shows_foldl (M : Machine V W) {hidden : Handle → Bool} {runs : List (List Handle)} {b : Body}
    (wf : b.listing.WellFormed) (hb : b.LabelsLinked) (hruns : ∀ run ∈ runs, run ∈ reloads b)
    (apart : runs.Pairwise List.Disjoint)
    (hentry : ∀ run ∈ runs, ∀ t ∈ b.entries, b.listing.nextReal? t ≠ run[1]?)
    (hold : ∀ run ∈ runs, ∀ h ∈ run.take 2, hidden h = true)
    (hnew : ∀ h, b.listing.capacity ≤ h → hidden h = true) :
    let b' := { b with listing := runs.foldl duplicateLock b.listing }
    M.Shows hidden b b' ∧ M.Shows hidden b' b := by
  induction runs generalizing b with
  | nil => exact ⟨.refl M hidden b, .refl M hidden b⟩
  | cons run runs ih =>
    obtain ⟨hfirst, hlater⟩ := List.pairwise_cons.1 apart
    obtain ⟨store, load, enter, slot, rfl, hstore, hload⟩ :=
      exists_of_mem_reloads (hruns run List.mem_cons_self)
    have hrun := List.mem_of_mem_filter (hruns _ List.mem_cons_self)
    obtain ⟨front, mid, back, rest, c⟩ := copiesLock_duplicateLock wf hrun
    obtain ⟨copies, -, hstay⟩ := copies_duplicateLock wf hrun
    let mid' : Body := { b with listing := duplicateLock b.listing [store, load, enter] }
    have c : CopiesLock b.listing mid'.listing front mid back store load enter rest := c
    have hcopy : mid'.listing.get b.listing.capacity = .plain .dup :=
      Flow.get_create b.listing (.plain .dup)
    have hentered := hentry _ List.mem_cons_self
    have hhide : ∀ h, CopiesLock.isReload b.listing store load h = true → hidden h = true := by
      intro h hh
      simp only [CopiesLock.isReload, Bool.or_eq_true, beq_iff_eq] at hh
      rcases hh with (rfl | rfl) | rfl
      · exact hold _ List.mem_cons_self h (by simp)
      · exact hold _ List.mem_cons_self h (by simp)
      · exact hnew _ (Nat.le_refl _)
    have hto := (c.shows_copy (M := M) hb rfl hstore hload hcopy hentered).hide hhide
    have hfrom := (c.shows_load (M := M) hb rfl hstore hload hcopy hentered).hide hhide
    obtain ⟨hb', hentries⟩ := labelsLinked_duplicateLock hb c copies
    -- the other runs are runs of the body in between, and no label leads to their loads there
    have hruns' : ∀ run' ∈ runs, run' ∈ reloads mid' := by
      intro run' hrun'
      obtain ⟨hmem, hback⟩ := List.mem_filter.1 (hruns run' (List.mem_cons_of_mem _ hrun'))
      refine List.mem_filter.2 ⟨hstay run' hmem (hfirst run' hrun').symm, ?_⟩
      obtain ⟨store', load', enter', rfl, hstands, -⟩ := mem_runs_loadBeforeEnter_iff.1 hmem
      rwa [loadsBack_congr fun a ha => c.get_linked (List.mem_of_mem_filter (hstands.subset ha))]
    have hentry' : ∀ run' ∈ runs, ∀ t ∈ mid'.entries, mid'.listing.nextReal? t ≠ run'[1]? := by
      intro run' hrun' t ht heq
      obtain ⟨store', load', enter', -, rfl, -⟩ :=
        exists_of_mem_reloads (hruns run' (List.mem_cons_of_mem _ hrun'))
      have hlinked : load' ∈ b.listing.handles := (Pattern.mem_run (List.mem_of_mem_filter
        (hruns _ (List.mem_cons_of_mem _ hrun'))) (List.mem_cons_of_mem _ List.mem_cons_self)).1
      have ht := hentries t ht
      exact nextReal?_duplicateLock_ne hb c ht (hentered t ht)
        (hentry _ (List.mem_cons_of_mem _ hrun') t ht) hlinked heq
    obtain ⟨hto', hfrom'⟩ := ih copies.wf hb' hruns' hlater hentry'
      (fun run' hrun' => hold run' (List.mem_cons_of_mem _ hrun'))
      fun h hh => hnew h (copies.capacity.trans hh)
    exact ⟨hto.trans hto', hfrom'.trans hfrom⟩

/-- A body whose locks are copied runs as before, if no label that control can be transferred to leads
to a load of a lock that goes: on every machine control comes to the same instructions with the same
frames, past the same instructions with the same frames, apart from the stores and loads of locks
and the copies. All other instructions are the same. -/
theorem shows_replaceLoads (M : Machine V W) {b : Body} (wf : b.listing.WellFormed)
    (hb : b.LabelsLinked) (hentry : ReloadsUnentered b) :
    let b' := (replaceLoads loadBeforeEnter b).2
    M.Shows (isReplaced b) b b' ∧ M.Shows (isReplaced b) b' b ∧
      ∀ h, isReplaced b h = false → b'.listing.get h = b.listing.get h := by
  intro b'
  have hrun : ∀ run ∈ reloads b, ∀ h ∈ run.take 2, isReplaced b h = true := by
    intro run hrun h hh
    rw [isReplaced, Bool.or_eq_true, List.any_eq_true]
    exact .inr ⟨run, hrun, by simpa using hh⟩
  have hnew : ∀ h, b.listing.capacity ≤ h → isReplaced b h = true := by
    intro h hh
    simp [isReplaced, hh]
  obtain ⟨hto, hfrom⟩ := shows_foldl M wf hb (fun _ h => h)
    ((disjoint_loadBeforeEnter wf).filter _) hentry hrun hnew
  have hsame : M.Shows (isReplaced b) b'
      { b with listing := (reloads b).foldl duplicateLock b.listing } := .of_eq rfl rfl
  refine ⟨hto.trans (.of_eq rfl rfl), hsame.trans hfrom, fun h hh => ?_⟩
  refine (copies_replaceLoads wf).1.get h ?_
  by_contra hge
  rw [hnew h (Nat.le_of_not_lt hge)] at hh
  cases hh

end

/-- A machine of numbers on which a lock is popped when it is taken or released. -/
def lockMachine : Machine Nat Unit where
  isZero v := v == 0
  address h := h
  add v amount := (v + amount.toInt).toNat
  Acts i stack _ t? stack' _ :=
    (i = .plain .monitorenter ∨ i = .plain .monitorexit) ∧ t? = none ∧ ∃ v, stack = v :: stack'
  Raises _ _ _ _ _ := False
  Catches _ _ := True

/-- Two locks and a number in the first slots. -/
def lockFrame : Frame Nat Unit where
  stack := []
  slots n := if n = 0 then some 7 else if n = 1 then some 8 else if n = 2 then some 1 else none
  world := ()

/-- A body that takes and releases the lock in its first slot, also when it is left by an exception.
-/
def guardedLock : Body where
  listing :=
    { nodes := #[⟨.slot .aload 0, none⟩, ⟨.slot .astore 1, none⟩, ⟨.slot .aload 1, none⟩,
        ⟨.plain .monitorenter, none⟩, ⟨.label, none⟩, ⟨.slot .aload 1, none⟩,
        ⟨.plain .monitorexit, none⟩, ⟨.label, none⟩, ⟨.plain .returnVoid, none⟩, ⟨.label, none⟩,
        ⟨.slot .aload 1, none⟩, ⟨.plain .monitorexit, none⟩, ⟨.plain .athrow, none⟩]
      order := #[0, 1, 2, 3, 4, 5, 6, 7, 8, 9, 10, 11, 12] }
  guards := [⟨4, 7, 9, none⟩]
  maxStack := 1
  maxLocals := 2

/-- The body reloads its lock once. -/
theorem reloads_guardedLock : reloads guardedLock = [[1, 2, 3]] := by
  rw [reloads, runs_loadBeforeEnter]
  decide +kernel

/-- In the body no label leads to the load between the store and the lock, so its executions are those of
the body with a copy. -/
theorem shows_replaceLoads_guardedLock :
    guardedLock.listing.WellFormed ∧ guardedLock.LabelsLinked ∧ ReloadsUnentered guardedLock ∧
    let b' := (replaceLoads loadBeforeEnter guardedLock).2
    lockMachine.Shows (isReplaced guardedLock) guardedLock b' ∧
      lockMachine.Shows (isReplaced guardedLock) b' guardedLock ∧
      ∀ h, isReplaced guardedLock h = false → b'.listing.get h = guardedLock.listing.get h := by
  have wf : guardedLock.listing.WellFormed := ⟨by decide, by decide⟩
  have hb : guardedLock.LabelsLinked := ⟨by decide, by decide⟩
  have hentry : ReloadsUnentered guardedLock := by
    rw [ReloadsUnentered, reloads_guardedLock]
    decide
  exact ⟨wf, hb, hentry, shows_replaceLoads lockMachine wf hb hentry⟩

/-! ### A load that control jumps to -/

/-- A body that takes one of two locks, which it chooses by a number. -/
def chosenLock : Body where
  listing :=
    { nodes := #[⟨.slot .aload 0, none⟩, ⟨.slot .astore 3, none⟩, ⟨.slot ⟨21⟩ 2, none⟩,
        ⟨.jump .ifne 6, none⟩, ⟨.slot .aload 1, none⟩, ⟨.slot .astore 3, none⟩, ⟨.label, none⟩,
        ⟨.slot .aload 3, none⟩, ⟨.plain .monitorenter, none⟩, ⟨.slot .aload 3, none⟩,
        ⟨.plain .monitorexit, none⟩, ⟨.plain .returnVoid, none⟩]
      order := #[0, 1, 2, 3, 4, 5, 6, 7, 8, 9, 10, 11] }
  maxStack := 1
  maxLocals := 4

/-- The body when the second lock is copied. -/
def copiedLock : Body :=
  { chosenLock with
    listing :=
      { nodes := chosenLock.listing.nodes.push ⟨.plain .dup, none⟩
        order := #[0, 1, 2, 3, 4, 12, 5, 6, 8, 9, 10, 11] }
    maxStack := 2 }

/-- The body reloads the lock that was chosen. -/
theorem reloads_chosenLock : reloads chosenLock = [[5, 7, 8]] := by
  rw [reloads, runs_loadBeforeEnter]
  decide +kernel

/-- The reload of the body is replaced. -/
theorem replaceLoads_chosenLock :
    replaceLoads loadBeforeEnter chosenLock = (1, copiedLock) := by
  have hresult : replaceLoads loadBeforeEnter chosenLock =
      ((reloads chosenLock).length, { chosenLock with
        listing := (reloads chosenLock).foldl duplicateLock chosenLock.listing
        maxStack := if (reloads chosenLock).isEmpty || chosenLock.maxStack == 65535 then
          chosenLock.maxStack else chosenLock.maxStack + 1 }) := rfl
  have hlisting : duplicateLock chosenLock.listing [5, 7, 8] = copiedLock.listing := by cbv
  rw [hresult, reloads_chosenLock, List.foldl_cons, List.foldl_nil, hlisting]
  rfl

/-- When control jumps to the load, the lock that is taken is on the stack. -/
theorem execution_chosenLock :
    ∃ passed slots, lockMachine.Execution chosenLock lockFrame passed 8 ⟨[7], slots, ()⟩ := by
  have hentered : lockMachine.Execution chosenLock lockFrame [] 0 ⟨[], lockFrame.slots, ()⟩ :=
    .entry rfl
  have hloaded : lockMachine.Execution chosenLock lockFrame _ 1 ⟨[7], lockFrame.slots, ()⟩ :=
    hentered.step (.load (by decide) rfl) (.below rfl rfl)
  have hstored : lockMachine.Execution chosenLock lockFrame _ 2
      ⟨[], Function.update lockFrame.slots 3 (some 7), ()⟩ :=
    hloaded.step (.store (by decide)) (.below rfl rfl)
  have hnumber : lockMachine.Execution chosenLock lockFrame _ 3
      ⟨[1], Function.update lockFrame.slots 3 (some 7), ()⟩ :=
    hstored.step (.load (by decide) rfl) (.below rfl rfl)
  have hchosen : lockMachine.Execution chosenLock lockFrame _ 7
      ⟨[], Function.update lockFrame.slots 3 (some 7), ()⟩ :=
    hnumber.step (e := .target 6) (.branch (.inr rfl))
      (.target (List.mem_singleton.2 rfl) (by decide) rfl)
  exact ⟨_, _, hchosen.step (.load (by decide) rfl) (.below rfl rfl)⟩

/-- In the body with the copy the stack is empty there. -/
theorem stack_copiedLock {passed : List (Machine.Visit Nat Unit)} {s : Frame Nat Unit}
    (execution : lockMachine.Execution copiedLock lockFrame passed 8 s) : s.stack = [] := by
  have hall : ∀ passed h s, lockMachine.Execution copiedLock lockFrame passed h s →
      s.slots 2 = some 1 ∧ ((h = 0 ∨ h = 2 ∨ h = 8) ∧ s.stack = [] ∨
        h = 1 ∧ (∃ v, s.stack = [v]) ∨ h = 3 ∧ s.stack = [1]) := by
    intro passed h s execution
    induction execution with
    | entry first =>
      cases first
      exact ⟨rfl, .inl ⟨.inl rfl, rfl⟩⟩
    | @step passed h n s s' e _ effect leads ih =>
      obtain ⟨hnumber, ⟨rfl | rfl | rfl, hstack⟩ | ⟨rfl, v, hstack⟩ | ⟨rfl, hstack⟩⟩ := ih
      · obtain ⟨v, -, rfl, rfl⟩ := effect.of_load (by decide)
        cases leads with
        | below _ next =>
          cases next
          exact ⟨hnumber, .inr (.inl ⟨rfl, v, by rw [hstack]⟩)⟩
      · obtain ⟨v, hv, rfl, rfl⟩ := effect.of_load (by decide)
        cases hv.symm.trans hnumber
        cases leads with
        | below _ next =>
          cases next
          exact ⟨hnumber, .inr (.inr ⟨rfl, by rw [hstack]⟩)⟩
      · -- no lock is on the stack that could be taken
        cases effect with
        | act _ acts =>
          obtain ⟨-, -, v, hlock⟩ := acts
          rw [hlock] at hstack
          cases hstack
        | raise _ raises => exact raises.elim
      · obtain ⟨v, stack, hstack', rfl, rfl⟩ := effect.of_store (by decide)
        cases hstack.symm.trans hstack'
        cases leads with
        | below _ next =>
          cases next
          have hother : Function.update s.slots 3 (some v) 2 = s.slots 2 :=
            Function.update_of_ne (by decide) _ _
          exact ⟨hother.trans hnumber, .inl ⟨.inr (.inl rfl), rfl⟩⟩
      · obtain ⟨v, stack, hstack', rfl, rfl⟩ := effect.of_branch (.inr rfl)
        cases hstack.symm.trans hstack'
        cases leads with
        | target _ _ next =>
          cases next
          exact ⟨hnumber, .inl ⟨.inr (.inr rfl), rfl⟩⟩
  obtain ⟨-, ⟨-, hstack⟩ | ⟨hne, -⟩ | ⟨hne, -⟩⟩ := hall passed 8 s execution
  · exact hstack
  · cases hne
  · cases hne

/-- A label between the store and the load: where control jumps to it, the lock was to be loaded. The
body with the copy takes a lock there that is not on the stack. -/
theorem replaceLoads_loses_lock :
    chosenLock.listing.WellFormed ∧ chosenLock.LabelsLinked ∧
    (∃ passed s, lockMachine.Execution chosenLock lockFrame passed 8 s ∧ s.stack = [7]) ∧
    (∀ passed s, lockMachine.Execution (replaceLoads loadBeforeEnter chosenLock).2 lockFrame passed
      8 s → s.stack = []) ∧
    ¬lockMachine.Shows (isReplaced chosenLock) chosenLock
      (replaceLoads loadBeforeEnter chosenLock).2 := by
  rw [replaceLoads_chosenLock]
  obtain ⟨passed, slots, execution⟩ := execution_chosenLock
  refine ⟨⟨by decide, by decide⟩, ⟨by decide, by decide⟩, ⟨passed, _, execution, rfl⟩,
    fun _ _ => stack_copiedLock, fun shows => ?_⟩
  have hshown : isReplaced chosenLock 8 = false := by
    rw [isReplaced, reloads_chosenLock]
    decide
  obtain ⟨passed', execution', -⟩ := shows _ _ _ _ hshown execution
  cases stack_copiedLock execution'

end Idiom

end Unscramble
