import Unscramble.Proofs.Chain.Edits
import Unscramble.Proofs.Flow.Placement

/-! # A chain is a sequence

A chain that was made by its edits holds one sequence of handles, without repetitions: the walks in
both directions pass it, and everything else that can be asked of the chain is read off it. An edit
of the chain is the edit of that sequence, and but for a replacement every handle keeps its
instruction.

Main definitions: `Chain.Made`, `Chain.Holds`, `Chain.Becomes`, `Chain.Follows`. Main statement:
`Chain.Made.sequence`. -/

namespace Unscramble.Chain

variable {c c' : Chain} {l l' : Listing} {s : List Handle}

/-! ### Chains and what they hold -/

/-- A chain that edits have made out of one without nodes. A node is put in only if it is not
linked, and only beside one that is. -/
inductive Made : Chain → Prop
  | empty : Made {}
  | create {c : Chain} (hc : Made c) (insn : Instruction Label) : Made (c.create insn).2
  | push {c : Chain} (hc : Made c) (insn : Instruction Label) : Made (c.push insn).2
  | append {c : Chain} (hc : Made c) {h : Handle} (hlt : h < c.capacity)
    (hnew : c.contains h = false) : Made (c.append h)
  | insertBefore {c : Chain} (hc : Made c) {a h : Handle} (ha : c.contains a = true)
    (hlt : h < c.capacity) (hnew : c.contains h = false) : Made (c.insertBefore a h)
  | insertAfter {c : Chain} (hc : Made c) {a h : Handle} (ha : c.contains a = true)
    (hlt : h < c.capacity) (hnew : c.contains h = false) : Made (c.insertAfter a h)
  | remove {c : Chain} (hc : Made c) (h : Handle) : Made (c.remove h)
  | replace {c : Chain} (hc : Made c) (h : Handle) (insn : Instruction Label) :
    Made (c.replace h insn)
  | relink {c : Chain} (hc : Made c) {order : List Handle} (hn : order.Nodup)
    (hlt : ∀ h ∈ order, h < c.capacity) : Made (c.relink order)
  | removeIf {c c' : Chain} (hc : Made c) {σ : Type}
    {p : Handle → Instruction Label → StateM σ Bool} {state state' : σ} {removed : Nat}
    (hr : c.removeIf p state = some ((removed, c'), state')) : Made c'

/-- A chain reads as one sequence of handles, whichever way it is asked. -/
structure Holds (c : Chain) (s : List Handle) : Prop where
  /-- No handle is linked twice. -/
  nodup : s.Nodup
  /-- Forward, the links lead along the sequence. -/
  handles : c.handles = some s
  /-- Back, the links lead along the reversed sequence. -/
  backward : c.backward = some s.reverse
  /-- The length is that of the sequence. -/
  length : c.length = s.length
  /-- The linked handles are those of the sequence. -/
  contains : ∀ h, c.contains h = true ↔ h ∈ s
  /-- Nothing follows a handle that is not linked. -/
  next?_eq_none : ∀ h ∉ s, c.next? h = none
  /-- Nothing precedes a handle that is not linked. -/
  prev?_eq_none : ∀ h ∉ s, c.prev? h = none
  /-- The table of positions tells the index in the sequence. -/
  positions : ∃ table, c.positions = some table ∧ table.size = c.capacity ∧
    ∀ h i, Listing.positionIn table h = some i ↔ s[i]? = some h
  /-- The next real instruction is the first one from a handle on. -/
  nextReal? : ∀ front h back, s = front ++ h :: back →
    c.nextReal? h = some ((h :: back).find? fun a => (c.get a).isReal)
  /-- The real instruction before a handle is the last one in front of it. -/
  prevReal? : ∀ front h back, s = front ++ h :: back →
    c.prevReal? h = some (front.reverse.find? fun a => (c.get a).isReal)

/-- A chain holds a sequence, and every handle that another chain has names the same instruction in
it. -/
structure Becomes (c c' : Chain) (s : List Handle) : Prop where
  /-- The sequence of the new chain. -/
  holds : c'.Holds s
  /-- No node is lost. -/
  capacity : c.capacity ≤ c'.capacity
  /-- Nodes keep their instructions. -/
  get : ∀ h < c.capacity, c'.get h = c.get h

/-- Every edit of a chain that holds a sequence is the edit of that sequence. -/
structure Follows (c : Chain) (s : List Handle) : Prop where
  /-- A node is made under the next handle and stays out of the sequence. -/
  create : ∀ insn, (c.create insn).1 = c.capacity ∧
    (c.create insn).2.get c.capacity = insn ∧ c.Becomes (c.create insn).2 s
  /-- A node is made under the next handle and comes last. -/
  push : ∀ insn, (c.push insn).1 = c.capacity ∧
    (c.push insn).2.get c.capacity = insn ∧ c.Becomes (c.push insn).2 (s ++ [c.capacity])
  /-- An unlinked node comes last. -/
  append : ∀ h < c.capacity, h ∉ s → c.Becomes (c.append h) (s ++ [h])
  /-- An unlinked node comes right before a linked one. -/
  insertBefore : ∀ front a back, s = front ++ a :: back → ∀ h < c.capacity, h ∉ s →
    c.Becomes (c.insertBefore a h) (front ++ h :: a :: back)
  /-- An unlinked node comes right after a linked one. -/
  insertAfter : ∀ front a back, s = front ++ a :: back → ∀ h < c.capacity, h ∉ s →
    c.Becomes (c.insertAfter a h) (front ++ a :: h :: back)
  /-- A node leaves the sequence. -/
  remove : ∀ h, c.Becomes (c.remove h) (s.erase h)
  /-- Nothing happens to a node that is not linked. -/
  remove_eq_self : ∀ h ∉ s, c.remove h = c
  /-- A replacement changes one instruction and no link. -/
  replace : ∀ h < c.capacity, ∀ insn, (c.replace h insn).Holds s ∧
    ∀ a, (c.replace h insn).get a = if a = h then insn else c.get a
  /-- A new order is the sequence. -/
  relink : ∀ order : List Handle, order.Nodup → (∀ h ∈ order, h < c.capacity) →
    c.Becomes (c.relink order) order
  /-- A removal asks the test about every handle of the sequence once, in order; what the test
  takes out is counted, and the rest is the sequence. -/
  removeIf : ∀ {σ : Type} (p : Handle → Instruction Label → StateM σ Bool) (state : σ) kept state',
    sift (fun h => p h (c.get h)) s state = (kept, state') →
      ∃ c', c.removeIf p state = some ((s.length - kept.length, c'), state') ∧ c.Becomes c' kept

/-! ### Chains that mirror a listing -/

/-- Replacing an instruction changes that one only. -/
theorem get_replace {h : Handle} (hlt : h < c.capacity)
    (insn : Instruction Label) (a : Handle) :
    (c.replace h insn).get a = if a = h then insn else c.get a := by
  unfold Chain.get Chain.replace
  by_cases ha : a = h
  · subst ha
    rw [if_pos rfl]
    refine elim_onNode_self hlt ?_
    exact fun node => rfl
  · rw [if_neg ha]
    exact elim_onNode_of_ne (Ne.symm ha) c _ Instruction.label

namespace Mirrors

/-- What a chain contains is in the listing that it mirrors. -/
theorem mem_handles (m : c.Mirrors l) {h : Handle} (hh : c.contains h = true) :
    h ∈ l.handles := by
  rwa [m.contains, Listing.contains_eq_true_iff] at hh

/-- What a chain does not contain is not in the listing. -/
theorem not_mem_handles (m : c.Mirrors l) {h : Handle} (hh : c.contains h = false) :
    h ∉ l.handles := by
  rwa [m.contains, ← Bool.not_eq_true, Listing.contains_eq_true_iff] at hh

/-- A chain holds the order of the listing that it mirrors. -/
theorem holds (m : c.Mirrors l) : c.Holds l.handles := by
  constructor
  case nodup => exact m.wellFormed.nodup
  case handles => exact m.handles
  case backward => exact m.backward
  case length => exact m.length
  case contains =>
    intro h
    rw [m.contains, Listing.contains_eq_true_iff]
  case next?_eq_none =>
    intro h hh
    rw [m.next?, Listing.next?_eq_follower, follower_eq_none hh]
  case prev?_eq_none =>
    intro h hh
    rw [m.prev?, Listing.prev?_eq_follower, follower_eq_none (by rwa [List.mem_reverse])]
  case positions =>
    refine ⟨l.positions, m.positions, ?_, fun h i => Listing.positionIn_positions m.wellFormed⟩
    unfold Listing.positions
    rw [size_foldl_set, Array.size_replicate, m.capacity]
  case nextReal? =>
    intro front h back hs
    rw [m.nextReal?, Listing.nextReal?, ← m.isReal_eq,
      ← Listing.eq_after_of_suffix m.wellFormed ⟨front, hs.symm⟩]
  case prevReal? =>
    intro front h back hs
    have hback : h ∉ back := by
      have hnodup := m.wellFormed.nodup
      rw [hs] at hnodup
      exact (not_mem_of_nodup_middle hnodup).2
    have hbefore : l.before h = front.reverse := by
      rw [Listing.before, hs, List.reverse_append, List.reverse_cons, List.append_assoc,
        List.dropWhile_append_of_pos, List.singleton_append, List.dropWhile_cons_of_neg (by simp)]
      · rfl
      · intro a ha
        simpa using fun heq : a = h => hback (heq ▸ List.mem_reverse.1 ha)
    rw [m.prevReal?, Listing.prevReal?, ← m.isReal_eq, hbefore]

/-- Chains that mirror a listing and an edited one. -/
theorem becomes (m : c.Mirrors l) (m' : c'.Mirrors l') (hs : l'.handles = s)
    (hkeeps : Flow.Keeps l l') : c.Becomes c' s := by
  constructor
  case holds => exact hs ▸ m'.holds
  case capacity =>
    rw [m.capacity, m'.capacity]
    exact hkeeps.capacity
  case get =>
    intro h hh
    rw [m.get, m'.get]
    exact hkeeps.same h (m.capacity ▸ hh)

/-- A listing with the same nodes keeps the instructions. -/
theorem becomes_of_nodes (m : c.Mirrors l) (m' : c'.Mirrors l') (hs : l'.handles = s)
    (hnodes : l'.nodes = l.nodes) : c.Becomes c' s := by
  refine m.becomes m' hs ⟨?_, fun h _ => ?_⟩
  · unfold Listing.capacity
    rw [hnodes]
  · unfold Listing.get
    rw [hnodes]

/-- The links of a chain follow the order of the listing that it mirrors. -/
theorem follows (m : c.Mirrors l) : c.Follows l.handles := by
  -- One case for each operation: what the chain becomes is what the listing it mirrors becomes.
  constructor
  case create =>
    intro insn
    refine ⟨rfl, ?_, m.becomes (m.create insn) rfl (Flow.keeps_create l insn)⟩
    rw [(m.create insn).get, m.capacity]
    exact Flow.get_create l insn
  case push =>
    intro insn
    refine ⟨rfl, ?_, m.becomes (m.push insn) ?_ ?_⟩
    · rw [(m.push insn).get, m.capacity]
      exact Flow.get_create l insn
    · rw [m.capacity]
      exact (l.create insn).2.handles_append l.capacity
    · have hkeeps := Flow.keeps_create l insn
      exact ⟨hkeeps.capacity, hkeeps.same⟩
  case append =>
    intro h hlt hnew
    exact m.becomes_of_nodes (m.append (m.capacity ▸ hlt) hnew) (l.handles_append h) rfl
  case insertBefore =>
    intro front a back hs h hlt hnew
    have ha : a ∉ front := (not_mem_of_nodup_middle (hs ▸ m.wellFormed.nodup)).1
    exact m.becomes_of_nodes (m.insertBefore hs (m.capacity ▸ hlt) hnew)
      (Listing.handles_insertBefore_of_split hs ha h) rfl
  case insertAfter =>
    intro front a back hs h hlt hnew
    have ha : a ∉ front := (not_mem_of_nodup_middle (hs ▸ m.wellFormed.nodup)).1
    exact m.becomes_of_nodes (m.insertAfter hs (m.capacity ▸ hlt) hnew)
      (Listing.handles_insertAfter_of_split hs ha h) rfl
  case remove =>
    intro h
    exact m.becomes_of_nodes (m.remove h) (l.handles_remove h) rfl
  case remove_eq_self =>
    intro h hh
    exact m.remove_of_not_mem hh
  case replace =>
    intro h hlt insn
    exact ⟨(m.replace h insn).holds, get_replace hlt insn⟩
  case relink =>
    intro order hn hlt
    exact m.becomes_of_nodes (m.relink hn (m.capacity ▸ hlt)) rfl rfl
  case removeIf =>
    intro σ p state kept state' hkept
    have hget : (fun h => p h (c.get h)) = fun h => p h (l.get h) := by
      funext h
      rw [m.get]
    obtain ⟨c', hc', m'⟩ := m.removeIf (hget ▸ hkept)
    exact ⟨c', hc', m.becomes_of_nodes m' rfl rfl⟩

end Mirrors

/-! ### Chains that were made -/

/-- Whatever edits have made mirrors the listing that these edits make. -/
theorem Made.mirrors (hc : Made c) : ∃ l, c.Mirrors l := by
  induction hc with
  | empty => exact ⟨{}, Mirrors.empty⟩
  | create _ insn ih =>
    obtain ⟨l, m⟩ := ih
    exact ⟨_, m.create insn⟩
  | push _ insn ih =>
    obtain ⟨l, m⟩ := ih
    exact ⟨_, m.push insn⟩
  | append _ hlt hnew ih =>
    obtain ⟨l, m⟩ := ih
    exact ⟨_, m.append (m.capacity ▸ hlt) (m.not_mem_handles hnew)⟩
  | insertBefore _ ha hlt hnew ih =>
    obtain ⟨l, m⟩ := ih
    obtain ⟨front, back, hs⟩ := List.append_of_mem (m.mem_handles ha)
    exact ⟨_, m.insertBefore hs (m.capacity ▸ hlt) (m.not_mem_handles hnew)⟩
  | insertAfter _ ha hlt hnew ih =>
    obtain ⟨l, m⟩ := ih
    obtain ⟨front, back, hs⟩ := List.append_of_mem (m.mem_handles ha)
    exact ⟨_, m.insertAfter hs (m.capacity ▸ hlt) (m.not_mem_handles hnew)⟩
  | remove _ h ih =>
    obtain ⟨l, m⟩ := ih
    exact ⟨_, m.remove h⟩
  | replace _ h insn ih =>
    obtain ⟨l, m⟩ := ih
    exact ⟨_, m.replace h insn⟩
  | relink _ hn hlt ih =>
    obtain ⟨l, m⟩ := ih
    exact ⟨_, m.relink hn (m.capacity ▸ hlt)⟩
  | @removeIf c c' _ σ p state state' removed hr ih =>
    obtain ⟨l, m⟩ := ih
    -- the removal gives one result, so it is the one that mirrors a listing
    rcases hkept : sift (fun h => p h (l.get h)) l.handles state with ⟨kept, state''⟩
    obtain ⟨c'', hc'', m'⟩ := m.removeIf hkept
    rw [hr] at hc''
    cases hc''
    exact ⟨_, m'⟩

/-- Whatever edits have made holds one sequence, and every further edit is the edit of that
sequence. -/
theorem Made.sequence (hc : Made c) : ∃ s, c.Holds s ∧ c.Follows s := by
  obtain ⟨l, m⟩ := hc.mirrors
  exact ⟨l.handles, m.holds, m.follows⟩

/-- Three nodes in a row, a fourth that is put in before the second, and the first taken out. -/
def fewEdits : Chain :=
  let c := ((({} : Chain).push (.line 0)).2.push (.line 1)).2.push .label
  ((c.2.create (.line 3)).2.insertBefore 1 3).remove 0

/-- The chain is made, and holds a sequence. -/
theorem sequence_fewEdits :
    Made fewEdits ∧ ∃ s, fewEdits.Holds s ∧ fewEdits.Follows s := by
  have hmade : Made fewEdits := by
    refine .remove (.insertBefore (.create (.push (.push (.push .empty _) _) _) _) ?_ ?_ ?_) 0
    · decide
    · decide
    · decide
  exact ⟨hmade, hmade.sequence⟩

end Unscramble.Chain
