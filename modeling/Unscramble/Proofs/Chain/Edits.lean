import Unscramble.Proofs.Chain.Links

/-! # Walks along a chain and edits of it

The walks along the links of a chain end, and they pass the handles of the listing that the chain
mirrors: forward in the order of the sequence, back in the reverse order. So every view of a chain is
that of the listing.

Every edit of a chain makes it mirror the listing that the same edit makes. Linking and taking out
are each a case of one rewiring between two parts of the sequence; a new order is built by linking
its handles one by one; and a removal keeps the part that it has passed apart from the part that it
has yet to see, where its next node already lies when the test is asked.

Main definitions: `Leads`, `sift`. Main statements: `Chain.Mirrors.handles`,
`Chain.Mirrors.backward`, `Chain.Mirrors.positions`, `Chain.Mirrors.nextReal?`,
`Chain.Mirrors.prevReal?`, `Chain.Mirrors.append`, `Chain.Mirrors.insertBefore`,
`Chain.Mirrors.insertAfter`, `Chain.Mirrors.remove`, `Chain.Mirrors.replace`,
`Chain.Mirrors.relink`, `Chain.Mirrors.removeIf`. -/

namespace Unscramble

variable {step : Handle → Option Handle} {front back s : List Handle} {h : Handle}

/-! ### Steps along a list -/

/-- A step leads from each element of a list to the next one, and nowhere from the last one. -/
def Leads (step : Handle → Option Handle) : List Handle → Prop
  | [] => True
  | h :: back => step h = back.head? ∧ Leads step back

/-- The step to the follower in a list leads along the rest of the list. -/
theorem leads_of_follower (hs : (front ++ back).Nodup)
    (hstep : ∀ h ∈ back, step h = follower (front ++ back) h) : Leads step back := by
  -- the part in front grows as the rest gets shorter
  induction back generalizing front with
  | nil => trivial
  | cons h back ih =>
    have hh : h ∉ front := (not_mem_of_nodup_middle hs).1
    have hsame : front ++ h :: back = (front ++ [h]) ++ back := by simp
    constructor
    · rw [hstep h List.mem_cons_self, follower_append_cons hh]
    · refine ih (hsame ▸ hs) fun a ha => ?_
      rw [← hsame]
      exact hstep a (List.mem_cons_of_mem h ha)

namespace Chain

variable {c : Chain} {l : Listing}

/-! ### Walks -/

/-- A walk from nowhere is empty. -/
theorem walk_none (step : Handle → Option Handle) (bound : Nat) :
    walk step bound none = some [] := by
  cases bound <;> rfl

/-- A walk passes the list that its steps lead along. -/
theorem walk_head? (hlead : Leads step s) {bound : Nat} (hbound : s.length ≤ bound) :
    walk step bound s.head? = some s := by
  induction s generalizing bound with
  | nil => exact walk_none step bound
  | cons h s ih =>
    obtain ⟨hfirst, hrest⟩ := hlead
    cases bound with
    | zero => exact absurd hbound (Nat.not_succ_le_zero _)
    | succ bound =>
      show (walk step bound (step h)).map (h :: ·) = _
      rw [hfirst, ih hrest (Nat.le_of_succ_le_succ hbound)]
      rfl

/-- A search from nowhere finds nothing. -/
theorem seekReal_none (c : Chain) (step : Handle → Option Handle) (bound : Nat) :
    c.seekReal step bound none = some none := by
  cases bound <;> rfl

/-- A search finds the first real instruction of the list that its steps lead along. -/
theorem seekReal_head? (hlead : Leads step s) {bound : Nat} (hbound : s.length ≤ bound) :
    c.seekReal step bound s.head? = some (s.find? fun h => (c.get h).isReal) := by
  induction s generalizing bound with
  | nil => exact seekReal_none c step bound
  | cons h s ih =>
    obtain ⟨hfirst, hrest⟩ := hlead
    cases bound with
    | zero => exact absurd hbound (Nat.not_succ_le_zero _)
    | succ bound =>
      show (if (c.get h).isReal then some (some h) else c.seekReal step bound (step h)) = _
      rw [List.find?_cons]
      by_cases hreal : (c.get h).isReal = true
      · rw [if_pos hreal, hreal]
      · rw [if_neg hreal, Bool.eq_false_iff.2 hreal, hfirst,
          ih hrest (Nat.le_of_succ_le_succ hbound)]

/-! ### The views of a chain -/

namespace Mirrors

/-- The links forward lead along every end of the sequence. -/
theorem leads (m : c.Mirrors l) (hs : back <:+ l.handles) : Leads c.next? back := by
  obtain ⟨front, hfront⟩ := hs
  refine leads_of_follower (hfront ▸ m.wellFormed.nodup) fun a _ => ?_
  rw [m.next?, Listing.next?_eq_follower, hfront]

/-- The links back lead along every end of the reversed sequence. -/
theorem leads_back (m : c.Mirrors l) (hs : back <:+ l.handles.reverse) : Leads c.prev? back := by
  obtain ⟨front, hfront⟩ := hs
  have hnodup : (front ++ back).Nodup := by
    rw [hfront, List.nodup_reverse]
    exact m.wellFormed.nodup
  refine leads_of_follower hnodup fun a _ => ?_
  rw [m.prev?, Listing.prev?_eq_follower, hfront]

/-- The bound of a walk is larger than the sequence. -/
theorem length_lt_bound (m : c.Mirrors l) : l.handles.length < c.bound := by
  unfold Chain.bound
  rw [m.capacity]
  exact Nat.lt_succ_of_le m.wellFormed.length_le

/-- Forward, a chain passes the sequence. -/
theorem handles (m : c.Mirrors l) : c.handles = some l.handles := by
  unfold Chain.handles
  rw [m.first?, Listing.first?_eq_head?]
  exact walk_head? (m.leads (List.suffix_refl _)) (Nat.le_of_lt m.length_lt_bound)

/-- Backward, a chain passes the reversed sequence. -/
theorem backward (m : c.Mirrors l) : c.backward = some l.handles.reverse := by
  unfold Chain.backward
  rw [m.last?, Listing.last?_eq_getLast?, ← List.head?_reverse]
  refine walk_head? (m.leads_back (List.suffix_refl _)) ?_
  rw [List.length_reverse]
  exact Nat.le_of_lt m.length_lt_bound

/-- The instructions of a chain are those of the listing that it mirrors. -/
theorem get (m : c.Mirrors l) (h : Handle) : c.get h = l.get h := by
  unfold Chain.get Listing.get
  rw [← m.nodes, plainNodes, Array.getElem?_map]
  cases c.nodes[h]? <;> rfl

/-- So are the positions. -/
theorem positions (m : c.Mirrors l) : c.positions = some l.positions := by
  unfold Chain.positions
  rw [m.handles, m.capacity]
  rfl

/-- The same instructions are real. -/
theorem isReal_eq (m : c.Mirrors l) : (fun h => (c.get h).isReal) = l.isReal := by
  funext h
  rw [m.get]
  rfl

/-- The search for a real instruction at or after a handle, linked or not. -/
theorem nextReal? (m : c.Mirrors l) (h : Handle) : c.nextReal? h = some (l.nextReal? h) := by
  have hlead : Leads c.next? (h :: l.after h) :=
    ⟨m.next? h, m.leads (l.after_suffix h)⟩
  unfold Chain.nextReal? Listing.nextReal?
  rw [← m.isReal_eq]
  refine seekReal_head? hlead ?_
  exact Nat.succ_le_of_lt ((l.after_suffix h).length_le.trans_lt m.length_lt_bound)

/-- The search for a real instruction before a handle. -/
theorem prevReal? (m : c.Mirrors l) (h : Handle) : c.prevReal? h = some (l.prevReal? h) := by
  have hsuffix : l.before h <:+ l.handles.reverse :=
    (List.drop_suffix 1 _).trans (List.dropWhile_suffix _)
  unfold Chain.prevReal? Listing.prevReal?
  rw [← m.isReal_eq, m.prev?]
  refine seekReal_head? (m.leads_back hsuffix) ?_
  have hlength := hsuffix.length_le
  rw [List.length_reverse] at hlength
  exact hlength.trans (Nat.le_of_lt m.length_lt_bound)

end Mirrors

end Chain

end Unscramble

namespace Unscramble

/-! ### Edits -/

section Sift

variable {σ : Type}

/-- Asks a test about the elements of a list one after the other, and keeps those for which it says
no. -/
def sift (p : Handle → StateM σ Bool) : List Handle → StateM σ (List Handle)
  | [] => pure []
  | h :: s => do
    let goes ← p h
    let kept ← sift p s
    return if goes then kept else h :: kept

/-- An element that is to go is sifted out. -/
theorem sift_cons_of_true {p : Handle → StateM σ Bool} {h : Handle} {state state' : σ}
    (hp : p h state = (true, state')) (s : List Handle) :
    sift p (h :: s) state = sift p s state' := by
  show (let r := p h state; let kept := sift p s r.2
    (if r.1 then kept.1 else h :: kept.1, kept.2)) = _
  rw [hp]
  rfl

/-- An element that is to stay stays. -/
theorem sift_cons_of_false {p : Handle → StateM σ Bool} {h : Handle} {state state' : σ}
    (hp : p h state = (false, state')) (s : List Handle) :
    sift p (h :: s) state = (h :: (sift p s state').1, (sift p s state').2) := by
  show (let r := p h state; let kept := sift p s r.2
    (if r.1 then kept.1 else h :: kept.1, kept.2)) = _
  rw [hp]
  rfl

/-- What is kept is in the list, in order. -/
theorem sift_sublist (p : Handle → StateM σ Bool) (s : List Handle) (state : σ) :
    (sift p s state).1.Sublist s := by
  induction s generalizing state with
  | nil => exact List.Sublist.refl _
  | cons h s ih =>
    rcases hp : p h state with ⟨goes, state'⟩
    cases goes with
    | true =>
      rw [sift_cons_of_true hp]
      exact (ih state').cons h
    | false =>
      rw [sift_cons_of_false hp]
      exact (ih state').cons_cons h

end Sift

namespace Listing

variable {l : Listing} {front back : List Handle} {a : Handle}

/-- Appending a handle adds it behind all others. -/
theorem handles_append (l : Listing) (h : Handle) : (l.append h).handles = l.handles ++ [h] := by
  unfold append handles
  exact Array.toList_push

/-- The sequence cut in front of an element. -/
theorem span_handles (hs : l.handles = front ++ a :: back) (ha : a ∉ front) :
    l.handles.span (· != a) = (front, a :: back) := by
  have hne : ∀ b ∈ front, (b != a) = true := fun b hb => by
    simpa using ne_of_mem_of_not_mem hb ha
  rw [hs, List.span_eq_takeWhile_dropWhile, List.takeWhile_append_of_pos hne,
    List.dropWhile_append_of_pos hne, List.takeWhile_cons_of_neg (by simp),
    List.dropWhile_cons_of_neg (by simp), List.append_nil]

/-- Inserting a handle in front of another one puts it there. -/
theorem handles_insertBefore_of_split (hs : l.handles = front ++ a :: back) (ha : a ∉ front)
    (h : Handle) : (l.insertBefore a h).handles = front ++ h :: a :: back := by
  unfold insertBefore
  rw [span_handles hs ha]
  rfl

/-- Inserting a handle behind another one puts it there. -/
theorem handles_insertAfter_of_split (hs : l.handles = front ++ a :: back) (ha : a ∉ front)
    (h : Handle) : (l.insertAfter a h).handles = front ++ a :: h :: back := by
  unfold insertAfter
  rw [span_handles hs ha]
  simp [handles]

/-- Removing a handle takes it out of the order. -/
theorem handles_remove (l : Listing) (h : Handle) : (l.remove h).handles = l.handles.erase h := by
  unfold remove handles
  exact Array.toList_erase _ _

end Listing

namespace Chain

variable {c : Chain} {l : Listing} {h a : Handle} {front back : List Handle}

/-- What is read off a node stays if a new node comes behind, and a node that is not there reads
like the new one. -/
theorem elim_push {α : Type} {g : ChainNode → α} {d : α} {node : ChainNode} (hg : g node = d)
    (nodes : Array ChainNode) (h : Handle) :
    (nodes.push node)[h]?.elim d g = nodes[h]?.elim d g := by
  rw [Array.getElem?_push]
  by_cases hh : h = nodes.size
  · rw [if_pos hh, hh, Array.getElem?_eq_none (Nat.le_refl _)]
    exact hg
  · rw [if_neg hh]

/-- The chain with no node linked. -/
def unlinked (c : Chain) : Chain :=
  { nodes := c.nodes.map fun node => { node with prev := none, next := none, linked := false } }

/-- A link that is not there reads the same before and after all links have gone. -/
theorem elim_unlinked {α : Type} {g : ChainNode → α} {d : α}
    (hg : ∀ node : ChainNode, g { node with prev := none, next := none, linked := false } = d)
    (c : Chain) (h : Handle) : c.unlinked.nodes[h]?.elim d g = d := by
  unfold unlinked
  rw [Array.getElem?_map]
  cases c.nodes[h]? with
  | none => rfl
  | some node => exact hg node

namespace Mirrors

/-- The chain with no nodes mirrors the listing with none. -/
theorem empty : ({} : Chain).Mirrors {} := by
  constructor
  case wellFormed => exact ⟨List.nodup_nil, fun h hh => absurd hh List.not_mem_nil⟩
  case nodes => exact Array.map_empty
  case contains =>
    intro h
    rw [Bool.eq_iff_iff, Listing.contains_eq_true_iff]
    constructor
    · exact fun hh => absurd hh Bool.false_ne_true
    · exact fun hh => absurd hh List.not_mem_nil
  all_goals intros; rfl

/-- Making a node mirrors making a node. -/
theorem create (m : c.Mirrors l) (insn : Instruction Label) :
    (c.create insn).2.Mirrors (l.create insn).2 := by
  -- A node that is not linked leaves every link as it was.
  constructor
  case wellFormed =>
    refine ⟨m.wellFormed.nodup, fun h hh => ?_⟩
    have hlt : h < l.nodes.size := m.wellFormed.lt_capacity h hh
    show h < (l.nodes.push _).size
    rw [Array.size_push]
    exact hlt.trans (Nat.lt_succ_self _)
  case nodes =>
    show (c.nodes.push _).map _ = l.nodes.push _
    rw [Array.map_push, ← m.nodes]
    rfl
  case first? => exact m.first?
  case last? => exact m.last?
  case length => exact m.length
  case contains =>
    intro h
    rw [← show l.contains h = (l.create insn).2.contains h from rfl, ← m.contains]
    refine elim_push ?_ c.nodes h
    rfl
  case next? =>
    intro h
    rw [← show l.next? h = (l.create insn).2.next? h from rfl, ← m.next?]
    refine elim_push ?_ c.nodes h
    rfl
  case prev? =>
    intro h
    rw [← show l.prev? h = (l.create insn).2.prev? h from rfl, ← m.prev?]
    refine elim_push ?_ c.nodes h
    rfl

/-- Appending a handle mirrors appending it. -/
theorem append (m : c.Mirrors l) (hlt : h < l.capacity) (hnew : h ∉ l.handles) :
    (c.append h).Mirrors (l.append h) := by
  unfold Chain.append
  rw [m.last?, Listing.last?_eq_getLast?]
  exact m.link (List.append_nil _).symm hlt hnew rfl (l.handles_append h)

/-- Pushing an instruction mirrors pushing it. -/
theorem push (m : c.Mirrors l) (insn : Instruction Label) :
    (c.push insn).2.Mirrors (l.push insn).2 := by
  have hcapacity : (c.create insn).1 = (l.create insn).1 := m.capacity
  have hlt : (l.create insn).1 < (l.create insn).2.capacity := by
    show l.nodes.size < (l.nodes.push _).size
    rw [Array.size_push]
    exact Nat.lt_succ_self _
  have hnew : (l.create insn).1 ∉ (l.create insn).2.handles := fun hmem =>
    Nat.lt_irrefl _ (m.wellFormed.lt_capacity _ hmem)
  show ((c.create insn).2.append (c.create insn).1).Mirrors
    ((l.create insn).2.append (l.create insn).1)
  rw [hcapacity]
  exact (m.create insn).append hlt hnew

/-- Inserting a handle in front of another one mirrors inserting it. -/
theorem insertBefore (m : c.Mirrors l) (hs : l.handles = front ++ a :: back) (hlt : h < l.capacity)
    (hnew : h ∉ l.handles) : (c.insertBefore a h).Mirrors (l.insertBefore a h) := by
  have hfront : a ∉ front := (not_mem_of_nodup_middle (hs ▸ m.wellFormed.nodup)).1
  have hnodes : (l.insertBefore a h).nodes = l.nodes := rfl
  have hlink := m.link hs hlt hnew hnodes (Listing.handles_insertBefore_of_split hs hfront h)
  unfold Chain.insertBefore
  rw [m.prev?_of_split hs]
  exact hlink

/-- Inserting a handle behind another one mirrors inserting it. -/
theorem insertAfter (m : c.Mirrors l) (hs : l.handles = front ++ a :: back) (hlt : h < l.capacity)
    (hnew : h ∉ l.handles) : (c.insertAfter a h).Mirrors (l.insertAfter a h) := by
  have hfront : a ∉ front := (not_mem_of_nodup_middle (hs ▸ m.wellFormed.nodup)).1
  have hlast : (front ++ [a]).getLast? = some a := List.getLast?_concat
  unfold Chain.insertAfter
  rw [m.next?_of_split hs, ← hlast]
  refine m.link (by rw [hs, List.append_assoc]; rfl) hlt hnew rfl ?_
  rw [Listing.handles_insertAfter_of_split hs hfront, List.append_assoc]
  rfl

/-- A node that is not linked is not touched. -/
theorem remove_of_not_mem (m : c.Mirrors l) (hh : h ∉ l.handles) : c.remove h = c := by
  unfold Chain.remove
  rw [m.contains, if_neg (by rwa [Listing.contains_eq_true_iff])]

/-- Removing a handle mirrors removing it. -/
theorem remove (m : c.Mirrors l) (h : Handle) : (c.remove h).Mirrors (l.remove h) := by
  by_cases hh : h ∈ l.handles
  · obtain ⟨front, back, hs, hfront⟩ := List.eq_append_cons_of_mem hh
    refine m.unlink hs rfl ?_
    rw [Listing.handles_remove, hs, List.erase_append_right _ hfront, List.erase_cons_head]
  · have hsame : l.remove h = l := by
      unfold Listing.remove
      rw [Array.erase_of_not_mem (by rwa [← Array.mem_toList_iff])]
    rw [m.remove_of_not_mem hh, hsame]
    exact m

/-- Replacing an instruction mirrors replacing it. -/
theorem replace (m : c.Mirrors l) (h : Handle) (insn : Instruction Label) :
    (c.replace h insn).Mirrors (l.replace h insn) := by
  -- Only the instruction of the node changes, so every link stays.
  constructor
  case wellFormed =>
    refine ⟨m.wellFormed.nodup, fun a ha => ?_⟩
    show a < (l.nodes.modify h _).size
    rw [Array.size_modify]
    exact m.wellFormed.lt_capacity a ha
  case nodes =>
    unfold Chain.replace Listing.replace
    dsimp only
    rw [← m.nodes]
    refine plainNodes_onNode ?_ c h
    exact fun node => rfl
  case first? => exact m.first?
  case last? => exact m.last?
  case length => exact m.length
  case contains =>
    intro a
    rw [← show l.contains a = (l.replace h insn).contains a from rfl, ← m.contains]
    refine elim_onNode ?_ c h a false
    exact fun node => rfl
  case next? =>
    intro a
    rw [← show l.next? a = (l.replace h insn).next? a from rfl, ← m.next?]
    refine elim_onNode ?_ c h a none
    exact fun node => rfl
  case prev? =>
    intro a
    rw [← show l.prev? a = (l.replace h insn).prev? a from rfl, ← m.prev?]
    refine elim_onNode ?_ c h a none
    exact fun node => rfl

/-! ### A new order -/

/-- Without its links, a chain mirrors the listing without its sequence. -/
theorem unlinked (m : c.Mirrors l) : c.unlinked.Mirrors { l with order := #[] } := by
  -- With no handle in sequence, every link is missing on both sides.
  constructor
  case wellFormed => exact ⟨List.nodup_nil, fun h hh => absurd hh List.not_mem_nil⟩
  case nodes =>
    rw [← m.nodes]
    unfold plainNodes Chain.unlinked
    rw [Array.map_map]
    rfl
  case first? => rfl
  case last? => rfl
  case length => rfl
  case contains =>
    intro h
    have hempty : Listing.contains { l with order := #[] } h = false := by
      rw [← Bool.not_eq_true, Listing.contains_eq_true_iff]
      exact fun hh => absurd hh List.not_mem_nil
    rw [hempty]
    refine elim_unlinked ?_ c h
    exact fun node => rfl
  case next? =>
    refine elim_unlinked ?_ c
    exact fun node => rfl
  case prev? =>
    refine elim_unlinked ?_ c
    exact fun node => rfl

/-- Handles that are linked at the end one by one. -/
theorem foldl_append (m : c.Mirrors l) {order : List Handle} (hn : (l.handles ++ order).Nodup)
    (hlt : ∀ h ∈ order, h < l.capacity) :
    (order.foldl Chain.append c).Mirrors { l with order := l.order ++ order } := by
  -- the listing grows with the chain as the rest of the order gets shorter
  induction order generalizing c l with
  | nil => simpa using m
  | cons h order ih =>
    have hh : h ∉ l.handles := (not_mem_of_nodup_middle hn).1
    have hn' : ((l.append h).handles ++ order).Nodup := by
      rw [l.handles_append, List.append_assoc]
      exact hn
    have hrest := ih (m.append (hlt h List.mem_cons_self) hh) hn'
      fun a ha => hlt a (List.mem_cons_of_mem h ha)
    rw [List.foldl_cons]
    simpa [Listing.append] using hrest

/-- Linking all handles anew mirrors linking them anew. -/
theorem relink (m : c.Mirrors l) {order : List Handle} (hn : order.Nodup)
    (hlt : ∀ h ∈ order, h < l.capacity) :
    (c.relink order).Mirrors (l.relink order.toArray) := by
  have hall := m.unlinked.foldl_append (by simpa [Listing.handles] using hn) hlt
  have hsame : ({ l with order := #[] } : Listing).order ++ order = order.toArray := by simp
  rw [hsame] at hall
  exact hall

/-! ### Removal by a test -/

section Removal

variable {σ : Type} {p : Handle → Instruction Label → StateM σ Bool}

/-- A removal that has kept one part of the sequence and has yet to see another. -/
theorem removeFrom (m : c.Mirrors l) {passed rest kept : List Handle}
    (hs : l.handles = passed ++ rest) (removed : Nat) {state state' : σ} {bound : Nat}
    (hbound : rest.length ≤ bound)
    (hkept : sift (fun h => p h (l.get h)) rest state = (kept, state')) :
    ∃ c', Chain.removeFrom p c removed state bound rest.head? =
        some ((removed + (rest.length - kept.length), c'), state') ∧
      c'.Mirrors { l with order := (passed ++ kept).toArray } := by
  induction rest generalizing c l passed kept removed state bound with
  | nil =>
    obtain ⟨rfl, rfl⟩ := Prod.mk.inj hkept
    have hsame : (passed ++ []).toArray = l.order := by
      rw [← hs]
      rfl
    refine ⟨c, by cases bound <;> rfl, ?_⟩
    rw [hsame]
    exact m
  | cons h rest ih =>
    cases bound with
    | zero => exact absurd hbound (Nat.not_succ_le_zero _)
    | succ bound =>
      have hbound : rest.length ≤ bound := Nat.le_of_succ_le_succ hbound
      rcases hp : p h (l.get h) state with ⟨goes, state₁⟩
      rw [List.head?_cons, Chain.removeFrom, m.get, hp, m.next?_of_split hs]
      cases goes with
      | true =>
        -- the node leaves, so the passed part stays as it is
        rw [sift_cons_of_true hp] at hkept
        have hh : h ∉ passed := (not_mem_of_nodup_middle (hs ▸ m.wellFormed.nodup)).1
        have hs' : (l.remove h).handles = passed ++ rest := by
          rw [Listing.handles_remove, hs, List.erase_append_right _ hh, List.erase_cons_head]
        have hcount : removed + 1 + (rest.length - kept.length) =
            removed + ((h :: rest).length - kept.length) := by
          have hle : kept.length ≤ rest.length := by
            have hsub := sift_sublist (fun h => p h (l.get h)) rest state₁
            rw [hkept] at hsub
            exact hsub.length_le
          rw [List.length_cons]
          omega
        rw [← hcount]
        exact ih (m.remove h) hs' (removed + 1) hbound hkept
      | false =>
        -- the node stays, and the passed part ends with it
        rw [sift_cons_of_false hp] at hkept
        obtain ⟨rfl, hstate⟩ := Prod.mk.inj hkept
        have hs' : l.handles = (passed ++ [h]) ++ rest := by
          rw [hs, List.append_assoc]
          rfl
        have hrest := ih m hs' removed hbound (Prod.ext rfl hstate)
        rw [List.append_assoc, List.singleton_append] at hrest
        rw [List.length_cons, List.length_cons, Nat.succ_sub_succ]
        exact hrest

/-- A removal asks the test about every handle of the sequence once, in order, and takes out those
for which it says yes. -/
theorem removeIf (m : c.Mirrors l) {kept : List Handle} {state state' : σ}
    (hkept : sift (fun h => p h (l.get h)) l.handles state = (kept, state')) :
    ∃ c', c.removeIf p state = some ((l.handles.length - kept.length, c'), state') ∧
      c'.Mirrors { l with order := kept.toArray } := by
  unfold Chain.removeIf
  rw [m.first?, Listing.first?_eq_head?, ← Nat.zero_add (l.handles.length - kept.length)]
  exact m.removeFrom (List.nil_append l.handles).symm 0 (Nat.le_of_lt m.length_lt_bound) hkept

end Removal

end Mirrors

end Chain

end Unscramble
