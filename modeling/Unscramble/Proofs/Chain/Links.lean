import Unscramble.Listing.Chain
import Unscramble.Proofs.Listing

/-! # Links of a chain

A chain mirrors a listing if both have the same nodes and every node of the chain keeps the
neighbours that it has in the listing. Linking a node between two neighbours and taking a node out
keep this: each changes the links of three nodes, and these are the nodes whose neighbours change.

The sequence backwards is a sequence too, so what is said of the next handle is said of the previous
one as well.

Main definition: `Chain.Mirrors`. Main statements: `Chain.Mirrors.link`, `Chain.Mirrors.unlink`. -/

namespace Unscramble

/-! ### Neighbours in a list -/

section Follower

variable {front back s : List Handle} {a h : Handle}

/-- What stands behind the first place of an element. -/
def follower (s : List Handle) (a : Handle) : Option Handle :=
  ((s.dropWhile (· != a)).drop 1).head?

/-- The first element is followed by the next one. -/
theorem follower_cons_self (a : Handle) (s : List Handle) : follower (a :: s) a = s.head? := by
  unfold follower
  rw [List.dropWhile_cons_of_neg (by simp)]
  rfl

/-- What follows an element behind the first one follows it in the rest. -/
theorem follower_cons_of_ne (hne : h ≠ a) (s : List Handle) :
    follower (h :: s) a = follower s a := by
  unfold follower
  rw [List.dropWhile_cons_of_pos (by simpa using hne)]

/-- What follows an element is the first one of the list behind it. -/
theorem follower_append_cons (hfront : a ∉ front) (back : List Handle) :
    follower (front ++ a :: back) a = back.head? := by
  unfold follower
  rw [dropWhile_bne_append hfront]
  rfl

/-- Nothing follows what is not in a list. -/
theorem follower_eq_none (ha : a ∉ s) : follower s a = none := by
  unfold follower
  rw [List.dropWhile_eq_nil_iff.2 fun b hb => by simpa using ne_of_mem_of_not_mem hb ha]
  rfl

/-- What stands behind an element when another one has come between two parts of a list. -/
theorem follower_insert (hs : (front ++ h :: back).Nodup) (a : Handle) :
    follower (front ++ h :: back) a =
      if front.getLast? = some a then some h
      else if a = h then back.head? else follower (front ++ back) a := by
  induction front with
  | nil =>
    rw [List.getLast?_nil, if_neg (by simp)]
    by_cases ha : a = h
    · subst ha
      rw [if_pos rfl, List.nil_append, follower_cons_self]
    · rw [if_neg ha, List.nil_append, follower_cons_of_ne (Ne.symm ha), List.nil_append]
  | cons b front ih =>
    obtain ⟨hb, hs⟩ := List.nodup_cons.1 hs
    by_cases ha : b = a
    · subst ha
      -- the element in question is at the front, so what follows begins the rest
      have hh : b ≠ h := fun heq => hb (by simp [heq])
      rw [List.cons_append, follower_cons_self, List.cons_append, follower_cons_self, if_neg hh]
      cases front with
      | nil => exact (if_pos rfl).symm
      | cons d front =>
        have hlast : (b :: d :: front).getLast? ≠ some b := by
          rw [List.getLast?_cons_cons]
          exact fun heq => hb (List.mem_append_left _ (List.mem_of_getLast? heq))
        rw [if_neg hlast]
        rfl
    · have hlast : (b :: front).getLast? = some a ↔ front.getLast? = some a := by
        cases front with
        | nil => simp [ha]
        | cons d front => rw [List.getLast?_cons_cons]
      rw [List.cons_append, follower_cons_of_ne ha, ih hs, List.cons_append, follower_cons_of_ne ha]
      simp only [hlast]

/-- What stands behind an element when one between two parts of a list has gone. -/
theorem follower_erase (hs : (front ++ h :: back).Nodup) (a : Handle) :
    follower (front ++ back) a =
      if a = h then none
      else if front.getLast? = some a then back.head? else follower (front ++ h :: back) a := by
  have hmiddle := List.nodup_middle.1 hs
  by_cases ha : a = h
  · subst ha
    rw [if_pos rfl, follower_eq_none (List.nodup_cons.1 hmiddle).1]
  · rw [if_neg ha]
    by_cases hlast : front.getLast? = some a
    · obtain ⟨init, rfl⟩ := List.getLast?_eq_some_iff.1 hlast
      rw [if_pos hlast, List.append_assoc]
      have hinit := (List.nodup_append.1 hs).1
      exact follower_append_cons (not_mem_of_nodup_middle hinit).1 back
    · rw [if_neg hlast, follower_insert hs, if_neg hlast, if_neg ha]

end Follower

namespace Listing

/-- The next instruction of a listing follows in its order. -/
theorem next?_eq_follower (l : Listing) (h : Handle) : l.next? h = follower l.handles h := rfl

/-- The instruction in front follows in the reverse of its order. -/
theorem prev?_eq_follower (l : Listing) (h : Handle) :
    l.prev? h = follower l.handles.reverse h := rfl

/-- The last instruction of a listing is the last one of its order. -/
theorem last?_eq_getLast? (l : Listing) : l.last? = l.handles.getLast? := by
  rw [last?, handles, Array.getLast?_toList]

/-- A listing contains the handles of its order. -/
theorem contains_eq_true_iff {l : Listing} {h : Handle} : l.contains h = true ↔ h ∈ l.handles := by
  rw [contains, handles, Array.contains_iff_mem, Array.mem_toList_iff]

end Listing

namespace Chain

variable {c : Chain} {l l' : Listing} {h a : Handle} {front back : List Handle}

/-! ### Links one by one -/

/-- The nodes without their links. -/
def plainNodes (c : Chain) : Array Node :=
  c.nodes.map (·.toNode)

/-- Changing a node adds no node. -/
@[simp] theorem capacity_onNode (c : Chain) (h : Handle) (f : ChainNode → ChainNode) :
    (c.onNode h f).capacity = c.capacity := by
  unfold onNode capacity
  exact Array.size_modify

/-- What a node becomes if it is changed. -/
theorem getElem?_nodes_onNode (c : Chain) (h a : Handle) (f : ChainNode → ChainNode) :
    (c.onNode h f).nodes[a]? = if h = a then c.nodes[a]?.map f else c.nodes[a]? :=
  Array.getElem?_modify

/-- Setting a link forward adds no node. -/
@[simp] theorem capacity_setNext (c : Chain) (h? next : Option Handle) :
    (c.setNext h? next).capacity = c.capacity := by
  cases h? with
  | none => rfl
  | some h => exact capacity_onNode c h _

/-- Setting a link backward adds no node. -/
@[simp] theorem capacity_setPrev (c : Chain) (h? prev : Option Handle) :
    (c.setPrev h? prev).capacity = c.capacity := by
  cases h? with
  | none => rfl
  | some h => exact capacity_onNode c h _

section Views

variable {α : Type} {g : ChainNode → α} {f : ChainNode → ChainNode}

/-- What is read off a node stays if a changed node keeps it. -/
theorem elim_onNode (hg : ∀ node, g (f node) = g node) (c : Chain) (h a : Handle) (d : α) :
    (c.onNode h f).nodes[a]?.elim d g = c.nodes[a]?.elim d g := by
  rw [getElem?_nodes_onNode]
  by_cases ha : h = a
  · rw [if_pos ha]
    cases c.nodes[a]? with
    | none => rfl
    | some node => exact hg node
  · rw [if_neg ha]

/-- What is read off the other nodes stays. -/
theorem elim_onNode_of_ne (hne : h ≠ a) (c : Chain) (f : ChainNode → ChainNode) (d : α) :
    (c.onNode h f).nodes[a]?.elim d g = c.nodes[a]?.elim d g := by
  rw [getElem?_nodes_onNode, if_neg hne]

/-- What is read off a node that is changed. -/
theorem elim_onNode_self {b d : α} (hlt : h < c.capacity) (hg : ∀ node, g (f node) = b) :
    (c.onNode h f).nodes[h]?.elim d g = b := by
  rw [getElem?_nodes_onNode, if_pos rfl, Array.getElem?_eq_getElem hlt]
  exact hg _

end Views

/-- What a change makes of a node without its links. -/
theorem plainNodes_onNode {f : ChainNode → ChainNode} {g : Node → Node}
    (hf : ∀ node, (f node).toNode = g node.toNode) (c : Chain) (h : Handle) :
    (c.onNode h f).plainNodes = c.plainNodes.modify h g := by
  apply Array.ext_getElem?
  intro a
  unfold plainNodes
  rw [Array.getElem?_map, Array.getElem?_modify, Array.getElem?_map, getElem?_nodes_onNode]
  by_cases ha : h = a
  · rw [if_pos ha, if_pos ha]
    cases c.nodes[a]? with
    | none => rfl
    | some node => exact congrArg some (hf node)
  · rw [if_neg ha, if_neg ha]

/-- A change of links leaves the instructions and their encodings. -/
theorem plainNodes_onNode_of_links {f : ChainNode → ChainNode}
    (hf : ∀ node, (f node).toNode = node.toNode) (c : Chain) (h : Handle) :
    (c.onNode h f).plainNodes = c.plainNodes := by
  have hsame : (c.onNode h f).plainNodes = c.plainNodes.modify h id := plainNodes_onNode hf c h
  rw [hsame]
  apply Array.ext_getElem?
  intro a
  rw [Array.getElem?_modify, Option.map_id, id_eq, ite_self]

/-- A link forward is set in one place. -/
theorem next?_setNext {h? : Option Handle} (hlt : ∀ h, h? = some h → h < c.capacity)
    (next : Option Handle) (a : Handle) :
    (c.setNext h? next).next? a = if h? = some a then next else c.next? a := by
  cases h? with
  | none => rfl
  | some h =>
    by_cases ha : h = a
    · subst ha
      rw [if_pos rfl]
      refine elim_onNode_self (hlt h rfl) ?_
      exact fun node => rfl
    · rw [if_neg (by simpa using ha)]
      exact elim_onNode_of_ne ha c _ none

/-- A link back is set in one place. -/
theorem prev?_setPrev {h? : Option Handle} (hlt : ∀ h, h? = some h → h < c.capacity)
    (prev : Option Handle) (a : Handle) :
    (c.setPrev h? prev).prev? a = if h? = some a then prev else c.prev? a := by
  cases h? with
  | none => rfl
  | some h =>
    by_cases ha : h = a
    · subst ha
      rw [if_pos rfl]
      refine elim_onNode_self (hlt h rfl) ?_
      exact fun node => rfl
    · rw [if_neg (by simpa using ha)]
      exact elim_onNode_of_ne ha c _ none

/-- Setting a link backward changes no link forward. -/
@[simp] theorem next?_setPrev (c : Chain) (h? prev : Option Handle) (a : Handle) :
    (c.setPrev h? prev).next? a = c.next? a := by
  cases h? with
  | none => rfl
  | some h =>
    refine elim_onNode ?_ c h a none
    exact fun node => rfl

/-- Setting a link forward changes no link backward. -/
@[simp] theorem prev?_setNext (c : Chain) (h? next : Option Handle) (a : Handle) :
    (c.setNext h? next).prev? a = c.prev? a := by
  cases h? with
  | none => rfl
  | some h =>
    refine elim_onNode ?_ c h a none
    exact fun node => rfl

/-- Setting a link forward links no handle and unlinks none. -/
@[simp] theorem contains_setNext (c : Chain) (h? next : Option Handle) (a : Handle) :
    (c.setNext h? next).contains a = c.contains a := by
  cases h? with
  | none => rfl
  | some h =>
    refine elim_onNode ?_ c h a false
    exact fun node => rfl

/-- Setting a link backward links no handle and unlinks none. -/
@[simp] theorem contains_setPrev (c : Chain) (h? prev : Option Handle) (a : Handle) :
    (c.setPrev h? prev).contains a = c.contains a := by
  cases h? with
  | none => rfl
  | some h =>
    refine elim_onNode ?_ c h a false
    exact fun node => rfl

/-- Setting a link forward changes no instruction. -/
@[simp] theorem plainNodes_setNext (c : Chain) (h? next : Option Handle) :
    (c.setNext h? next).plainNodes = c.plainNodes := by
  cases h? with
  | none => rfl
  | some h =>
    refine plainNodes_onNode_of_links ?_ c h
    exact fun node => rfl

/-- Setting a link backward changes no instruction. -/
@[simp] theorem plainNodes_setPrev (c : Chain) (h? prev : Option Handle) :
    (c.setPrev h? prev).plainNodes = c.plainNodes := by
  cases h? with
  | none => rfl
  | some h =>
    refine plainNodes_onNode_of_links ?_ c h
    exact fun node => rfl

/-- Setting the link forward of no handle sets the first handle. -/
theorem first?_setNext (c : Chain) (h? next : Option Handle) :
    (c.setNext h? next).first? = if h? = none then next else c.first? := by
  cases h? <;> rfl

/-- Setting the link backward of no handle sets the last handle. -/
theorem last?_setPrev (c : Chain) (h? prev : Option Handle) :
    (c.setPrev h? prev).last? = if h? = none then prev else c.last? := by
  cases h? <;> rfl

/-- Setting a link backward keeps the first handle. -/
@[simp] theorem first?_setPrev (c : Chain) (h? prev : Option Handle) :
    (c.setPrev h? prev).first? = c.first? := by
  cases h? <;> rfl

/-- Setting a link forward keeps the last handle. -/
@[simp] theorem last?_setNext (c : Chain) (h? next : Option Handle) :
    (c.setNext h? next).last? = c.last? := by
  cases h? <;> rfl

/-- Setting a link forward keeps the length. -/
@[simp] theorem length_setNext (c : Chain) (h? next : Option Handle) :
    (c.setNext h? next).length = c.length := by
  cases h? <;> rfl

/-- Setting a link backward keeps the length. -/
@[simp] theorem length_setPrev (c : Chain) (h? prev : Option Handle) :
    (c.setPrev h? prev).length = c.length := by
  cases h? <;> rfl

/-! ### Linking and unlinking a node -/

section Edits

variable {prev next : Option Handle}

/-- Of the links forward, linking a node sets its own and the one to it. -/
theorem next?_link (hlt : h < c.capacity) (hprev : ∀ a, prev = some a → a < c.capacity)
    (next : Option Handle) (a : Handle) :
    (c.link prev h next).next? a =
      if prev = some a then some h else if a = h then next else c.next? a := by
  show (((c.onNode h _).setNext prev (some h)).setPrev next (some h)).next? a = _
  rw [next?_setPrev, next?_setNext (by simpa using hprev)]
  by_cases ha : a = h
  · subst ha
    rw [if_pos rfl]
    congr 1
    refine elim_onNode_self hlt ?_
    exact fun node => rfl
  · rw [if_neg ha]
    congr 1
    exact elim_onNode_of_ne (Ne.symm ha) c _ none

/-- Of the links back, linking a node sets its own and the one to it. -/
theorem prev?_link (hlt : h < c.capacity) (hnext : ∀ a, next = some a → a < c.capacity)
    (prev : Option Handle) (a : Handle) :
    (c.link prev h next).prev? a =
      if next = some a then some h else if a = h then prev else c.prev? a := by
  show (((c.onNode h _).setNext prev (some h)).setPrev next (some h)).prev? a = _
  rw [prev?_setPrev (by simpa using hnext), prev?_setNext]
  by_cases ha : a = h
  · subst ha
    rw [if_pos rfl]
    congr 1
    refine elim_onNode_self hlt ?_
    exact fun node => rfl
  · rw [if_neg ha]
    congr 1
    exact elim_onNode_of_ne (Ne.symm ha) c _ none

/-- Linking a handle links that handle only. -/
theorem contains_link (hlt : h < c.capacity) (prev next : Option Handle) (a : Handle) :
    (c.link prev h next).contains a = if a = h then true else c.contains a := by
  show (((c.onNode h _).setNext prev (some h)).setPrev next (some h)).contains a = _
  rw [contains_setPrev, contains_setNext]
  by_cases ha : a = h
  · subst ha
    rw [if_pos rfl]
    refine elim_onNode_self hlt ?_
    exact fun node => rfl
  · rw [if_neg ha]
    exact elim_onNode_of_ne (Ne.symm ha) c _ false

/-- Linking a handle changes no instruction. -/
theorem plainNodes_link (c : Chain) (prev : Option Handle) (h : Handle) (next : Option Handle) :
    (c.link prev h next).plainNodes = c.plainNodes := by
  show (((c.onNode h _).setNext prev (some h)).setPrev next (some h)).plainNodes = _
  rw [plainNodes_setPrev, plainNodes_setNext]
  refine plainNodes_onNode_of_links ?_ c h
  exact fun node => rfl

/-- A handle that is linked behind no other one is the first. -/
theorem first?_link (c : Chain) (prev : Option Handle) (h : Handle) (next : Option Handle) :
    (c.link prev h next).first? = if prev = none then some h else c.first? := by
  cases prev <;> cases next <;> rfl

/-- A handle that is linked in front of no other one is the last. -/
theorem last?_link (c : Chain) (prev : Option Handle) (h : Handle) (next : Option Handle) :
    (c.link prev h next).last? = if next = none then some h else c.last? := by
  cases prev <;> cases next <;> rfl

/-- Linking a handle makes the chain longer by one. -/
theorem length_link (c : Chain) (prev : Option Handle) (h : Handle) (next : Option Handle) :
    (c.link prev h next).length = c.length + 1 := by
  cases prev <;> cases next <;> rfl

/-- A linked node that is taken out. -/
theorem remove_of_contains (hh : c.contains h = true) :
    c.remove h =
      { ((c.setNext (c.prev? h) (c.next? h)).setPrev (c.next? h) (c.prev? h)).onNode h
          fun node => { node with prev := none, next := none, linked := false } with
        length := c.length - 1 } := by
  unfold remove
  rw [if_pos hh]
  simp [onNode]

/-- Of the links forward, taking a node out clears its own and redirects the one to it. -/
theorem next?_remove (hlt : h < c.capacity) (hh : c.contains h = true)
    (hprev : ∀ a, c.prev? h = some a → a < c.capacity) (a : Handle) :
    (c.remove h).next? a =
      if a = h then none else if c.prev? h = some a then c.next? h else c.next? a := by
  rw [remove_of_contains hh]
  by_cases ha : a = h
  · subst ha
    rw [if_pos rfl]
    refine elim_onNode_self (by simpa using hlt) ?_
    exact fun node => rfl
  · have hjoined : ((c.setNext (c.prev? h) (c.next? h)).setPrev (c.next? h) (c.prev? h)).next? a =
        if c.prev? h = some a then c.next? h else c.next? a := by
      rw [next?_setPrev, next?_setNext hprev]
    rw [if_neg ha, ← hjoined]
    exact elim_onNode_of_ne (Ne.symm ha) _ _ none

/-- Of the links back, taking a node out clears its own and redirects the one to it. -/
theorem prev?_remove (hlt : h < c.capacity) (hh : c.contains h = true)
    (hnext : ∀ a, c.next? h = some a → a < c.capacity) (a : Handle) :
    (c.remove h).prev? a =
      if a = h then none else if c.next? h = some a then c.prev? h else c.prev? a := by
  rw [remove_of_contains hh]
  by_cases ha : a = h
  · subst ha
    rw [if_pos rfl]
    refine elim_onNode_self (by simpa using hlt) ?_
    exact fun node => rfl
  · have hjoined : ((c.setNext (c.prev? h) (c.next? h)).setPrev (c.next? h) (c.prev? h)).prev? a =
        if c.next? h = some a then c.prev? h else c.prev? a := by
      rw [prev?_setPrev (by simpa using hnext), prev?_setNext]
    rw [if_neg ha, ← hjoined]
    exact elim_onNode_of_ne (Ne.symm ha) _ _ none

/-- Removing a handle unlinks that handle only. -/
theorem contains_remove (hlt : h < c.capacity) (hh : c.contains h = true) (a : Handle) :
    (c.remove h).contains a = if a = h then false else c.contains a := by
  rw [remove_of_contains hh]
  by_cases ha : a = h
  · subst ha
    rw [if_pos rfl]
    refine elim_onNode_self (by simpa using hlt) ?_
    exact fun node => rfl
  · have hjoined : ((c.setNext (c.prev? h) (c.next? h)).setPrev (c.next? h)
        (c.prev? h)).contains a = c.contains a := by simp
    rw [if_neg ha, ← hjoined]
    exact elim_onNode_of_ne (Ne.symm ha) _ _ false

/-- Removing a handle changes no instruction. -/
theorem plainNodes_remove (c : Chain) (h : Handle) : (c.remove h).plainNodes = c.plainNodes := by
  by_cases hh : c.contains h = true
  · rw [remove_of_contains hh]
    have hjoined : ((c.setNext (c.prev? h) (c.next? h)).setPrev (c.next? h)
        (c.prev? h)).plainNodes = c.plainNodes := by simp
    rw [← hjoined]
    show (((c.setNext _ _).setPrev _ _).onNode h fun node =>
      { node with prev := none, next := none, linked := false }).plainNodes = _
    refine plainNodes_onNode_of_links ?_ _ h
    exact fun node => rfl
  · rw [remove, if_neg hh]

/-- Removing the first handle makes the next one the first. -/
theorem first?_remove (hh : c.contains h = true) :
    (c.remove h).first? = if c.prev? h = none then c.next? h else c.first? := by
  rw [remove_of_contains hh]
  show ((c.setNext _ _).setPrev _ _).first? = _
  rw [first?_setPrev, first?_setNext]

/-- Removing the last handle makes the one in front the last. -/
theorem last?_remove (hh : c.contains h = true) :
    (c.remove h).last? = if c.next? h = none then c.prev? h else c.last? := by
  rw [remove_of_contains hh]
  show ((c.setNext _ _).setPrev _ _).last? = _
  rw [last?_setPrev, last?_setNext]

/-- Removing a handle makes the chain shorter by one. -/
theorem length_remove (hh : c.contains h = true) : (c.remove h).length = c.length - 1 := by
  rw [remove_of_contains hh]

end Edits

/-! ### Chains and listings -/

/-- A chain that spells the sequence of a listing: the nodes are the same, and every node keeps the
neighbours that it has in the listing. -/
structure Mirrors (c : Chain) (l : Listing) : Prop where
  /-- The listing is as its edits leave it. -/
  wellFormed : l.WellFormed
  /-- The nodes are the same. -/
  nodes : c.plainNodes = l.nodes
  /-- The first node is the same. -/
  first? : c.first? = l.first?
  /-- The last node is the same. -/
  last? : c.last? = l.last?
  /-- The number of linked nodes is the same. -/
  length : c.length = l.length
  /-- The same nodes are linked. -/
  contains : ∀ h, c.contains h = l.contains h
  /-- A node keeps what follows it. -/
  next? : ∀ h, c.next? h = l.next? h
  /-- A node keeps what precedes it. -/
  prev? : ∀ h, c.prev? h = l.prev? h

namespace Mirrors

/-- A chain that mirrors a listing has as many nodes. -/
theorem capacity (m : c.Mirrors l) : c.capacity = l.capacity := by
  unfold Chain.capacity Listing.capacity
  rw [← m.nodes]
  exact Array.size_map.symm

/-- The neighbours of a place in the sequence name nodes. -/
theorem lt_capacity_of_mem (m : c.Mirrors l) (ha : a ∈ l.handles) : a < c.capacity := by
  rw [m.capacity]
  exact m.wellFormed.lt_capacity a ha

/-- A node of the sequence keeps what begins the part behind it. -/
theorem next?_of_split (m : c.Mirrors l) (hs : l.handles = front ++ h :: back) :
    c.next? h = back.head? := by
  have hfront : h ∉ front := (not_mem_of_nodup_middle (hs ▸ m.wellFormed.nodup)).1
  rw [m.next?, Listing.next?_eq_follower, hs, follower_append_cons hfront]

/-- A node of the sequence keeps what ends the part before it. -/
theorem prev?_of_split (m : c.Mirrors l) (hs : l.handles = front ++ h :: back) :
    c.prev? h = front.getLast? := by
  have hback : h ∉ back.reverse := by
    rw [List.mem_reverse]
    exact (not_mem_of_nodup_middle (hs ▸ m.wellFormed.nodup)).2
  rw [m.prev?, Listing.prev?_eq_follower, hs, List.reverse_append, List.reverse_cons,
    List.append_assoc, List.singleton_append, follower_append_cons hback, List.head?_reverse]

/-- A node that is linked between two parts of the sequence. -/
theorem link (m : c.Mirrors l) (hs : l.handles = front ++ back) (hlt : h < l.capacity)
    (hnew : h ∉ l.handles) (hnodes : l'.nodes = l.nodes)
    (hs' : l'.handles = front ++ h :: back) :
    (c.link front.getLast? h back.head?).Mirrors l' := by
  have hlt' : h < c.capacity := m.capacity ▸ hlt
  have hnodup : (front ++ h :: back).Nodup := by
    rw [List.nodup_middle, ← hs]
    exact List.nodup_cons.2 ⟨hnew, m.wellFormed.nodup⟩
  have hreverse : (back.reverse ++ h :: front.reverse).Nodup := by
    rw [← List.nodup_reverse] at hnodup
    simpa using hnodup
  have hprev : ∀ a, front.getLast? = some a → a < c.capacity := fun a ha =>
    m.lt_capacity_of_mem (hs ▸ List.mem_append_left back (List.mem_of_getLast? ha))
  have hnext : ∀ a, back.head? = some a → a < c.capacity := fun a ha =>
    m.lt_capacity_of_mem (hs ▸ List.mem_append_right front (List.mem_of_head? ha))
  constructor
  case wellFormed =>
    refine ⟨hs' ▸ hnodup, fun a ha => ?_⟩
    have hcapacity : l'.capacity = l.capacity := congrArg Array.size hnodes
    rw [hcapacity]
    rw [hs', List.mem_append, List.mem_cons] at ha
    rcases ha with ha | rfl | ha
    · exact m.wellFormed.lt_capacity a (hs ▸ List.mem_append_left back ha)
    · exact hlt
    · exact m.wellFormed.lt_capacity a (hs ▸ List.mem_append_right front ha)
  case nodes => rw [plainNodes_link, m.nodes, hnodes]
  case first? =>
    rw [first?_link, m.first?, Listing.first?_eq_head?, Listing.first?_eq_head?, hs, hs']
    cases front <;> simp
  case last? =>
    rw [last?_link, m.last?, Listing.last?_eq_getLast?, Listing.last?_eq_getLast?, hs, hs']
    cases back <;> simp
  case length =>
    have hlength : l'.handles.length = l.handles.length + 1 := by
      rw [hs', hs, List.length_append, List.length_append, List.length_cons]
      omega
    rw [length_link, m.length]
    exact hlength.symm
  case contains =>
    intro a
    rw [contains_link hlt', m.contains, Bool.eq_iff_iff, Listing.contains_eq_true_iff, hs']
    by_cases ha : a = h
    · simp [ha]
    · simp [ha, Listing.contains_eq_true_iff, hs]
  case next? =>
    intro a
    rw [next?_link hlt' hprev, m.next?, Listing.next?_eq_follower, Listing.next?_eq_follower, hs',
      follower_insert hnodup, hs]
  case prev? =>
    -- backwards, the node comes in between the reversed parts
    intro a
    rw [prev?_link hlt' hnext, m.prev?, Listing.prev?_eq_follower, Listing.prev?_eq_follower, hs',
      hs, List.reverse_append, List.reverse_append, List.reverse_cons, List.append_assoc,
      List.singleton_append, follower_insert hreverse, List.getLast?_reverse, List.head?_reverse]

/-- A node that is taken out from between two parts of the sequence. -/
theorem unlink (m : c.Mirrors l) (hs : l.handles = front ++ h :: back)
    (hnodes : l'.nodes = l.nodes) (hs' : l'.handles = front ++ back) :
    (c.remove h).Mirrors l' := by
  have hnodup : (front ++ h :: back).Nodup := hs ▸ m.wellFormed.nodup
  have hreverse : (back.reverse ++ h :: front.reverse).Nodup := by
    rw [← List.nodup_reverse] at hnodup
    simpa using hnodup
  have hmem : h ∈ l.handles := by simp [hs]
  have hlt : h < c.capacity := m.lt_capacity_of_mem hmem
  have hh : c.contains h = true := by rw [m.contains, Listing.contains_eq_true_iff]; exact hmem
  obtain ⟨hfront, hback⟩ := not_mem_of_nodup_middle hnodup
  -- what the node keeps are the ends of the two parts
  have hnext? : c.next? h = back.head? := m.next?_of_split hs
  have hprev? : c.prev? h = front.getLast? := m.prev?_of_split hs
  have hprev : ∀ a, c.prev? h = some a → a < c.capacity := fun a ha =>
    m.lt_capacity_of_mem (hs ▸ List.mem_append_left _ (List.mem_of_getLast? (hprev? ▸ ha)))
  have hnext : ∀ a, c.next? h = some a → a < c.capacity := fun a ha =>
    m.lt_capacity_of_mem (hs ▸ List.mem_append_right front
      (List.mem_cons_of_mem h (List.mem_of_head? (hnext? ▸ ha))))
  constructor
  case wellFormed =>
    refine ⟨?_, fun a ha => ?_⟩
    · rw [hs']
      exact (List.nodup_cons.1 (List.nodup_middle.1 hnodup)).2
    · have hcapacity : l'.capacity = l.capacity := congrArg Array.size hnodes
      rw [hcapacity]
      refine m.wellFormed.lt_capacity a ?_
      rw [hs', List.mem_append] at ha
      rw [hs, List.mem_append, List.mem_cons]
      exact ha.imp_right .inr
  case nodes => rw [plainNodes_remove, m.nodes, hnodes]
  case first? =>
    rw [first?_remove hh, hprev?, hnext?, m.first?, Listing.first?_eq_head?,
      Listing.first?_eq_head?, hs, hs']
    cases front <;> simp
  case last? =>
    rw [last?_remove hh, hprev?, hnext?, m.last?, Listing.last?_eq_getLast?,
      Listing.last?_eq_getLast?, hs, hs']
    cases back <;> simp
  case length =>
    have hlength : l.handles.length = l'.handles.length + 1 := by
      rw [hs', hs, List.length_append, List.length_append, List.length_cons]
      omega
    rw [length_remove hh, m.length]
    exact Nat.sub_eq_of_eq_add hlength
  case contains =>
    intro a
    rw [contains_remove hlt hh, m.contains, Bool.eq_iff_iff, Listing.contains_eq_true_iff, hs']
    by_cases ha : a = h
    · simp [ha, hfront, hback]
    · simp [ha, Listing.contains_eq_true_iff, hs]
  case next? =>
    intro a
    rw [next?_remove hlt hh hprev, hprev?, hnext?, m.next?, Listing.next?_eq_follower,
      Listing.next?_eq_follower, hs', hs, follower_erase hnodup]
  case prev? =>
    intro a
    rw [prev?_remove hlt hh hnext, hprev?, hnext?, m.prev?, Listing.prev?_eq_follower,
      Listing.prev?_eq_follower, hs', hs, List.reverse_append, List.reverse_append,
      List.reverse_cons, List.append_assoc, List.singleton_append, follower_erase hreverse,
      List.getLast?_reverse, List.head?_reverse]

end Mirrors

end Chain

end Unscramble
