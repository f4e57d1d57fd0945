import Unscramble.Proofs.Partition
import Unscramble.Proofs.Slot.Reaching
import Unscramble.Slot.Split

/-! # Groups of accesses

Every load is linked with the stores that reach it, so the group of a load has these stores, and a
group is marked as incoming when an argument's first value reaches a load of it. It does not matter what
keeps the sets of accesses, as long as it is lawful.

Main definitions: `Supplies`, `ReadsArgument`, `Linked`, `Linking.Alike`. Main statements:
`linked_foldl`, `exists_group`, `nodup_flatMap_groups`, `groupsBy_eq`. -/

namespace Unscramble.Slot

variable {l : Listing} {b : Body}

/-! ### Accesses -/

/-- Whether an instruction reads or writes a local slot. -/
def accessesSlot (insn : Instruction Label) : Bool :=
  insn.loaded?.isSome || insn.stored?.isSome

/-- What an access tells. -/
theorem of_mem_accesses {a : Access} (ha : a ∈ accesses l) :
    l.handles[a.position]? = some a.handle ∧ a.insn = l.get a.handle ∧
      accessesSlot (l.get a.handle) = true := by
  obtain ⟨⟨h, i⟩, hm, hsome⟩ := List.mem_filterMap.1 ha
  simp only [Option.ite_none_right_eq_some, Option.some.injEq] at hsome
  obtain ⟨haccess, rfl⟩ := hsome
  exact ⟨List.mem_zipIdx_iff_getElem?.1 hm, rfl, haccess⟩

/-- Every instruction that reads or writes a slot is an access. -/
theorem mem_accesses {h : Handle} {i : Nat} (hi : l.handles[i]? = some h)
    (haccess : accessesSlot (l.get h) = true) : ⟨h, i, l.get h⟩ ∈ accesses l := by
  refine List.mem_filterMap.2 ⟨(h, i), List.mem_zipIdx_iff_getElem?.2 hi, ?_⟩
  simp only [accessesSlot] at haccess
  simp only [haccess, if_true]

/-- No handle has two accesses. -/
theorem nodup_map_handle_accesses (wf : l.WellFormed) :
    ((accesses l).map Access.handle).Nodup := by
  have hsublist : ∀ (hs : List Handle) (k : Nat),
      List.Sublist (((hs.zipIdx k).filterMap fun p =>
        if (l.get p.1).loaded?.isSome || (l.get p.1).stored?.isSome then
          some (⟨p.1, p.2, l.get p.1⟩ : Access) else none).map Access.handle) hs := by
    intro hs
    induction hs with
    | nil => intro k; exact List.Sublist.slnil
    | cons h hs ih =>
      intro k
      rw [List.zipIdx_cons, List.filterMap_cons]
      dsimp only
      split
      · next hnone => exact (ih (k + 1)).cons h
      · next a hsome =>
        simp only [Option.ite_none_right_eq_some, Option.some.injEq] at hsome
        obtain ⟨-, rfl⟩ := hsome
        exact (ih (k + 1)).cons_cons h
  exact wf.nodup.sublist (hsublist l.handles 0)

/-! ### Linking loads with stores -/

/-- A store can provide the value that a load reads. -/
def Supplies (g : FlowGraph) (store load : Access) : Prop :=
  ∃ slot, load.insn.loaded? = some slot ∧ store.insn.stored? = some slot ∧
    Flow.isMarked (g.sources slot (load.position + 1)) (store.position + 1) = true

/-- The value that an argument's slot has at first can be the one that a load reads. -/
def ReadsArgument (g : FlowGraph) (firstLocal : Nat) (load : Access) : Prop :=
  ∃ slot, load.insn.loaded? = some slot ∧ slot.toNat < firstLocal ∧
    Flow.isMarked (g.sources slot (load.position + 1)) 0 = true

/-- Some loads are linked with the stores that supply them. -/
structure Linked (g : FlowGraph) (firstLocal : Nat) (all loads : List (Access × Nat))
    (state : Linking Partition) : Prop where
  /-- Every access has a number. -/
  size : state.partition.parent.size = all.length
  /-- A load shares its class with the stores that supply it. -/
  same : ∀ load ∈ loads, ∀ store ∈ all, Supplies g store.1 load.1 →
    state.partition.Same load.2 store.2
  /-- The numbers of the loads that read an argument are noted, and no other number. -/
  incoming : ∀ i, i ∈ state.incoming ↔ ∃ load ∈ loads, load.2 = i ∧
    ReadsArgument g firstLocal load.1

/-- Joining a number with others keeps what is in one class, and puts them all into one. -/
theorem foldl_join {p : Partition} {i : Nat} (stores : List (Access × Nat))
    (hi : i < p.parent.size) (hstores : ∀ s ∈ stores, s.2 < p.parent.size) :
    (stores.foldl (fun p s => p.join i s.2) p).parent.size = p.parent.size ∧
      (∀ a c, p.Same a c → (stores.foldl (fun p s => p.join i s.2) p).Same a c) ∧
      ∀ s ∈ stores, (stores.foldl (fun p s => p.join i s.2) p).Same i s.2 := by
  induction stores generalizing p with
  | nil => exact ⟨rfl, fun _ _ h => h, by simp⟩
  | cons s stores ih =>
    have hs : s.2 < p.parent.size := hstores s (by simp)
    have hsize := p.size_join i s.2
    obtain ⟨hsize', hmono, hsame⟩ := ih (p := p.join i s.2) (by rw [hsize]; exact hi)
      (fun t ht => by rw [hsize]; exact hstores t (by simp [ht]))
    rw [List.foldl_cons]
    refine ⟨hsize'.trans hsize, fun a c h => hmono a c (h.join hi hs), ?_⟩
    intro t ht
    rcases List.mem_cons.1 ht with rfl | ht
    · exact hmono _ _ (Partition.same_join hi hs)
    · exact hsame t ht

section

variable {g : FlowGraph} {firstLocal : Nat} {all loads : List (Access × Nat)}
  {state : Linking Partition} {load : Access × Nat} {slot : UInt16}

/-- Whether a load of a slot reads an argument is marked at the entry of its sources. -/
theorem readsArgument_iff {load : Access} (hslot : load.insn.loaded? = some slot) :
    ReadsArgument g firstLocal load ↔
      Flow.isMarked (g.sources slot (load.position + 1)) 0 = true ∧ slot.toNat < firstLocal := by
  constructor
  · rintro ⟨slot', hslot', hlt, hmarked⟩
    rw [hslot] at hslot'
    cases hslot'
    exact ⟨hmarked, hlt⟩
  · rintro ⟨hmarked, hlt⟩
    exact ⟨slot, hslot, hlt, hmarked⟩

/-- What reads no slot has no stores. -/
theorem Linked.cons_of_none (hlinked : Linked g firstLocal all loads state)
    (hslot : load.1.insn.loaded? = none) : Linked g firstLocal all (load :: loads) state where
  size := hlinked.size
  same a ha store hstore hsupplies := by
    rcases List.mem_cons.1 ha with rfl | ha
    · obtain ⟨slot, hslot', -⟩ := hsupplies
      rw [hslot] at hslot'
      cases hslot'
    · exact hlinked.same a ha store hstore hsupplies
  incoming i := by
    rw [hlinked.incoming i]
    constructor
    · rintro ⟨a, ha, h⟩
      exact ⟨a, List.mem_cons_of_mem load ha, h⟩
    · rintro ⟨a, ha, hi, hreads⟩
      rcases List.mem_cons.1 ha with rfl | ha
      · obtain ⟨slot, hslot', -⟩ := hreads
        rw [hslot] at hslot'
        cases hslot'
      · exact ⟨a, ha, hi, hreads⟩

/-- Linking one more load. -/
theorem Linked.linkLoad (hlinked : Linked g firstLocal all loads state)
    (hnumbers : ∀ a ∈ all, a.2 < all.length) (hload : load ∈ all) :
    Linked g firstLocal all (load :: loads)
      (Slot.linkLoad Partition.unionFind g firstLocal all state load) := by
  have hsize := hlinked.size
  have hnumber : load.2 < state.partition.parent.size := by
    rw [hsize]
    exact hnumbers load hload
  rw [Slot.linkLoad]
  cases hslot : load.1.insn.loaded? with
  | none => exact hlinked.cons_of_none hslot
  | some slot =>
    dsimp only
    obtain ⟨hsize', hmono, hsame⟩ := foldl_join (all.filter fun s => s.1.insn.stored? == some slot &&
        Flow.isMarked (g.sources slot (load.1.position + 1)) (s.1.position + 1)) hnumber
      (fun s hs => by rw [hsize]; exact hnumbers s (List.mem_of_mem_filter hs))
    refine ⟨hsize'.trans hsize, ?_, ?_⟩
    · intro a ha store hstore hsupplies
      rcases List.mem_cons.1 ha with rfl | ha
      · obtain ⟨slot', hslot', hstored, hmarked⟩ := hsupplies
        rw [hslot] at hslot'
        cases hslot'
        refine hsame store (List.mem_filter.2 ⟨hstore, ?_⟩)
        simp [hstored, hmarked]
      · exact hmono _ _ (hlinked.same a ha store hstore hsupplies)
    · intro i
      have hcons : (∃ a ∈ load :: loads, a.2 = i ∧ ReadsArgument g firstLocal a.1) ↔
          load.2 = i ∧ ReadsArgument g firstLocal load.1 ∨ i ∈ state.incoming := by
        rw [hlinked.incoming i]
        simp
      rw [hcons, readsArgument_iff hslot]
      by_cases hin : Flow.isMarked (g.sources slot (load.1.position + 1)) 0 = true ∧
          slot.toNat < firstLocal
      · rw [if_pos (by simpa using hin), List.mem_cons]
        simp only [hin, and_true, eq_comm, and_self]
      · rw [if_neg (by simpa using hin)]
        simp only [hin, and_false, false_or]

end

/-- Linking all loads. -/
theorem linked_foldl {g : FlowGraph} {firstLocal : Nat} {all loads : List (Access × Nat)}
    (hnumbers : ∀ a ∈ all, a.2 < all.length) (hloads : ∀ a ∈ loads, a ∈ all) :
    ∀ (done : List (Access × Nat)) (state : Linking Partition), Linked g firstLocal all done state →
      Linked g firstLocal all (loads.reverse ++ done)
        (loads.foldl (linkLoad Partition.unionFind g firstLocal all) state) := by
  induction loads with
  | nil => exact fun done state h => h
  | cons load loads ih =>
    intro done state h
    rw [List.foldl_cons, List.reverse_cons, List.append_assoc]
    exact ih (fun a ha => hloads a (by simp [ha])) _ _
      (h.linkLoad hnumbers (hloads load (by simp)))

/-! ### Groups -/

/-- The numbers of elements are below the number of them. -/
theorem lt_length_of_mem_zipIdx {α : Type} (xs : List α) :
    ∀ x ∈ xs.zipIdx, x.2 < xs.zipIdx.length := by
  intro x hx
  rw [List.length_zipIdx]
  exact List.snd_lt_of_mem_zipIdx hx

/-- The accesses of a body, linked. -/
def linking (firstLocal : Nat) (b : Body) : Linking Partition :=
  (accesses b.listing).zipIdx.foldl
    (linkLoad Partition.unionFind (FlowGraph.ofBody b) firstLocal (accesses b.listing).zipIdx)
    { partition := Partition.discrete (accesses b.listing).zipIdx.length }

/-- The loads of a body are linked with the stores that supply them. -/
theorem linked_linking (firstLocal : Nat) (b : Body) :
    Linked (FlowGraph.ofBody b) firstLocal (accesses b.listing).zipIdx
      (accesses b.listing).zipIdx.reverse (linking firstLocal b) := by
  have hnumbers := lt_length_of_mem_zipIdx (accesses b.listing)
  have hstart : Linked (FlowGraph.ofBody b) firstLocal (accesses b.listing).zipIdx []
      { partition := Partition.discrete (accesses b.listing).zipIdx.length } := by
    refine ⟨?_, by simp, by simp⟩
    simp [Partition.discrete]
  have hall := linked_foldl hnumbers (fun a ha => ha) [] _ hstart
  rw [List.append_nil] at hall
  exact hall

/-- The group of a class of numbers. -/
def groupOf (firstLocal : Nat) (b : Body) (c : List Nat) : Group where
  members := c.filterMap fun i => (accesses b.listing)[i]?
  incoming := c.any
    (Flow.isMarked (Flow.mark (accesses b.listing).length (linking firstLocal b).incoming))

/-- The groups of a body are those of the classes of its accesses. -/
theorem groups_eq (firstLocal : Nat) (b : Body) :
    groups firstLocal b = (classesBy (linking firstLocal b).partition.root
      (accesses b.listing).length).map (groupOf firstLocal b) := by
  rw [groups, groupsBy, ← List.length_zipIdx (l := accesses b.listing) (i := 0)]
  refine List.map_congr_left ?_
  intro c _
  rw [groupOf]
  congr 1
  · congr 1
    funext i
    rw [List.getElem?_toArray, List.getElem?_zipIdx]
    cases (accesses b.listing)[i]? <;> rfl
  · rw [linking, List.length_zipIdx]

/-- The members of a group are accesses of the body. -/
theorem mem_accesses_of_mem_group {firstLocal : Nat} {g : Group} (hg : g ∈ groups firstLocal b)
    {a : Access} (ha : a ∈ g.members) : a ∈ accesses b.listing := by
  rw [groups_eq] at hg
  obtain ⟨c, -, rfl⟩ := List.mem_map.1 hg
  obtain ⟨i, -, hi⟩ := List.mem_filterMap.1 ha
  exact List.mem_of_getElem? hi

/-- No handle is in two groups, or in one group twice. -/
theorem nodup_flatMap_groups (firstLocal : Nat) (wf : b.listing.WellFormed) :
    ((groups firstLocal b).flatMap fun g => g.members.map Access.handle).Nodup := by
  have hflat : ((groups firstLocal b).flatMap fun g => g.members.map Access.handle) =
      (classesBy (linking firstLocal b).partition.root
        (accesses b.listing).length).flatten.filterMap fun i =>
          ((accesses b.listing).map Access.handle)[i]? := by
    rw [groups_eq, List.filterMap_flatten, List.flatMap_map, List.flatMap_def]
    congr 1
    refine List.map_congr_left ?_
    intro c _
    rw [groupOf, List.map_filterMap]
    congr 1
    funext i
    rw [List.getElem?_map]
  rw [hflat]
  refine List.Nodup.filterMap ?_ (nodup_flatten_classesBy _ _)
  intro i j h hi hj
  have hlt := (List.getElem?_eq_some_iff.1 hi).1
  exact (List.getElem?_inj hlt (nodup_map_handle_accesses wf)).1 (hi.trans hj.symm)

/-- Two groups with a handle in common are the same. -/
theorem group_unique {firstLocal : Nat} (wf : b.listing.WellFormed) {g g' : Group}
    (hg : g ∈ groups firstLocal b) (hg' : g' ∈ groups firstLocal b) {a a' : Access}
    (ha : a ∈ g.members) (ha' : a' ∈ g'.members) (heq : a.handle = a'.handle) : g = g' := by
  by_contra hne
  have hdisjoint := (List.nodup_flatMap.1 (nodup_flatMap_groups firstLocal wf)).2
  have hsymm : Std.Symm (Function.onFun List.Disjoint fun g : Group =>
      g.members.map Access.handle) := ⟨fun x y hxy a ha hb => hxy hb ha⟩
  have hleft : a.handle ∈ g.members.map Access.handle := List.mem_map_of_mem ha
  have hright : a.handle ∈ g'.members.map Access.handle := heq ▸ List.mem_map_of_mem ha'
  exact hdisjoint.forall hg hg' hne hleft hright

/-- Each load has a group with the stores that supply it, which is marked as incoming if the load
reads an argument. -/
theorem exists_group (firstLocal : Nat) {a : Access} (ha : a ∈ accesses b.listing) :
    ∃ g ∈ groups firstLocal b, a ∈ g.members ∧
      (∀ s ∈ accesses b.listing, Supplies (FlowGraph.ofBody b) s a → s ∈ g.members) ∧
      (ReadsArgument (FlowGraph.ofBody b) firstLocal a → g.incoming = true) := by
  have hlinked := linked_linking firstLocal b
  obtain ⟨i, hi⟩ := List.mem_iff_getElem?.1 ha
  have hmem : (a, i) ∈ (accesses b.listing).zipIdx := List.mem_zipIdx_iff_getElem?.2 hi
  have hilt : i < (accesses b.listing).length := (List.getElem?_eq_some_iff.1 hi).1
  obtain ⟨c, hc, hclass⟩ := @exists_mem_classesBy (linking firstLocal b).partition.root _ i hilt
  have hic : i ∈ c := (hclass i).2 ⟨hilt, rfl⟩
  -- The group is made of the class of the load, which the linking has joined with those of its
  -- stores.
  refine ⟨groupOf firstLocal b c, ?_, List.mem_filterMap.2 ⟨i, hic, hi⟩, ?_, ?_⟩
  · rw [groups_eq]
    exact List.mem_map_of_mem hc
  · intro s hs hsupplies
    obtain ⟨j, hj⟩ := List.mem_iff_getElem?.1 hs
    have hjlt : j < (accesses b.listing).length := (List.getElem?_eq_some_iff.1 hj).1
    have hsame := hlinked.same (a, i) (List.mem_reverse.2 hmem) (s, j)
      (List.mem_zipIdx_iff_getElem?.2 hj) hsupplies
    exact List.mem_filterMap.2 ⟨j, (hclass j).2 ⟨hjlt, hsame.symm⟩, hj⟩
  · intro hreads
    refine List.any_eq_true.2 ⟨i, hic, Flow.isMarked_mark.2 ⟨?_, hilt⟩⟩
    exact (hlinked.incoming i).2 ⟨(a, i), List.mem_reverse.2 hmem, rfl, hreads⟩

/-- A group that is marked as incoming has a load of an argument. -/
theorem exists_readsArgument {firstLocal : Nat} {g : Group} (hg : g ∈ groups firstLocal b)
    (hin : g.incoming = true) :
    ∃ a ∈ g.members, ReadsArgument (FlowGraph.ofBody b) firstLocal a := by
  have hlinked := linked_linking firstLocal b
  rw [groups_eq] at hg
  obtain ⟨c, -, rfl⟩ := List.mem_map.1 hg
  obtain ⟨i, hic, hmarked⟩ := List.any_eq_true.1 hin
  obtain ⟨⟨a, j⟩, hmem, rfl, hreads⟩ := (hlinked.incoming i).1 (Flow.isMarked_mark.1 hmarked).1
  refine ⟨a, List.mem_filterMap.2 ⟨j, hic, ?_⟩, hreads⟩
  exact List.mem_zipIdx_iff_getElem?.1 (List.mem_reverse.1 hmem)

/-! ### Whatever keeps the sets -/

variable {U : UnionFind}

/-- Two linkings tell the same sets and the same loads of arguments. -/
structure Linking.Alike (U : UnionFind) (size : Nat) (state : Linking U.State)
    (state' : Linking Partition) : Prop where
  /-- The sets are the same. -/
  partition : U.Alike Partition.unionFind size state.partition state'.partition
  /-- The loads are the same. -/
  incoming : state.incoming = state'.incoming

/-- Linking a load keeps linkings alike. -/
theorem Linking.Alike.linkLoad (hU : U.Lawful) (g : FlowGraph) (firstLocal : Nat)
    {all : List (Access × Nat)} (hnumbers : ∀ a ∈ all, a.2 < all.length) {load : Access × Nat}
    (hload : load ∈ all) {state : Linking U.State} {state' : Linking Partition}
    (h : state.Alike U all.length state') :
    (Slot.linkLoad U g firstLocal all state load).Alike U all.length
      (Slot.linkLoad Partition.unionFind g firstLocal all state' load) := by
  rw [Slot.linkLoad, Slot.linkLoad]
  cases load.1.insn.loaded? with
  | none => exact h
  | some slot =>
    dsimp only
    refine ⟨?_, by dsimp only; rw [h.incoming]⟩
    -- the links are those of the load with each of its stores
    rw [← List.foldl_map (f := fun x : Access × Nat => (load.2, x.2)) (g := fun s x =>
        U.join s x.1 x.2),
      ← List.foldl_map (f := fun x : Access × Nat => (load.2, x.2)) (g := fun s x =>
        Partition.unionFind.join s x.1 x.2)]
    refine h.partition.foldl_join hU Partition.lawful_unionFind ?_
    intro link hlink
    obtain ⟨store, hstore, rfl⟩ := List.mem_map.1 hlink
    exact ⟨hnumbers load hload, hnumbers store (List.mem_of_mem_filter hstore)⟩

/-- Linking all loads keeps linkings alike. -/
theorem Linking.Alike.foldl_linkLoad (hU : U.Lawful) (g : FlowGraph) (firstLocal : Nat)
    {all loads : List (Access × Nat)} (hnumbers : ∀ a ∈ all, a.2 < all.length)
    (hloads : ∀ a ∈ loads, a ∈ all) {state : Linking U.State} {state' : Linking Partition}
    (h : state.Alike U all.length state') :
    (loads.foldl (Slot.linkLoad U g firstLocal all) state).Alike U all.length
      (loads.foldl (Slot.linkLoad Partition.unionFind g firstLocal all) state') := by
  induction loads generalizing state state' with
  | nil => exact h
  | cons load loads ih =>
    obtain ⟨hload, hloads⟩ := List.forall_mem_cons.1 hloads
    exact ih hloads (h.linkLoad hU g firstLocal hnumbers hload)

/-- The groups of a body are the same, whatever keeps the sets. -/
theorem groupsBy_eq (hU : U.Lawful) (firstLocal : Nat) (b : Body) :
    groupsBy U firstLocal b = groups firstLocal b := by
  have hnumbers := lt_length_of_mem_zipIdx (accesses b.listing)
  rw [groups, groupsBy, groupsBy]
  generalize (accesses b.listing).zipIdx = all at hnumbers
  have hstart : Linking.Alike U all.length { partition := U.discrete all.length }
      { partition := Partition.discrete all.length } :=
    ⟨.discrete hU Partition.lawful_unionFind _, rfl⟩
  have halike := hstart.foldl_linkLoad hU (FlowGraph.ofBody b) firstLocal hnumbers fun _ h => h
  dsimp only
  rw [classesBy_congr halike.partition.root_eq_iff, halike.incoming]

/-- Splitting gives the same, whatever keeps the sets. -/
theorem splitBy_eq (hU : U.Lawful) (method : Method) (b : Body) :
    splitBy U method b = split method b := by
  rw [split, splitBy, splitBy, groupsBy_eq hU]

/-- Splitting in place does the same, whatever keeps the sets. -/
theorem splitInPlaceBy_eq (hU : U.Lawful) (method : Method) :
    splitInPlaceBy U method = splitInPlace method := by
  rw [splitInPlace, splitInPlaceBy, splitInPlaceBy]
  simp only [groupsBy_eq hU]

end Unscramble.Slot
