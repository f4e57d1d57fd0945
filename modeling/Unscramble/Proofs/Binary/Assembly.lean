import Unscramble.Binary.Body
import Unscramble.Proofs.Binary.Reading
import Unscramble.Proofs.Listing

/-! # Assembled listings

A listing is assembled in two rounds. The first makes the nodes: a label is made once for each
offset, and an instruction when its labels are there. The second links them: in front of each
instruction stand the label and the line markers of its offset, and behind the last one those of the
end.

Main definitions: `Building`, `Marks`, `Spine`, `Assembled`. Main statements: `assembled_of_assemble`,
`assemble_isOk`. -/

namespace Unscramble

/-- Labels that are replaced alike give the same instruction. -/
theorem Instruction.map_congr {L M : Type} {f g : L → M} {insn : Instruction L}
    (h : ∀ t ∈ insn.mentioned, f t = g t) : insn.map f = insn.map g := by
  cases insn with
  | jump op target =>
    have htarget : f target = g target := h target (by simp [mentioned])
    rw [map, map, htarget]
  | tableSwitch low high otherwise targets =>
    have hfirst : f otherwise = g otherwise := h otherwise (by simp [mentioned])
    have hrest : targets.map f = targets.map g :=
      List.map_congr_left fun t ht => h t (by simp [mentioned, ht])
    rw [map, map, hfirst, hrest]
  | lookupSwitch otherwise keyed =>
    have hfirst : f otherwise = g otherwise := h otherwise (by simp [mentioned])
    have hrest : keyed.map (fun c => (c.1, f c.2)) = keyed.map fun c => (c.1, g c.2) := by
      refine List.map_congr_left fun c hc => ?_
      rw [h c.2 (List.mem_cons_of_mem _ (List.mem_map_of_mem hc))]
    rw [map, map, hfirst]
    exact congrArg _ hrest
  | _ => rfl

/-- Renaming labels leaves an instruction real. -/
theorem Instruction.isReal_map {L M : Type} (f : L → M) (insn : Instruction L) :
    (insn.map f).isReal = insn.isReal := by
  cases insn <;> rfl

namespace Binary

/-! ### Making nodes -/

/-- A listing whose nodes are being made: the labels that were met and the nodes of the instructions
that were met, given where labels may stand. -/
structure Building (length : Nat) (allowed : Nat → Prop) (code : List Located) (a : Assembly)
    (placed : List (Nat × Handle)) : Prop where
  /-- Nothing is linked. -/
  unlinked : a.listing.order = #[]
  /-- There is room for a label at every offset. -/
  size : a.labels.size = length + 1
  /-- A label is the handle of a label node. -/
  label : ∀ o h, a.label? o = some h → a.listing.nodes[h]? = some ⟨.label, none⟩
  /-- No label stands for two offsets. -/
  injective : ∀ o o' h, a.label? o = some h → a.label? o' = some h → o = o'
  /-- Labels stand only where they may. -/
  allowed : ∀ o h, a.label? o = some h → allowed o
  /-- The labels of an instruction were made. -/
  mentioned : ∀ i ∈ code, ∀ t ∈ i.insn.mentioned, (a.label? t).isSome
  /-- Each instruction has a node, last first. -/
  nodes : List.Forall₂ (fun i p => p.1 = i.offset ∧
    a.listing.nodes[p.2]? = some ⟨i.insn.map a.resolve, some i.raw⟩) code placed.reverse
  /-- No node holds two instructions. -/
  nodup : (placed.map (·.2)).Nodup

namespace Assembly

/-- No label is known at first. -/
theorem label?_start (length o : Nat) : (Assembly.start length).label? o = none := by
  rw [label?, start, Array.getElem?_replicate]
  split <;> rfl

/-- A label that is noted is known at its offset, and all others as before. -/
theorem label?_setIfInBounds (labels : Array (Option Label)) (listing : Listing) {o : Nat}
    (ho : o < labels.size) (l : Label) (o' : Nat) :
    label? ⟨listing, labels.setIfInBounds o (some l)⟩ o' =
      if o = o' then some l else labels[o']?.join := by
  rw [label?, Array.getElem?_setIfInBounds]
  split
  · rfl
  · rfl

end Assembly

variable {length : Nat} {allowed : Nat → Prop} {code : List Located} {a : Assembly}
  {placed : List (Nat × Handle)}

/-- Nothing is built at first. -/
theorem building_start (length : Nat) (allowed : Nat → Prop) :
    Building length allowed [] (Assembly.start length) [] where
  unlinked := rfl
  size := by simp [Assembly.start]
  label := by simp [Assembly.label?_start]
  injective := by simp [Assembly.label?_start]
  allowed := by simp [Assembly.label?_start]
  mentioned := by simp
  nodes := .nil
  nodup := List.nodup_nil

/-- A node that is there stays when another one is made. -/
theorem getElem?_push_of_some {nodes : Array Node} {h : Handle} {node : Node}
    (hnode : nodes[h]? = some node) (node' : Node) : (nodes.push node')[h]? = some node := by
  obtain ⟨hlt, hget⟩ := Array.getElem?_eq_some_iff.1 hnode
  rw [Array.getElem?_push_lt hlt, hget]

/-- A node that is there is below the size. -/
theorem lt_size_of_getElem?_eq_some {nodes : Array Node} {h : Handle} {node : Node}
    (hnode : nodes[h]? = some node) : h < nodes.size :=
  (Array.getElem?_eq_some_iff.1 hnode).1

/-- Everything that was made before is still there. -/
structure Keeps (a a' : Assembly) : Prop where
  /-- The nodes stay. -/
  nodes : ∀ (h : Handle) node, a.listing.nodes[h]? = some node → a'.listing.nodes[h]? = some node
  /-- The labels stay. -/
  labels : ∀ o l, a.label? o = some l → a'.label? o = some l

/-- An assembly keeps what it has. -/
theorem Keeps.refl (a : Assembly) : Keeps a a :=
  ⟨fun _ _ h => h, fun _ _ h => h⟩

/-- What keeps what another assembly keeps keeps what that one has. -/
theorem Keeps.trans {a a' a'' : Assembly} (h : Keeps a a') (h' : Keeps a' a'') : Keeps a a'' :=
  ⟨fun k n hn => h'.nodes k n (h.nodes k n hn), fun o l hl => h'.labels o l (h.labels o l hl)⟩

/-- Labels that are known stay known. -/
theorem Keeps.isSome {a a' : Assembly} (h : Keeps a a') {o : Nat} (ho : (a.label? o).isSome) :
    (a'.label? o).isSome := by
  obtain ⟨l, hl⟩ := Option.isSome_iff_exists.1 ho
  rw [h.labels o l hl]
  rfl

/-- An instruction whose labels were made is resolved to the same one later. -/
theorem Keeps.map_resolve {a a' : Assembly} (h : Keeps a a') {insn : Instruction Nat}
    (hmentioned : ∀ t ∈ insn.mentioned, (a.label? t).isSome) :
    insn.map a'.resolve = insn.map a.resolve := by
  refine Instruction.map_congr fun t ht => ?_
  obtain ⟨l, hl⟩ := Option.isSome_iff_exists.1 (hmentioned t ht)
  rw [Assembly.resolve, Assembly.resolve, hl, h.labels t l hl]

/-- The nodes of instructions stay what they are. -/
theorem Keeps.forall₂_nodes {a a' : Assembly} (h : Keeps a a')
    (hmentioned : ∀ i ∈ code, ∀ t ∈ i.insn.mentioned, (a.label? t).isSome)
    {pairs : List (Nat × Handle)} (hnodes : List.Forall₂ (fun i p => p.1 = i.offset ∧
      a.listing.nodes[p.2]? = some ⟨i.insn.map a.resolve, some i.raw⟩) code pairs) :
    List.Forall₂ (fun i p => p.1 = i.offset ∧
      a'.listing.nodes[p.2]? = some ⟨i.insn.map a'.resolve, some i.raw⟩) code pairs := by
  induction hnodes with
  | nil => exact .nil
  | @cons i p code pairs hfirst _ ih =>
    refine .cons ⟨hfirst.1, ?_⟩ (ih fun j hj => hmentioned j (List.mem_cons_of_mem _ hj))
    rw [h.map_resolve (hmentioned i List.mem_cons_self)]
    exact h.nodes _ _ hfirst.2

/-- A label that is not there yet is a new node. -/
theorem Assembly.addLabel_of_none {o : Nat} (h : a.label? o = none) :
    a.addLabel o = ⟨{ a.listing with nodes := a.listing.nodes.push ⟨.label, none⟩ },
      a.labels.setIfInBounds o (some a.listing.nodes.size)⟩ := by
  rw [Assembly.addLabel, h]
  rfl

/-- Making a label keeps what was made, and the offset has a label then. -/
theorem Building.addLabel (h : Building length allowed code a placed) {o : Nat} (ho : o ≤ length)
    (hallowed : allowed o) :
    Building length allowed code (a.addLabel o) placed ∧ ((a.addLabel o).label? o).isSome ∧
      Keeps a (a.addLabel o) := by
  cases hlabel : a.label? o with
  | some l =>
    have hsame : a.addLabel o = a := by rw [Assembly.addLabel, hlabel]
    rw [hsame, hlabel]
    exact ⟨h, rfl, Keeps.refl a⟩
  | none =>
    rw [Assembly.addLabel_of_none hlabel]
    have hroom : o < a.labels.size := by
      rw [h.size]
      omega
    have hlabel? := fun (listing : Listing) =>
      Assembly.label?_setIfInBounds a.labels listing hroom a.listing.nodes.size
    -- The new handle is greater than every handle of a label so far.
    have hnew : ∀ o' l, a.label? o' = some l → l ≠ a.listing.nodes.size :=
      fun o' l hl => Nat.ne_of_lt (lt_size_of_getElem?_eq_some (h.label o' l hl))
    have hkeeps : Keeps a ⟨{ a.listing with nodes := a.listing.nodes.push ⟨.label, none⟩ },
        a.labels.setIfInBounds o (some a.listing.nodes.size)⟩ := by
      refine ⟨fun k node hnode => getElem?_push_of_some hnode _, fun o' l hl => ?_⟩
      have hne : o ≠ o' := by
        rintro rfl
        rw [hlabel] at hl
        cases hl
      rw [hlabel?, if_neg hne]
      exact hl
    refine ⟨⟨h.unlinked, ?_, ?_, ?_, ?_, ?_, ?_, h.nodup⟩, ?_, hkeeps⟩
    · rw [Array.size_setIfInBounds, h.size]
    · intro o' l hl
      rw [hlabel?] at hl
      split at hl
      · cases hl
        exact Array.getElem?_push_size
      · exact hkeeps.nodes l _ (h.label o' l hl)
    · intro o₁ o₂ l h₁ h₂
      rw [hlabel?] at h₁ h₂
      split at h₁ <;> split at h₂
      · omega
      · cases h₁
        exact absurd rfl (hnew o₂ _ h₂)
      · cases h₂
        exact absurd rfl (hnew o₁ _ h₁)
      · exact h.injective o₁ o₂ l h₁ h₂
    · intro o' l hl
      rw [hlabel?] at hl
      split at hl
      · next heq => exact heq ▸ hallowed
      · exact h.allowed o' l hl
    · intro i hi t ht
      exact hkeeps.isSome (h.mentioned i hi t ht)
    · exact hkeeps.forall₂_nodes h.mentioned h.nodes
    · rw [hlabel?, if_pos rfl]
      rfl

/-- Making labels keeps what was made, and all their offsets have labels then. -/
theorem Building.foldl_addLabel (h : Building length allowed code a placed) {offsets : List Nat}
    (hoffsets : ∀ o ∈ offsets, o ≤ length ∧ allowed o) :
    Building length allowed code (offsets.foldl Assembly.addLabel a) placed ∧
      (∀ o ∈ offsets, ((offsets.foldl Assembly.addLabel a).label? o).isSome) ∧
      Keeps a (offsets.foldl Assembly.addLabel a) := by
  induction offsets generalizing a with
  | nil => exact ⟨h, by simp, Keeps.refl a⟩
  | cons o offsets ih =>
    obtain ⟨hle, hallowed⟩ := hoffsets o List.mem_cons_self
    obtain ⟨hbuild, hsome, hkeeps⟩ := h.addLabel hle hallowed
    obtain ⟨hbuild', hsome', hkeeps'⟩ :=
      ih hbuild fun o' ho' => hoffsets o' (List.mem_cons_of_mem _ ho')
    refine ⟨hbuild', ?_, hkeeps.trans hkeeps'⟩
    intro o' ho'
    rcases List.mem_cons.1 ho' with rfl | ho'
    · exact hkeeps'.isSome hsome
    · exact hsome' o' ho'

/-- The node of an instruction is made with its encoding. -/
theorem setRawForm_create (l : Listing) (insn : Instruction Label) (raw : RawForm) :
    (l.create insn).2.setRawForm (l.create insn).1 raw =
      { l with nodes := l.nodes.push ⟨insn, some raw⟩ } := by
  have hnodes : (l.nodes.push ⟨insn, none⟩).modify l.nodes.size
      (fun node => { node with raw := some raw }) = l.nodes.push ⟨insn, some raw⟩ := by
    apply Array.ext
    · simp
    · intro i hi hi'
      rw [Array.getElem_modify, Array.getElem_push, Array.getElem_push]
      rw [Array.size_push] at hi'
      split <;> split <;> first | rfl | omega
  rw [Listing.setRawForm, Listing.create, hnodes]

/-- An instruction is made after its labels. -/
theorem Building.addInstruction (h : Building length allowed code a placed) {i : Located}
    (hi : ∀ t ∈ i.insn.mentioned, t ≤ length ∧ allowed t) :
    Building length allowed (code ++ [i]) (Assembly.addInstruction (a, placed) i).1
        (Assembly.addInstruction (a, placed) i).2 ∧
      Keeps a (Assembly.addInstruction (a, placed) i).1 := by
  obtain ⟨hbuild, hsome, hkeeps⟩ := h.foldl_addLabel hi
  generalize ha' : i.insn.mentioned.foldl Assembly.addLabel a = a' at hbuild hsome hkeeps
  have hstep : Assembly.addInstruction (a, placed) i =
      ({ a' with listing :=
          { a'.listing with nodes := a'.listing.nodes.push ⟨i.insn.map a'.resolve, some i.raw⟩ } },
        (i.offset, a'.listing.nodes.size) :: placed) := by
    rw [Assembly.addInstruction, ← setRawForm_create, ← ha']
    rfl
  rw [hstep]
  have hkeeps' : Keeps a' { a' with listing :=
      { a'.listing with nodes := a'.listing.nodes.push ⟨i.insn.map a'.resolve, some i.raw⟩ } } :=
    ⟨fun k node hnode => getElem?_push_of_some hnode _, fun o l hl => hl⟩
  have hmentioned : ∀ j ∈ code ++ [i], ∀ t ∈ j.insn.mentioned, (a'.label? t).isSome := by
    intro j hj
    rcases List.mem_append.1 hj with hj | hj
    · exact hbuild.mentioned j hj
    · rw [List.mem_singleton.1 hj]
      exact hsome
  refine ⟨⟨hbuild.unlinked, hbuild.size, ?_, hbuild.injective, hbuild.allowed, hmentioned, ?_, ?_⟩,
    hkeeps.trans hkeeps'⟩
  · intro o l hl
    exact hkeeps'.nodes l _ (hbuild.label o l hl)
  · rw [List.reverse_cons]
    refine List.rel_append (hkeeps'.forall₂_nodes hbuild.mentioned hbuild.nodes) (.cons ⟨rfl, ?_⟩ .nil)
    exact Array.getElem?_push_size
  · -- The new handle is greater than those of the instructions before.
    rw [List.map_cons, List.nodup_cons]
    refine ⟨?_, hbuild.nodup⟩
    intro hmem
    obtain ⟨p, hp, hsize⟩ := List.mem_map.1 hmem
    obtain ⟨j, -, hj⟩ := exists_of_mem_right hbuild.nodes (List.mem_reverse.2 hp)
    have hlt := lt_size_of_getElem?_eq_some hj.2
    rw [hsize] at hlt
    exact absurd hlt (Nat.lt_irrefl _)

/-- All instructions are made one after the other. -/
theorem Building.foldl_addInstruction (h : Building length allowed code a placed)
    {rest : List Located} (hrest : ∀ i ∈ rest, ∀ t ∈ i.insn.mentioned, t ≤ length ∧ allowed t) :
    Building length allowed (code ++ rest) (rest.foldl Assembly.addInstruction (a, placed)).1
        (rest.foldl Assembly.addInstruction (a, placed)).2 ∧
      Keeps a (rest.foldl Assembly.addInstruction (a, placed)).1 := by
  induction rest generalizing code a placed with
  | nil =>
    rw [List.append_nil]
    exact ⟨h, Keeps.refl a⟩
  | cons i rest ih =>
    obtain ⟨hbuild, hkeeps⟩ := h.addInstruction (hrest i List.mem_cons_self)
    obtain ⟨hbuild', hkeeps'⟩ := ih hbuild fun j hj => hrest j (List.mem_cons_of_mem _ hj)
    rw [List.append_assoc] at hbuild'
    exact ⟨hbuild', hkeeps.trans hkeeps'⟩

/-! ### Linking -/

/-- What stands in front of an instruction: a label that may be absent, and line markers, whose nodes
are those from `lo` up to `hi`. -/
structure Marks (nodes : Array Node) (label : Option Label) (lo hi : Nat) (marks : List Handle) :
    Prop where
  /-- The nodes are made one after the other. -/
  le : lo ≤ hi
  /-- The label comes first. -/
  eq : marks = label.toList ++ List.range' lo (hi - lo)
  /-- The nodes are line markers. -/
  lines : ∀ h, lo ≤ h → h < hi → ∃ n, nodes[h]? = some ⟨.line n, none⟩

/-- A sequence of instructions at their offsets, with what stands in front of each and behind the
last. -/
inductive Spine (nodes : Array Node) (label? : Nat → Option Label) (length : Nat) :
    (lo hi : Nat) → List (Nat × Handle) → List Handle → Prop
  /-- What stands behind the last instruction. -/
  | nil {lo hi : Nat} {marks : List Handle} (h : Marks nodes (label? length) lo hi marks) :
      Spine nodes label? length lo hi [] marks
  /-- An instruction behind what stands in front of it. -/
  | cons {lo mid hi : Nat} {p : Nat × Handle} {rest : List (Nat × Handle)}
      {marks handles : List Handle} (h : Marks nodes (label? p.1) lo mid marks)
      (hrest : Spine nodes label? length mid hi rest handles) :
      Spine nodes label? length lo hi (p :: rest) (marks ++ p.2 :: handles)

/-- Nodes that are there stay. -/
def NodesKept (nodes nodes' : Array Node) : Prop :=
  nodes.size ≤ nodes'.size ∧
    ∀ (h : Handle) node, nodes[h]? = some node → nodes'[h]? = some node

/-- Nodes that are kept from nodes that are kept from others are kept from those. -/
theorem NodesKept.trans {n₁ n₂ n₃ : Array Node} (h : NodesKept n₁ n₂) (h' : NodesKept n₂ n₃) :
    NodesKept n₁ n₃ :=
  ⟨h.1.trans h'.1, fun k node hk => h'.2 k node (h.2 k node hk)⟩

/-- Marks are those of greater nodes as well. -/
theorem Marks.mono {nodes nodes' : Array Node} {label : Option Label} {lo hi : Nat}
    {marks : List Handle} (h : Marks nodes label lo hi marks) (hkept : NodesKept nodes nodes') :
    Marks nodes' label lo hi marks := by
  refine ⟨h.le, h.eq, ?_⟩
  intro k hlo hhi
  obtain ⟨n, hn⟩ := h.lines k hlo hhi
  exact ⟨n, hkept.2 k _ hn⟩

/-- Line markers are pushed one after the other. -/
theorem foldl_push_line (ns : List UInt16) (l : Listing) :
    (ns.foldl (fun l n => (l.push (.line n)).2) l).handles =
        l.handles ++ List.range' l.nodes.size ns.length ∧
      (ns.foldl (fun l n => (l.push (.line n)).2) l).nodes.size = l.nodes.size + ns.length ∧
      NodesKept l.nodes (ns.foldl (fun l n => (l.push (.line n)).2) l).nodes ∧
      ∀ h, l.nodes.size ≤ h → h < l.nodes.size + ns.length → ∃ n,
        (ns.foldl (fun l n => (l.push (.line n)).2) l).nodes[h]? = some ⟨.line n, none⟩ := by
  -- Induction on the numbers, for every listing they are pushed to: the first push shifts all the
  -- bounds by one node.
  induction ns generalizing l with
  | nil =>
    refine ⟨by simp, rfl, ⟨Nat.le_refl _, fun _ _ h => h⟩, ?_⟩
    intro h hlow hhigh
    exact absurd hhigh (Nat.not_lt.2 hlow)
  | cons n ns ih =>
    obtain ⟨hhandles, hsize, hkept, hlines⟩ := ih (l.push (.line n)).2
    have hpushed : (l.push (.line n)).2.nodes = l.nodes.push ⟨.line n, none⟩ := rfl
    have horder : (l.push (.line n)).2.handles = l.handles ++ [l.nodes.size] := by
      rw [Listing.handles, Listing.handles]
      exact Array.toList_push
    rw [hpushed, Array.size_push] at hhandles hsize hlines
    rw [hpushed] at hkept
    have hkept' : NodesKept l.nodes (l.nodes.push ⟨.line n, none⟩) :=
      ⟨by simp, fun k node hk => getElem?_push_of_some hk _⟩
    rw [List.foldl_cons, List.length_cons]
    refine ⟨?_, by rw [hsize]; omega, hkept'.trans hkept, ?_⟩
    · rw [hhandles, horder, List.append_assoc, List.range'_succ]
      rfl
    · intro h hlow hhigh
      rcases Nat.eq_or_lt_of_le hlow with rfl | hlow
      · exact ⟨n, hkept.2 _ _ Array.getElem?_push_size⟩
      · exact hlines h hlow (by omega)

/-- The marks of an offset are linked behind what is linked. -/
theorem placeMarkers_spec (lines : Array (List UInt16)) (a : Assembly) (o : Nat) :
    ∃ marks, (a.placeMarkers lines o).listing.handles = a.listing.handles ++ marks ∧
      (a.placeMarkers lines o).labels = a.labels ∧
      NodesKept a.listing.nodes (a.placeMarkers lines o).listing.nodes ∧
      Marks (a.placeMarkers lines o).listing.nodes (a.label? o) a.listing.nodes.size
        (a.placeMarkers lines o).listing.nodes.size marks := by
  -- Linking the label changes the order only, pushing the line markers both the order and the
  -- nodes.
  have hlabel : ((a.label? o).toList.foldl Listing.append a.listing).handles =
      a.listing.handles ++ (a.label? o).toList := by
    cases a.label? o with
    | none => simp
    | some l =>
      rw [Listing.handles, Listing.handles]
      exact Array.toList_push
  have hnodes : ((a.label? o).toList.foldl Listing.append a.listing).nodes = a.listing.nodes := by
    cases a.label? o <;> rfl
  obtain ⟨hhandles, hsize, hkept, hlines⟩ := foldl_push_line ((lines[o]?).getD [])
    ((a.label? o).toList.foldl Listing.append a.listing)
  rw [hlabel, hnodes] at hhandles
  rw [hnodes] at hsize hkept hlines
  refine ⟨(a.label? o).toList ++ List.range' a.listing.nodes.size ((lines[o]?).getD []).length,
    ?_, rfl, hkept, ?_⟩
  · rw [Assembly.placeMarkers]
    rw [hhandles, List.append_assoc]
  · refine ⟨hkept.1, ?_, ?_⟩
    · rw [Assembly.placeMarkers, hsize, Nat.add_sub_cancel_left]
    · intro h hlow hhigh
      rw [Assembly.placeMarkers, hsize] at hhigh
      exact hlines h hlow hhigh

/-- All instructions are linked behind what is linked, each behind its marks. -/
theorem foldl_place_spec (lines : Array (List UInt16)) (length : Nat) (a : Assembly)
    (pairs : List (Nat × Handle)) :
    let done := (pairs.foldl (Assembly.place lines) a).placeMarkers lines length
    ∃ handles, done.listing.handles = a.listing.handles ++ handles ∧
      NodesKept a.listing.nodes done.listing.nodes ∧
      Spine done.listing.nodes a.label? length a.listing.nodes.size done.listing.nodes.size pairs
        handles := by
  -- On the pairs, for every assembly reached so far: a step moves the end of the nodes, and the
  -- labels stay.
  induction pairs generalizing a with
  | nil =>
    obtain ⟨marks, hhandles, -, hkept, hmarks⟩ := placeMarkers_spec lines a length
    exact ⟨marks, hhandles, hkept, .nil hmarks⟩
  | cons p pairs ih =>
    obtain ⟨marks, hhandles, hlabels, hkept, hmarks⟩ := placeMarkers_spec lines a p.1
    obtain ⟨rest, hrest, hkept', hspine⟩ := ih (a.place lines p)
    have hnodes : (a.place lines p).listing.nodes = (a.placeMarkers lines p.1).listing.nodes := rfl
    have hlabel? : (a.place lines p).label? = a.label? := by
      funext o
      rw [Assembly.label?, Assembly.label?, Assembly.place, hlabels]
    have horder : (a.place lines p).listing.handles =
        a.listing.handles ++ (marks ++ [p.2]) := by
      rw [← List.append_assoc, ← hhandles]
      exact Array.toList_push
    rw [hnodes] at hkept' hspine
    rw [hlabel?] at hspine
    refine ⟨marks ++ p.2 :: rest, ?_, hkept.trans hkept', .cons (hmarks.mono hkept') hspine⟩
    rw [List.foldl_cons, hrest, horder]
    simp

/-! ### Where labels can stand -/

/-- An offset is marked if an instruction starts there or if it was marked before. -/
theorem getElem?_foldl_mark (code : List Located) (marks : Array Bool) {o : Nat}
    (ho : o < marks.size) :
    (code.foldl (fun marks i => marks.setIfInBounds i.offset true) marks)[o]? =
      if o ∈ code.map (·.offset) then some true else marks[o]? := by
  induction code generalizing marks with
  | nil => simp
  | cons i code ih =>
    rw [List.foldl_cons, ih _ (by simpa using ho), Array.getElem?_setIfInBounds, List.map_cons]
    by_cases hi : i.offset = o
    · simp [hi, ho]
    · have hne : ¬o = i.offset := fun h => hi h.symm
      simp [hi, hne]

/-- Marking the starts of instructions adds no place. -/
theorem size_foldl_mark (code : List Located) (marks : Array Bool) :
    (code.foldl (fun marks i => marks.setIfInBounds i.offset true) marks).size = marks.size := by
  induction code generalizing marks with
  | nil => rfl
  | cons i code ih => rw [List.foldl_cons, ih, Array.size_setIfInBounds]

/-- A label can stand where an instruction starts and at the end. -/
theorem getElem?_starts_iff {length o : Nat} (ho : o ≤ length) (code : List Located) :
    (starts length code)[o]? = some true ↔ o ∈ code.map (·.offset) ∨ o = length := by
  have hsize : o < (Array.replicate (length + 1) false).size := by
    rw [Array.size_replicate]
    omega
  rw [starts, Array.getElem?_setIfInBounds, size_foldl_mark, getElem?_foldl_mark code _ hsize]
  by_cases hend : length = o
  · simp [hend]
  · have hne : ¬o = length := fun h => hend h.symm
    by_cases hmem : o ∈ code.map (·.offset)
    · rw [if_neg hend, if_pos hmem]
      exact ⟨fun _ => .inl hmem, fun _ => rfl⟩
    · rw [if_neg hend, if_neg hmem, Array.getElem?_replicate, if_pos (by omega)]
      simp [hmem, hne]

/-! ### The whole assembly -/

/-- The label that stands for an offset. -/
def labelOr (label? : Nat → Option Label) (o : Nat) : Label :=
  (label? o).getD 0

/-- A listing that was assembled from located instructions, given the label of each offset and the
handle of each instruction. -/
structure Assembled (length : Nat) (code : List Located) (listing : Listing)
    (label? : Nat → Option Label) (placed : List (Nat × Handle)) : Prop where
  /-- The instructions are linked in order, each behind its marks. -/
  spine : ∃ lo hi, Spine listing.nodes label? length lo hi placed listing.handles ∧
    hi ≤ listing.nodes.size ∧ (∀ p ∈ placed, p.2 < lo) ∧ ∀ o l, label? o = some l → l < lo
  /-- Each instruction has a node. -/
  nodes : List.Forall₂ (fun i p => p.1 = i.offset ∧
    listing.nodes[p.2]? = some ⟨i.insn.map (labelOr label?), some i.raw⟩) code placed
  /-- No node holds two instructions. -/
  nodup : (placed.map (·.2)).Nodup
  /-- A label is the handle of a label node. -/
  label : ∀ o l, label? o = some l → listing.nodes[l]? = some ⟨.label, none⟩
  /-- No label stands for two offsets. -/
  injective : ∀ o o' l, label? o = some l → label? o' = some l → o = o'
  /-- A label stands in front of an instruction or at the end. -/
  starts : ∀ o l, label? o = some l → o ∈ code.map (·.offset) ∨ o = length
  /-- The labels of an instruction are there. -/
  mentioned : ∀ i ∈ code, ∀ t ∈ i.insn.mentioned, (label? t).isSome

/-- The nodes that are made for ranges and instructions. -/
def builtFrom (length : Nat) (guards : List (Guard Nat)) (code : List Located) :
    Assembly × List (Nat × Handle) :=
  code.foldl Assembly.addInstruction
    ((guards.flatMap Guard.labels).foldl Assembly.addLabel (Assembly.start length), [])

/-- All nodes are made when the instructions are linked. -/
theorem building_builtFrom {length : Nat} {allowed : Nat → Prop} {guards : List (Guard Nat)}
    {code : List Located}
    (hguards : ∀ o ∈ guards.flatMap Guard.labels, o ≤ length ∧ allowed o)
    (hcode : ∀ i ∈ code, ∀ t ∈ i.insn.mentioned, t ≤ length ∧ allowed t) :
    Building length allowed code (builtFrom length guards code).1
        (builtFrom length guards code).2 ∧
      ∀ o ∈ guards.flatMap Guard.labels,
        ((builtFrom length guards code).1.label? o).isSome := by
  obtain ⟨hlabels, hsome, -⟩ := (building_start length allowed).foldl_addLabel hguards
  obtain ⟨hbuild, hkeeps⟩ := hlabels.foldl_addInstruction hcode
  exact ⟨hbuild, fun o ho => hkeeps.isSome (hsome o ho)⟩

/-- No label is known behind the end. -/
theorem label?_le {length : Nat} {allowed : Nat → Prop} {code : List Located} {a : Assembly}
    {placed : List (Nat × Handle)} (h : Building length allowed code a placed) {o : Nat} {l : Label}
    (hl : a.label? o = some l) : o ≤ length := by
  rw [Assembly.label?] at hl
  by_contra hlt
  rw [Array.getElem?_eq_none (by rw [h.size]; omega)] at hl
  cases hl

/-- A label stands where none can. -/
def isAmiss (length : Nat) (code : List Located) (a : Assembly) : Bool :=
  (List.range (length + 1)).any fun o =>
    (a.label? o).isSome && (starts length code)[o]? != some true

/-- Assembling makes the nodes, looks where the labels stand, and links. -/
theorem assemble_eq (length : Nat) (guards : List (Guard Nat)) (lines : List (Nat × UInt16))
    (code : List Located) :
    assemble length guards lines code =
      if isAmiss length code (builtFrom length guards code).1 then .error .targetInside
      else .ok (
        (((builtFrom length guards code).2.reverse.foldl
          (Assembly.place (linesByOffset length lines)) (builtFrom length guards code).1).placeMarkers
            (linesByOffset length lines) length).listing,
        guards.map (Guard.map (builtFrom length guards code).1.resolve)) :=
  rfl

/-- No label stands amiss if all stand in front of an instruction or at the end. -/
theorem isAmiss_eq_false_iff {length : Nat} {allowed : Nat → Prop} {code : List Located}
    {a : Assembly} {placed : List (Nat × Handle)} (h : Building length allowed code a placed) :
    isAmiss length code a = false ↔
      ∀ o l, a.label? o = some l → o ∈ code.map (·.offset) ∨ o = length := by
  rw [isAmiss, List.any_eq_false]
  constructor
  · intro hall o l hl
    have hle := label?_le h hl
    have ho := hall o (List.mem_range.2 (by omega))
    rw [hl] at ho
    exact (getElem?_starts_iff hle code).1 (by simpa using ho)
  · intro hall o ho
    have hle : o ≤ length := by
      have hlt := List.mem_range.1 ho
      omega
    cases hl : a.label? o with
    | none => simp
    | some l =>
      have hstart := (getElem?_starts_iff hle code).2 (hall o l hl)
      simp [hstart]

/-- What assembling gives if it does not fail. -/
theorem assembled_of_assemble {length : Nat} {guards : List (Guard Nat)}
    {lines : List (Nat × UInt16)} {code : List Located} {listing : Listing}
    {guards' : List (Guard Label)}
    (hguards : ∀ o ∈ guards.flatMap Guard.labels, o ≤ length)
    (hcode : ∀ i ∈ code, ∀ t ∈ i.insn.mentioned, t ≤ length)
    (h : assemble length guards lines code = .ok (listing, guards')) :
    ∃ label? placed, Assembled length code listing label? placed ∧
      guards' = guards.map (Guard.map (labelOr label?)) ∧
      ∀ o ∈ guards.flatMap Guard.labels, (label? o).isSome := by
  have hbuilt : Building length (fun _ => True) code (builtFrom length guards code).1
      (builtFrom length guards code).2 ∧ ∀ o ∈ guards.flatMap Guard.labels,
        ((builtFrom length guards code).1.label? o).isSome :=
    building_builtFrom (fun o ho => ⟨hguards o ho, trivial⟩)
      fun i hi t ht => ⟨hcode i hi t ht, trivial⟩
  obtain ⟨hbuild, hsome⟩ := hbuilt
  rw [assemble_eq] at h
  generalize builtFrom length guards code = built at hbuild hsome h
  -- A listing is returned only if no label has gone amiss; this is what rules out labels without a
  -- place.
  cases hamiss : isAmiss length code built.1 with
  | true =>
    rw [hamiss] at h
    cases h
  | false =>
    rw [hamiss] at h
    cases h
    -- The order of the listing is the spine that placing builds on the empty listing, from the
    -- reversed pairs.
    obtain ⟨handles, hhandles, hkept, hspine⟩ :=
      foldl_place_spec (linesByOffset length lines) length built.1 built.2.reverse
    have hnil : built.1.listing.handles = [] := by
      rw [Listing.handles, hbuild.unlinked]
    rw [hnil, List.nil_append] at hhandles
    rw [← hhandles] at hspine
    have hnodes := hbuild.nodes
    refine ⟨built.1.label?, built.2.reverse, ⟨⟨_, _, hspine, Nat.le_refl _, ?_, ?_⟩, ?_, ?_, ?_,
      hbuild.injective, (isAmiss_eq_false_iff hbuild).1 hamiss, hbuild.mentioned⟩, rfl, hsome⟩
    · intro p hp
      obtain ⟨i, -, -, hnode⟩ := exists_of_mem_right hnodes hp
      exact lt_size_of_getElem?_eq_some hnode
    · intro o l hl
      exact lt_size_of_getElem?_eq_some (hbuild.label o l hl)
    · refine hnodes.imp ?_
      intro i p hp
      exact ⟨hp.1, hkept.2 _ _ hp.2⟩
    · rw [List.map_reverse, List.nodup_reverse]
      exact hbuild.nodup
    · intro o l hl
      exact hkept.2 _ _ (hbuild.label o l hl)

/-- Assembling does not fail if every offset that is mentioned is the start of an instruction or the
end. -/
theorem assemble_isOk {length : Nat} {guards : List (Guard Nat)} {code : List Located}
    (lines : List (Nat × UInt16))
    (hguards : ∀ o ∈ guards.flatMap Guard.labels,
      o ≤ length ∧ (o ∈ code.map (·.offset) ∨ o = length))
    (hcode : ∀ i ∈ code, ∀ t ∈ i.insn.mentioned,
      t ≤ length ∧ (t ∈ code.map (·.offset) ∨ t = length)) :
    ∃ listing guards', assemble length guards lines code = .ok (listing, guards') := by
  obtain ⟨hbuild, -⟩ := building_builtFrom hguards hcode
  have hamiss := (isAmiss_eq_false_iff hbuild).2 hbuild.allowed
  rw [assemble_eq, hamiss]
  exact ⟨_, _, rfl⟩

end Binary

end Unscramble
