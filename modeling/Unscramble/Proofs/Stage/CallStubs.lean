import Unscramble.Proofs.Chain.Edits
import Unscramble.Proofs.OperandStack
import Unscramble.Proofs.Stage.Rounds

/-! # Stubs of dynamic calls

A dynamic call is replaced by instructions that do to the operand stack what the call does: they take
its arguments off, the last one first, and leave a zero of the type of its result. Everything else
stays as it is and where it is.

Main definitions: `StandsIn`, `InPlaceOf`, `StubsCalls`. Main statements: `zero?_returnType`,
`standsIn_stub`, `stubCall_of_split`, `foldl_stubCall`, `stubsCalls_stubDynamicCalls`. -/

namespace Unscramble.Idiom

open Descriptor

/-! ### The zero of a result -/

/-- What is no letter of a type that is no reference stands for a reference. -/
theorem zero?_eq_aconstNull {type : String} (h : ∀ c ∈ "VZBCSIJFD".toList, type.toList ≠ [c]) :
    zero? type = some .aconstNull := by
  have hne : ∀ c ∈ "VZBCSIJFD".toList, type ≠ String.ofList [c] := by
    intro c hc heq
    exact h c hc (by rw [heq, String.toList_ofList])
  have hv : type ≠ "V" := hne 'V' (by decide)
  have hz : type ≠ "Z" := hne 'Z' (by decide)
  have hb : type ≠ "B" := hne 'B' (by decide)
  have hc : type ≠ "C" := hne 'C' (by decide)
  have hs : type ≠ "S" := hne 'S' (by decide)
  have hi : type ≠ "I" := hne 'I' (by decide)
  have hj : type ≠ "J" := hne 'J' (by decide)
  have hf : type ≠ "F" := hne 'F' (by decide)
  have hd : type ≠ "D" := hne 'D' (by decide)
  simp [zero?, hv, hz, hb, hc, hs, hi, hj, hf, hd]

/-- A type that mentions a class is one of references and ends with a semicolon. -/
theorem getLast?_text {t : FieldType} (h : t.classNames ≠ []) :
    t.kind = .reference ∧ t.text.getLast? = some ';' := by
  induction t with
  | base b => exact absurd rfl h
  | object name => exact ⟨rfl, List.getLast?_concat⟩
  | array element ih =>
    refine ⟨rfl, ?_⟩
    rw [FieldType.text, List.getLast?_cons, (ih h).2]
    rfl

/-- What follows the last of some marks ends as the text does. -/
theorem getLast?_afterLast {stop c : Char} (hc : c ≠ stop) {s : String}
    (h : s.toList.getLast? = some c) : (Text.afterLast stop s).toList.getLast? = some c := by
  rw [← List.head?_reverse] at h
  obtain ⟨rest, hrest⟩ := List.head?_eq_some_iff.1 h
  rw [Text.afterLast, String.toList_ofList, List.getLast?_reverse, hrest,
    List.takeWhile_cons_of_pos (by simpa using hc)]
  rfl

/-- The zero of a type without classes. -/
theorem zero?_descriptor {t : FieldType} (h : t.classNames = []) :
    zero? t.descriptor = some t.kind.zeroOpcode := by
  cases t with
  | base b => cases b <;> rfl
  | object name => cases h
  | array element =>
    refine zero?_eq_aconstNull fun c hc heq => ?_
    rw [FieldType.toList_descriptor, FieldType.text] at heq
    obtain ⟨rfl, -⟩ := List.cons.inj heq
    exact absurd hc (by decide)

/-- What is pushed for the result of a method is the zero of its type. The name of a class may have
parentheses, and then the text of its type is cut off too late, but it still ends with a semicolon.
-/
theorem zero?_returnType (t : MethodType) :
    zero? (returnType t.descriptor) = t.result.map fun r => r.kind.zeroOpcode := by
  cases hresult : t.result with
  | none =>
    rw [MethodType.returnType_descriptor (by simp [hresult]), MethodType.resultDescriptor, hresult]
    rfl
  | some r =>
    by_cases hclasses : r.classNames = []
    · rw [MethodType.returnType_descriptor (by simp [hresult, hclasses]),
        MethodType.resultDescriptor, hresult]
      exact zero?_descriptor hclasses
    · -- what is read may not be the type of the result, but it is no letter of another type either
      obtain ⟨hkind, hlast⟩ := getLast?_text hclasses
      have hend : t.descriptor.toList.getLast? = some ';' := by
        rw [MethodType.toList_descriptor, MethodType.text, hresult, List.getLast?_append,
          List.getLast?_cons]
        simp [hlast]
      have htype : (returnType t.descriptor).toList.getLast? = some ';' :=
        getLast?_afterLast (by decide) hend
      rw [Option.map_some, hkind]
      refine zero?_eq_aconstNull fun c hc heq => ?_
      rw [heq] at htype
      obtain rfl := Option.some.inj htype
      exact absurd hc (by decide)

/-! ### What a stub does to the stack -/

/-- The opcode that takes a value of a type off the stack. -/
def popOpcode (type : FieldType) : Opcode :=
  if type.isWide then .pop2 else .pop

/-- What pops a value is chosen by the type of its descriptor. -/
theorem popOf_descriptor (type : FieldType) : popOf type.descriptor = popOpcode type := by
  rw [popOf, popOpcode, FieldType.isWide_descriptor]

/-- The instructions that take the arguments of a method off, the last one first. -/
def pops (t : MethodType) : List (Instruction Label) :=
  t.arguments.reverse.map fun type => .plain (popOpcode type)

/-- The instruction that pushes the zero of the result of a method, which is none if there is no
result. -/
def push (t : MethodType) : List (Instruction Label) :=
  (t.result.map fun r => .plain r.kind.zeroOpcode).toList

/-- The stub of a call with given types. -/
theorem stub_descriptor {t : MethodType} (h : ∀ n ∈ t.classNames, IsName n) :
    (stub t.descriptor).map .plain = pops t ++ push t := by
  have hpops : t.arguments.reverse.map (popOf ∘ FieldType.descriptor) =
      t.arguments.reverse.map popOpcode :=
    List.map_congr_left fun type _ => popOf_descriptor type
  rw [stub, MethodType.arguments_descriptor h, zero?_returnType, ← List.map_reverse, List.map_map,
    hpops, List.map_append, List.map_map, pops, push]
  cases t.result <;> rfl

/-- Values that take as many slots as values of given types. -/
def SameSlots : List Operand → List FieldType → Prop :=
  List.Forall₂ fun v type => v.kind.isWide = type.isWide

/-- A value is taken off whole. -/
theorem execute?_popOpcode {v : Operand} {type : FieldType} (h : v.kind.isWide = type.isWide)
    (below : List Operand) : execute? (popOpcode type) (v :: below) = some below := by
  have hdrop := dropSlots?_slots v below
  rw [Operand.slots, h] at hdrop
  rw [popOpcode]
  cases hwide : type.isWide with
  | true =>
    rw [hwide] at hdrop
    exact hdrop
  | false =>
    rw [hwide] at hdrop
    exact hdrop

/-- Values are taken off one after the other. -/
theorem run?_pops {values : List Operand} {types : List FieldType} (h : SameSlots values types)
    (below : List Operand) :
    run? (types.map fun type => .plain (popOpcode type)) (values ++ below) = some below := by
  induction h with
  | nil => rfl
  | cons hfirst _ ih =>
    rw [List.map_cons, List.cons_append, run?_plain, execute?_popOpcode hfirst]
    exact ih

/-- The zero of the result of a method, which is none if there is no result. -/
def zeroResult (t : MethodType) : List Operand :=
  (t.result.map fun r => r.kind.zero).toList

/-- The values that are pushed for a result are as wide as it. -/
theorem sameSlots_zeroResult (t : MethodType) : SameSlots (zeroResult t) t.result.toList := by
  unfold zeroResult
  cases t.result with
  | none => exact .nil
  | some r =>
    refine .cons ?_ .nil
    rw [Operand.kind_zero, FieldType.isWide_kind]

/-- Pushing the zero of a result leaves it on the stack. -/
theorem run?_push (t : MethodType) (below : List Operand) :
    run? (push t) below = some (zeroResult t ++ below) := by
  unfold push zeroResult
  cases t.result with
  | none => rfl
  | some r =>
    rw [Option.map_some, Option.toList_some, run?_plain, execute?_zeroOpcode]
    rfl

/-- Instructions stand in for a call with given types. -/
structure StandsIn (t : MethodType) (is : List (Instruction Label)) : Prop where
  /-- There is one to take off each argument, the last one first, and then one to push a zero if
  there is a result. -/
  instructions : is = pops t ++ push t
  /-- Each of the first instructions takes off one whole argument, and what is below stays. -/
  pops : ∀ {args below : List Operand}, SameSlots args t.arguments → ∀ k ≤ args.length,
    run? (is.take k) (args.reverse ++ below) = some (args.reverse.drop k ++ below)
  /-- In the end the arguments are gone, and there is the zero of the result. -/
  leaves : ∀ {args below : List Operand}, SameSlots args t.arguments →
    run? is (args.reverse ++ below) = some (zeroResult t ++ below)
  /-- The zero is one value of the width of the result, and there is none without a result. -/
  result : SameSlots (zeroResult t) t.result.toList
  /-- On the way the stack is never higher than in front of the call and behind it. -/
  height_le : ∀ {args below : List Operand}, SameSlots args t.arguments →
    ∀ {k : Nat} {stack : List Operand}, run? (is.take k) (args.reverse ++ below) = some stack →
      height stack ≤ max (height (args.reverse ++ below)) (height (zeroResult t ++ below))

/-- The instructions that take arguments off and push a zero stand in for a call. -/
theorem standsIn_pops_push (t : MethodType) : StandsIn t (pops t ++ push t) := by
  have hlength : (pops t).length = t.arguments.length := by
    rw [pops, List.length_map, List.length_reverse]
  have hpops : ∀ {args below : List Operand}, SameSlots args t.arguments → ∀ k ≤ args.length,
      run? ((pops t ++ push t).take k) (args.reverse ++ below) =
        some (args.reverse.drop k ++ below) := by
    intro args below hargs k hk
    have hfront := run?_pops (List.forall₂_take k (List.forall₂_reverse_iff.2 hargs))
      (args.reverse.drop k ++ below)
    rw [← List.append_assoc, List.take_append_drop] at hfront
    rw [List.take_append_of_le_length (by rw [hlength, ← hargs.length_eq]; exact hk), pops,
      ← List.map_take]
    exact hfront
  have hleaves : ∀ {args below : List Operand}, SameSlots args t.arguments →
      run? (pops t ++ push t) (args.reverse ++ below) = some (zeroResult t ++ below) := by
    intro args below hargs
    rw [run?_append, pops, run?_pops (List.forall₂_reverse_iff.2 hargs)]
    exact run?_push t below
  refine ⟨rfl, hpops, hleaves, sameSlots_zeroResult t, ?_⟩
  intro args below hargs k stack hrun
  by_cases hk : k ≤ args.length
  · -- what is left of the arguments is no higher than all of them
    rw [hpops hargs k hk] at hrun
    obtain rfl := Option.some.inj hrun
    refine le_max_of_le_left ?_
    rw [height_append, height_append]
    exact Nat.add_le_add_right (height_drop_le k _) _
  · -- the one instruction behind the pops is the last one
    have hpush : (push t).length ≤ 1 := by
      rw [push, Option.length_toList]
      split <;> decide
    have hall : (pops t ++ push t).take k = pops t ++ push t := by
      refine List.take_of_length_le ?_
      rw [List.length_append, hlength, ← hargs.length_eq]
      omega
    rw [hall, hleaves hargs] at hrun
    obtain rfl := Option.some.inj hrun
    exact le_max_right _ _

/-- A stub stands in for a call with the types that its descriptor spells. -/
theorem standsIn_stub {t : MethodType} (h : ∀ n ∈ t.classNames, IsName n) :
    StandsIn t ((stub t.descriptor).map .plain) := by
  rw [stub_descriptor h]
  exact standsIn_pops_push t

/-! ### Stubs in a listing -/

/-- The dynamic call behind a handle, with its place. -/
def site? (l : Listing) (h : Handle) : Option (Handle × DynamicCall) :=
  match l.get h with
  | .invokeDynamic call => some (h, call)
  | _ => none

/-- A dynamic call is a site of one. -/
theorem site?_of_call {l : Listing} {h : Handle} {call : DynamicCall}
    (hget : l.get h = .invokeDynamic call) : site? l h = some (h, call) := by
  rw [site?, hget]

/-- What is no dynamic call is no site of one. -/
theorem site?_eq_none {l : Listing} {h : Handle} (hother : ∀ call, l.get h ≠ .invokeDynamic call) :
    site? l h = none := by
  unfold site?
  split
  · next call hget => exact absurd hget (hother call)
  · rfl

/-- Instructions that are put in front of a place one after the other stand there in order, each in
a node of its own behind the others. -/
theorem foldl_insertBefore {a : Handle} (ops : List Opcode) {l : Listing} {front back : List Handle}
    (hs : l.handles = front ++ a :: back) (hfront : a ∉ front) (hlt : a < l.capacity) :
    let l' := ops.foldl (fun l op =>
      (l.create (.plain op)).2.insertBefore a (l.create (.plain op)).1) l
    l'.handles = front ++ List.range' l.capacity ops.length ++ a :: back ∧
      l'.nodes.toList = l.nodes.toList ++ ops.map fun op => ⟨.plain op, none⟩ := by
  -- the part in front of the place grows with each instruction
  induction ops generalizing l front with
  | nil =>
    refine ⟨?_, ?_⟩
    · rw [List.length_nil, List.range'_zero, List.append_nil]
      exact hs
    · rw [List.map_nil, List.append_nil]
      rfl
  | cons op ops ih =>
    have hs' := Listing.handles_insertBefore_of_split (l := (l.create (.plain op)).2) hs hfront
      (l.create (.plain op)).1
    have hnodes : ((l.create (.plain op)).2.insertBefore a (l.create (.plain op)).1).nodes =
        l.nodes.push ⟨.plain op, none⟩ := rfl
    have hcapacity :
        ((l.create (.plain op)).2.insertBefore a (l.create (.plain op)).1).capacity =
          l.capacity + 1 :=
      Array.size_push _
    rw [← List.singleton_append, ← List.append_assoc] at hs'
    obtain ⟨hhandles, hrest⟩ := ih hs'
      (by
        rw [List.mem_append, List.mem_singleton]
        exact not_or.2 ⟨hfront, hlt.ne⟩)
      (by rw [hcapacity]; exact hlt.trans (Nat.lt_succ_self _))
    refine ⟨?_, ?_⟩
    · rw [List.foldl_cons, hhandles, hcapacity, List.length_cons, List.range'_succ]
      simp [Listing.create, Listing.capacity]
    · rw [List.foldl_cons, hrest, hnodes, Array.toList_push, List.map_cons, List.append_assoc,
        List.singleton_append]

/-- A stub takes the place of a call, in nodes of its own. -/
theorem stubCall_of_split {l : Listing} (site : Handle × DynamicCall) {front back : List Handle}
    (hs : l.handles = front ++ site.1 :: back) (hfront : site.1 ∉ front)
    (hlt : site.1 < l.capacity) :
    (stubCall l site).handles =
        front ++ List.range' l.capacity (stub site.2.descriptor).length ++ back ∧
      (stubCall l site).nodes.toList =
        l.nodes.toList ++ (stub site.2.descriptor).map fun op => ⟨.plain op, none⟩ := by
  obtain ⟨hhandles, hnodes⟩ := foldl_insertBefore (stub site.2.descriptor) hs hfront hlt
  refine ⟨?_, hnodes⟩
  -- the nodes of the stub lie behind that of the call, so it is the call that is taken out
  have hnew : site.1 ∉ front ++ List.range' l.capacity (stub site.2.descriptor).length := by
    rw [List.mem_append, List.mem_range'_1]
    exact not_or.2 ⟨hfront, fun h => absurd h.1 hlt.not_ge⟩
  rw [stubCall, Listing.handles_remove]
  refine (congrArg (List.erase · site.1) hhandles).trans ?_
  rw [List.erase_append_right _ hnew, List.erase_cons_head]

/-- The instructions in nodes that were added behind others. -/
theorem map_get_range' {l : Listing} {old new : List Node} (h : old ++ new <+: l.nodes.toList) :
    (List.range' old.length new.length).map l.get = new.map (·.insn) := by
  obtain ⟨more, hmore⟩ := h
  refine List.ext_getElem (by simp) fun i hi _ => ?_
  have hi : i < new.length := by simpa using hi
  have hnode : l.nodes[old.length + i]? = some new[i] := by
    rw [← Array.getElem?_toList, ← hmore, List.append_assoc, List.getElem?_append_right (by omega),
      Nat.add_sub_cancel_left, List.getElem?_append_left hi, List.getElem?_eq_getElem hi]
  rw [List.getElem_map, List.getElem_map, List.getElem_range', Nat.one_mul, Listing.get, hnode]

/-- What the second listing has where the first one has a handle. -/
inductive InPlaceOf (l l' : Listing) : Handle → List Handle → Prop
  /-- What is no dynamic call is left. -/
  | itself {h : Handle} (other : ∀ call, l.get h ≠ .invokeDynamic call) : InPlaceOf l l' h [h]
  /-- In the place of a dynamic call there are new instructions that stand in for it, whatever types
  its descriptor spells. -/
  | stub {h : Handle} {call : DynamicCall} {new : List Handle}
    (calls : l.get h = .invokeDynamic call) (fresh : ∀ s ∈ new, l.capacity ≤ s)
    (standsIn : ∀ t : MethodType, (∀ n ∈ t.classNames, IsName n) →
      call.descriptor = t.descriptor → StandsIn t (new.map l'.get)) : InPlaceOf l l' h new

/-- The stubs of a part of the sequence, when what is in front of it has been done. -/
theorem foldl_stubCall {l₀ l : Listing} {passed rest : List Handle}
    (hs : l.handles = passed ++ rest) (hrest : rest.Nodup) (hpassed : ∀ h ∈ rest, h ∉ passed)
    (hlt : ∀ h ∈ rest, h < l₀.capacity) (hnodes : l₀.nodes.toList <+: l.nodes.toList) :
    l.nodes.toList <+: ((rest.filterMap (site? l₀)).foldl stubCall l).nodes.toList ∧
      ∃ pieces, ((rest.filterMap (site? l₀)).foldl stubCall l).handles =
          passed ++ pieces.flatten ∧
        List.Forall₂ (InPlaceOf l₀ ((rest.filterMap (site? l₀)).foldl stubCall l)) rest pieces := by
  -- the part that has been done grows as the rest gets shorter
  induction rest generalizing l passed with
  | nil => exact ⟨List.prefix_refl _, [], by simpa using hs, .nil⟩
  | cons h rest ih =>
    obtain ⟨hh, hrest⟩ := List.nodup_cons.1 hrest
    have hpassed' : ∀ a ∈ rest, a ∉ passed := fun a ha => hpassed a (List.mem_cons_of_mem h ha)
    have hlt' : ∀ a ∈ rest, a < l₀.capacity := fun a ha => hlt a (List.mem_cons_of_mem h ha)
    have hcapacity : l₀.capacity ≤ l.capacity := by
      simpa [Listing.capacity] using hnodes.length_le
    by_cases hcall : ∃ call, l₀.get h = .invokeDynamic call
    · obtain ⟨call, hget⟩ := hcall
      obtain ⟨hs', hnodes'⟩ := stubCall_of_split (h, call) hs
        (hpassed h List.mem_cons_self) ((hlt h List.mem_cons_self).trans_le hcapacity)
      have hgrown : l.nodes.toList <+: (stubCall l (h, call)).nodes.toList := by
        rw [hnodes']
        exact List.prefix_append _ _
      have hnew : ∀ a ∈ rest, a ∉ passed ++ List.range' l.capacity (stub call.descriptor).length := by
        intro a ha
        rw [List.mem_append, List.mem_range'_1]
        exact not_or.2 ⟨hpassed' a ha, fun h => absurd h.1 ((hlt' a ha).trans_le hcapacity).not_ge⟩
      obtain ⟨hkept, pieces, hhandles, hpieces⟩ := ih hs' hrest hnew hlt' (hnodes.trans hgrown)
      rw [List.filterMap_cons_some (site?_of_call hget), List.foldl_cons]
      refine ⟨hgrown.trans hkept,
        List.range' l.capacity (stub call.descriptor).length :: pieces, ?_, .cons ?_ hpieces⟩
      · rw [hhandles, List.flatten_cons, List.append_assoc]
      · refine .stub hget (fun s hs => hcapacity.trans (List.mem_range'_1.1 hs).1) ?_
        intro t ht hdescriptor
        -- later stubs leave the nodes of this one
        have hstub := map_get_range' (hnodes' ▸ hkept)
        rw [List.length_map, List.map_map, Array.length_toList] at hstub
        rw [Listing.capacity, hstub, hdescriptor]
        exact standsIn_stub ht
    · have hother : ∀ call, l₀.get h ≠ .invokeDynamic call := not_exists.1 hcall
      have hs' : l.handles = (passed ++ [h]) ++ rest := by
        rw [hs, List.append_assoc, List.singleton_append]
      have hnew : ∀ a ∈ rest, a ∉ passed ++ [h] := by
        intro a ha
        rw [List.mem_append, List.mem_singleton]
        exact not_or.2 ⟨hpassed' a ha, fun heq => hh (heq ▸ ha)⟩
      obtain ⟨hkept, pieces, hhandles, hpieces⟩ := ih hs' hrest hnew hlt' hnodes
      rw [List.filterMap_cons_none (site?_eq_none hother)]
      refine ⟨hkept, [h] :: pieces, ?_, .cons (.itself hother) hpieces⟩
      rw [hhandles, List.flatten_cons, List.append_assoc]

/-- The second body has a stub in the place of each dynamic call of the first one. -/
structure StubsCalls (b b' : Body) : Prop where
  /-- Everything but the instructions is left. -/
  rest : b' = { b with listing := b'.listing }
  /-- No instruction is changed in its node. -/
  nodes : b.listing.nodes.toList <+: b'.listing.nodes.toList
  /-- The sequence has each instruction in its place and order, and instructions that stand in for
  it in the place of a dynamic call. -/
  handles : ∃ pieces, b'.listing.handles = pieces.flatten ∧
    List.Forall₂ (InPlaceOf b.listing b'.listing) b.listing.handles pieces
  /-- No dynamic call is linked. -/
  unlinked : ∀ h ∈ b'.listing.handles, ∀ call, b'.listing.get h ≠ .invokeDynamic call

/-- Whatever the dynamic calls of a body are and wherever they stand, each of them is replaced by
instructions that do to the stack what the call does. -/
theorem stubsCalls_stubDynamicCalls (b : Body) (wf : b.listing.WellFormed) :
    StubsCalls b (stubDynamicCalls b).2 := by
  have hs : b.listing.handles = [] ++ b.listing.handles := rfl
  obtain ⟨hkept, pieces, hhandles, hpieces⟩ := foldl_stubCall hs wf.nodup
    (fun _ _ => List.not_mem_nil) wf.lt_capacity (List.prefix_refl b.listing.nodes.toList)
  refine ⟨rfl, hkept, ⟨pieces, by rwa [List.nil_append] at hhandles, hpieces⟩, ?_⟩
  intro h hh call hget
  have hmem : h ∈ dynamicHandles (stubDynamicCalls b).2.listing :=
    List.mem_filter.2 ⟨hh, by rw [hget]; rfl⟩
  rw [dynamicHandles_stubDynamicCalls] at hmem
  exact List.not_mem_nil hmem

/-- A body with dynamic calls one after the other, and a label in between. -/
def dynamicBody : Body where
  listing := {
    nodes := #[
      ⟨.invokeDynamic ⟨0, "apply", "(ILjava/lang/String;J)Z"⟩, none⟩,
      ⟨.label, none⟩,
      ⟨.invokeDynamic ⟨0, "get", "()Ljava/lang/Runnable;"⟩, none⟩,
      ⟨.invokeDynamic ⟨0, "set", "(D)V"⟩, none⟩,
      ⟨.plain .returnVoid, none⟩]
    order := #[0, 1, 2, 3, 4] }

/-- The calls of the body become pops and pushes. -/
theorem stubsCalls_dynamicBody :
    dynamicBody.listing.WellFormed ∧
      (stubDynamicCalls dynamicBody).2.listing.instructions =
        [.plain .pop2, .plain .pop, .plain .pop, .plain .iconst0, .label, .plain .aconstNull,
          .plain .pop2, .plain .returnVoid] ∧
      StubsCalls dynamicBody (stubDynamicCalls dynamicBody).2 := by
  have wf : dynamicBody.listing.WellFormed := ⟨by decide, by decide⟩
  exact ⟨wf, by decide +kernel, stubsCalls_stubDynamicCalls dynamicBody wf⟩

end Unscramble.Idiom
