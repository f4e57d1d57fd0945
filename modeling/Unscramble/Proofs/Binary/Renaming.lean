import Unscramble.Proofs.Binary.Offsets
import Unscramble.Proofs.Binary.ClassFile
import Unscramble.Proofs.Shape

/-! # Renamed labels

The bytes of a body do not depend on the names of its labels: if the new names stand where the old
ones do, the same forms are chosen, they are laid out alike, and the same bytes are written. So a
body is written as its compact one is, in which each label is named by its position, and what a
shape tells of a listing is enough to write it.

Main definitions: `Form.map`, `Layout.rename`, `Listing.compact`, `Body.compact`. Main statements:
`Layout.settle_rename`, `bodyBytes_compact`, `ClassFile.encode_eq_of_shape`. -/

namespace Unscramble

namespace Binary

/-! ### Forms -/

namespace Form

/-- Renames the labels of a form. -/
def map (f : Label → Label) : Form → Form
  | .fixed bytes => .fixed bytes
  | .jump op target wide => .jump op (f target) wide
  | .table low high otherwise targets => .table low high (f otherwise) (targets.map f)
  | .lookup otherwise cases => .lookup (f otherwise) (cases.map fun (key, label) => (key, f label))

/-- Renaming labels keeps the size of a form. -/
@[simp] theorem size_map (f : Label → Label) (form : Form) (start : Nat) :
    (form.map f).size start = form.size start := by
  cases form <;> simp [map, size]

/-- An instruction with other labels gets the same form with these labels, and the pool is the
same. -/
theorem choose_map (f : Label → Label) (insn : Instruction Label) (raw : Option RawForm) :
    choose (insn.map f) raw = map f <$> choose insn raw := by
  cases insn with
  | push => rw [Instruction.map, choose, map_bind]; rfl
  | ofClass => rw [Instruction.map, choose, map_bind]; rfl
  | field => rw [Instruction.map, choose, map_bind]; rfl
  | invoke => rw [Instruction.map, choose, map_bind]; rfl
  | invokeDynamic => rw [Instruction.map, choose, map_bind]; rfl
  | newArrays => rw [Instruction.map, choose, map_bind]; rfl
  | _ => rfl

/-- Forms are chosen for instructions as they are for those with other labels. -/
theorem mapM_choose_map (f : Label → Label) (insns : List (Instruction Label)) :
    ((insns.map (Instruction.map f)).mapM fun insn => choose insn none) =
      List.map (map f) <$> insns.mapM fun insn => choose insn none := by
  induction insns with
  | nil => rfl
  | cons insn insns ih =>
    rw [List.map_cons, List.mapM_cons, List.mapM_cons, ih, choose_map, map_bind]
    simp only [seq_bind_eq, map_bind, map_pure, List.map_cons]
    rfl

variable {f : Label → Label} {offsetOf offsetOf' : Label → Except Malformation Nat}

/-- Labels at the same places have the same displacements. -/
theorem displacement_map (hf : ∀ label, offsetOf' (f label) = offsetOf label) (start : Nat)
    (label : Label) :
    displacement offsetOf' start (f label) = displacement offsetOf start label := by
  rw [displacement, displacement, hf]

/-- A form with other labels that have the same offsets has the same bytes. -/
theorem bytes_map (hf : ∀ label, offsetOf' (f label) = offsetOf label) (form : Form)
    (start : Nat) : (form.map f).bytes offsetOf' start = form.bytes offsetOf start := by
  cases form with
  | fixed bytes => rfl
  | jump op target wide =>
    cases wide with
    | false => rw [map, bytes, bytes, hf]
    | true => rw [map, bytes, bytes, displacement_map hf]
  | table low high otherwise targets =>
    rw [map, bytes, bytes, displacement_map hf, List.mapM_map]
    simp only [Function.comp_def, displacement_map hf]
  | lookup otherwise cases =>
    rw [map, bytes, bytes, displacement_map hf, List.mapM_map, List.length_map]
    simp only [Function.comp_def, displacement_map hf]

end Form

/-! ### Layouts -/

/-- Renaming labels moves no form. -/
theorem offsetsFrom_map (f : Label → Label) (start : Nat) (done : List Nat) (forms : List Form) :
    offsetsFrom start done (forms.map (Form.map f)) = offsetsFrom start done forms := by
  induction forms generalizing start done with
  | nil => rfl
  | cons form forms ih => rw [List.map_cons, offsetsFrom, offsetsFrom, Form.size_map, ih]

/-- Renaming labels keeps the number of narrow jumps. -/
@[simp] theorem narrowJumps_map (f : Label → Label) (forms : List Form) :
    narrowJumps (forms.map (Form.map f)) = narrowJumps forms := by
  induction forms with
  | nil => rfl
  | cons form forms ih =>
    rw [List.map_cons, narrowJumps_cons, narrowJumps_cons form, ih]
    cases form with
    | jump op target wide => cases wide <;> rfl
    | _ => rfl

/-- The same jumps are widened if the labels are renamed. -/
theorem widen_map {f : Label → Label} {offsetOf offsetOf' : Label → Except Malformation Nat}
    (hf : ∀ label, offsetOf' (f label) = offsetOf label) (method : String)
    (located : List (Form × Nat)) :
    widen offsetOf' method (located.map (Prod.map (Form.map f) id)) =
      List.map (Form.map f) <$> widen offsetOf method located := by
  induction located with
  | nil => rfl
  | cons item located ih =>
    obtain ⟨form, start⟩ := item
    rw [List.map_cons]
    -- Only a jump of 16 bits is looked at, and its displacement is the same.
    by_cases hjump : ∃ op target, form = .jump op target false
    · obtain ⟨op, target, rfl⟩ := hjump
      show widen offsetOf' method ((.jump op (f target) false, start) :: _) = _
      rw [widen, widen, hf, ih]
      cases offsetOf target with
      | error cause => rfl
      | ok offset =>
        simp only [bind, Except.bind]
        split
        · cases widen offsetOf method located <;> rfl
        · split
          · cases widen offsetOf method located <;> rfl
          · rfl
    · have hform : ∀ op target, form ≠ .jump op target false :=
        fun op target heq => hjump ⟨op, target, heq⟩
      have hmap : ∀ op target, form.map f ≠ .jump op target false := by
        intro op target heq
        cases form with
        | jump op' target' wide =>
          cases heq
          exact hform _ _ rfl
        | _ => cases heq
      show widen offsetOf' method ((form.map f, start) :: _) = _
      rw [widen_cons_of_ne offsetOf' method start _ hmap,
        widen_cons_of_ne offsetOf method start _ hform, ih]
      cases widen offsetOf method located <;> rfl

namespace Layout

variable {positions' : Array (Option Nat)} {f : Label → Label}

/-- Renames the labels of a layout. -/
def rename (positions : Array (Option Nat)) (f : Label → Label) (l : Layout) : Layout :=
  { forms := l.forms.map (Form.map f), offsets := l.offsets, positions }

/-- The layout of renamed forms is the renamed layout. -/
theorem rename_of (positions positions' : Array (Option Nat)) (f : Label → Label)
    (forms : List Form) :
    (Layout.of positions forms).rename positions' f =
      Layout.of positions' (forms.map (Form.map f)) := by
  rw [rename, Layout.of, Layout.of, Binary.offsets, Binary.offsets, offsetsFrom_map]

/-- The forms of a renamed layout are the renamed ones, at the same places. -/
theorem located_rename (positions' : Array (Option Nat)) (f : Label → Label) (l : Layout) :
    (l.rename positions' f).located = l.located.map (Prod.map (Form.map f) id) := by
  rw [located, located, rename, List.zip_map_left]

/-- Renaming labels keeps the length of a layout. -/
theorem length_rename (positions' : Array (Option Nat)) (f : Label → Label) (l : Layout) :
    (l.rename positions' f).length = l.length := rfl

/-- A label stands where the label stands that it is renamed to. -/
theorem offsetOf_rename {l : Layout}
    (hf : ∀ label, Listing.positionIn positions' (f label) = Listing.positionIn l.positions label)
    (label : Label) : (l.rename positions' f).offsetOf (f label) = l.offsetOf label := by
  rw [offsetOf, offsetOf, rename, hf]
  rfl

/-- Forms with renamed labels are laid out as the forms are. -/
theorem settle_rename {positions : Array (Option Nat)}
    (hf : ∀ label, Listing.positionIn positions' (f label) = Listing.positionIn positions label)
    (method : String) (forms : List Form) :
    settle positions' method (forms.map (Form.map f)) =
      rename positions' f <$> settle positions method forms := by
  -- Both sides widen the same jumps in each round, and so stop after the same one.
  induction hcount : narrowJumps forms using Nat.strong_induction_on generalizing forms with
  | _ count ih =>
    rw [settle, settle, ← rename_of positions, located_rename,
      widen_map (offsetOf_rename (l := Layout.of positions forms) hf)]
    cases hwiden : widen (Layout.of positions forms).offsetOf method
        (Layout.of positions forms).located with
    | error cause => rfl
    | ok widened =>
      simp only [Except.map, Functor.map, narrowJumps_map]
      split
      · next hless => exact ih _ (hcount ▸ hless) widened rfl
      · rfl

/-- A layout has the same bytes with other labels at the same places. -/
theorem bytes_rename {l : Layout}
    (hf : ∀ label, Listing.positionIn positions' (f label) = Listing.positionIn l.positions label) :
    (l.rename positions' f).bytes = l.bytes := by
  rw [bytes, bytes, located_rename, List.mapM_map]
  simp only [Function.comp_def, Prod.map, Form.bytes_map (offsetOf_rename hf), id]

end Layout

end Binary

/-! ### Compact listings -/

namespace Listing

/-- The position of a label, or the end if the label is not linked. -/
def seat (l : Listing) (label : Label) : Label :=
  (positionIn l.positions label).getD l.length

/-- The listing without the nodes that are not linked: each instruction has its position for its
handle. -/
def compact (l : Listing) : Listing where
  nodes := (l.instructions.map fun insn => ⟨insn.map l.seat, none⟩).toArray
  order := Array.range l.length

variable {l l' : Listing}

/-- A listing has as many instructions as it is long. -/
theorem length_instructions (l : Listing) : l.instructions.length = l.length := by
  rw [instructions, List.length_map, handles, Array.length_toList, length]

/-- A label that has a place is in the listing. -/
theorem lt_length_of_positionIn {label : Label} {i : Nat}
    (h : positionIn l.positions label = some i) : i < l.length := by
  refine List.foldlRecOn
    (motive := fun table => ∀ i, positionIn table label = some i → i < l.length) _ _ ?_ ?_ i h
  · intro i hi
    rw [positionIn, Array.getElem?_replicate] at hi
    split at hi <;> cases hi
  · intro table htable item hitem i hi
    obtain ⟨h, position⟩ := item
    have hposition := (List.getElem?_eq_some_iff.1 (List.mem_zipIdx_iff_getElem?.1 hitem)).1
    rw [positionIn, Array.getElem?_setIfInBounds] at hi
    split at hi
    · split at hi
      · cases hi
        exact hposition
      · cases hi
    · exact htable i hi

/-- The handles of a compact listing are the numbers below its length. -/
@[simp] theorem handles_compact (l : Listing) : l.compact.handles = List.range l.length := by
  rw [handles, compact, Array.toList_range]

/-- A node of a compact listing has the instruction of its place. -/
theorem nodes_compact {i : Nat} {insn : Instruction Label} (hi : l.instructions[i]? = some insn) :
    l.compact.nodes[i]? = some ⟨insn.map l.seat, none⟩ := by
  rw [compact, List.getElem?_toArray, List.getElem?_map, hi, Option.map_some]

/-- The instructions of a compact listing are those of the listing, with labels told by their
places. -/
theorem instructions_compact (l : Listing) :
    l.compact.instructions = l.instructions.map (Instruction.map l.seat) := by
  refine List.ext_getElem? fun i => ?_
  rw [instructions, handles_compact, List.getElem?_map, List.getElem?_map]
  cases hi : l.instructions[i]? with
  | none =>
    have hle := List.getElem?_eq_none_iff.1 hi
    rw [length_instructions] at hle
    rw [List.getElem?_eq_none (by rw [List.length_range]; exact hle)]
    rfl
  | some insn =>
    obtain ⟨hlt, -⟩ := List.getElem?_eq_some_iff.1 hi
    rw [length_instructions] at hlt
    rw [List.getElem?_range hlt, Option.map_some, get, nodes_compact hi, Option.map_some]

/-- A compact listing keeps no form of an instruction. -/
theorem rawForm?_compact (l : Listing) (h : Handle) : l.compact.rawForm? h = none := by
  rw [rawForm?, compact, List.getElem?_toArray, List.getElem?_map]
  cases l.instructions[h]? <;> rfl

/-- A compact listing is well formed. -/
theorem wellFormed_compact (l : Listing) : l.compact.WellFormed where
  nodup := by
    rw [handles_compact]
    exact List.nodup_range
  lt_capacity := by
    intro h hh
    rw [handles_compact, List.mem_range] at hh
    rw [capacity, compact, List.size_toArray, List.length_map, length_instructions]
    exact hh

/-- A label of the compact listing stands where the label that it is made from stands. -/
theorem positionIn_compact (l : Listing) (label : Label) :
    positionIn l.compact.positions (l.seat label) = positionIn l.positions label := by
  refine Option.ext fun i => ?_
  rw [positionIn_positions (wellFormed_compact l), handles_compact, seat]
  cases hlabel : positionIn l.positions label with
  | none =>
    rw [Option.getD_none]
    constructor
    · intro hi
      obtain ⟨hlt, hget⟩ := List.getElem?_eq_some_iff.1 hi
      rw [List.length_range] at hlt
      rw [List.getElem_range] at hget
      exact absurd hget (Nat.ne_of_lt hlt)
    · rintro ⟨⟩
  | some position =>
    have hlt := lt_length_of_positionIn hlabel
    rw [Option.getD_some]
    constructor
    · intro hi
      obtain ⟨hbound, hget⟩ := List.getElem?_eq_some_iff.1 hi
      rw [List.getElem_range] at hget
      rw [hget]
    · rintro ⟨⟩
      exact List.getElem?_range hlt

/-- Listings have one compact listing if their instructions are the same up to the names of labels
that stand in one place. -/
theorem compact_eq (h : l.instructions.map (Instruction.map (positionIn l.positions)) =
    l'.instructions.map (Instruction.map (positionIn l'.positions))) : l.compact = l'.compact := by
  have hlength : l.length = l'.length := by
    rw [← length_instructions, ← length_instructions, ← List.length_map
      (f := Instruction.map (positionIn l.positions)), h, List.length_map]
  have hnodes : ∀ l : Listing, l.instructions.map (fun insn => Node.mk (insn.map l.seat) none) =
      (l.instructions.map (Instruction.map (positionIn l.positions))).map fun insn =>
        ⟨insn.map fun position => position.getD l.length, none⟩ := by
    intro l
    rw [List.map_map]
    refine List.map_congr_left fun insn _ => ?_
    rw [Function.comp_apply, Instruction.map_map]
    rfl
  rw [compact, compact, hnodes, hnodes, h, hlength]

end Listing

/-- The body with its compact listing. -/
def Body.compact (b : Body) : Body :=
  { b with listing := b.listing.compact, guards := b.guards.map (Guard.map b.listing.seat) }

namespace Binary

/-! ### Bodies -/

variable {positions' : Array (Option Nat)} {f : Label → Label} {l : Layout}

/-- A range is written as it is with other labels at the same places. -/
theorem guardBytes_map
    (hf : ∀ label, Listing.positionIn positions' (f label) = Listing.positionIn l.positions label)
    (g : Guard Label) : guardBytes (l.rename positions' f) (g.map f) = guardBytes l g := by
  rw [guardBytes, guardBytes, Guard.map]
  simp only [Layout.offsetOf_rename hf]

/-- Line markers stay where they are. -/
theorem markedLines_compact (positions' : Array (Option Nat)) (f : Label → Label) (l : Layout)
    (listing : Listing) :
    markedLines (l.rename positions' f) listing.compact = markedLines l listing := by
  rw [markedLines, markedLines, Listing.instructions_compact, List.zipIdx_map, List.filterMap_map]
  refine List.filterMap_congr fun p _ => ?_
  obtain ⟨insn, position⟩ := p
  cases insn <;> rfl

/-- The forms of a listing that was not read are those of its instructions. -/
theorem mapM_choose_instructions (l : Listing) (hraw : ∀ h ∈ l.handles, l.rawForm? h = none) :
    (l.handles.mapM fun h => Form.choose (l.get h) (l.rawForm? h)) =
      l.instructions.mapM fun insn => Form.choose insn none := by
  have hall : ∀ hs : List Handle, (∀ h ∈ hs, l.rawForm? h = none) →
      (hs.mapM fun h => Form.choose (l.get h) (l.rawForm? h)) =
        hs.mapM fun h => Form.choose (l.get h) none := by
    intro hs
    induction hs with
    | nil => exact fun _ => rfl
    | cons h hs ih =>
      intro hraw
      obtain ⟨hfirst, hraw⟩ := List.forall_mem_cons.1 hraw
      rw [List.mapM_cons, List.mapM_cons, hfirst, ih hraw]
  rw [hall _ hraw, Listing.instructions, List.mapM_map]
  rfl

/-- What follows a failure does not happen. -/
theorem settled_error_bind {α β : Type} (cause : Malformation) (rest : α → PoolM β) :
    settled (.error cause) >>= rest = throw cause := rfl

/-- **A body is written as its compact one.** -/
theorem bodyBytes_compact (method : String) {b : Body}
    (hraw : ∀ h ∈ b.listing.handles, b.listing.rawForm? h = none) :
    bodyBytes method b.compact = bodyBytes method b := by
  have hf := Listing.positionIn_compact b.listing
  -- Choosing the forms does not depend on the handles, so the compact body chooses the renamed
  -- forms.
  have hforms : (b.compact.listing.handles.mapM fun h =>
      Form.choose (b.compact.listing.get h) (b.compact.listing.rawForm? h)) =
        List.map (Form.map b.listing.seat) <$>
          b.listing.handles.mapM fun h => Form.choose (b.listing.get h) (b.listing.rawForm? h) := by
    rw [mapM_choose_instructions b.listing hraw,
      mapM_choose_instructions b.compact.listing fun h _ => Listing.rawForm?_compact b.listing h,
      ← Form.mapM_choose_map, ← Listing.instructions_compact]
    rfl
  rw [bodyBytes, bodyBytes, hforms, bind_map_left]
  refine bind_congr fun forms => ?_
  rw [Body.compact, Layout.settle_rename hf]
  -- Settling fails with the same cause, or with the renamed layout, whose bytes and offsets are the
  -- same.
  cases hsettle : Layout.settle b.listing.positions method forms with
  | error cause =>
    have hsame : settled (Layout.rename b.listing.compact.positions b.listing.seat <$>
        Except.error cause) = settled (Except.error cause) := rfl
    rw [hsame, settled_error_bind, settled_error_bind]
  | ok l =>
    obtain ⟨forms', rfl, -, -⟩ := settle_eq_ok hsettle
    have hsame : settled (Layout.rename b.listing.compact.positions b.listing.seat <$>
        Except.ok (Layout.of b.listing.positions forms')) =
          pure ((Layout.of b.listing.positions forms').rename b.listing.compact.positions
            b.listing.seat) := rfl
    have hpure : settled (Except.ok (Layout.of b.listing.positions forms')) =
        pure (Layout.of b.listing.positions forms') := rfl
    rw [hsame, hpure, pure_bind, pure_bind]
    simp only [Layout.bytes_rename (l := Layout.of b.listing.positions forms') hf, List.mapM_map,
      Function.comp_def, guardBytes_map (l := Layout.of b.listing.positions forms') hf,
      markedLines_compact, Layout.length_rename]

/-! ### Classes -/

/-- Listings with one compact listing are written alike if nothing is protected. -/
theorem bodyBytes_eq_of_compact (method : String) (b : Body) (hguards : b.guards = [])
    {l l' : Listing} (hraw : ∀ h ∈ l.handles, l.rawForm? h = none)
    (hraw' : ∀ h ∈ l'.handles, l'.rawForm? h = none) (h : l.compact = l'.compact) :
    bodyBytes method { b with listing := l } = bodyBytes method { b with listing := l' } := by
  have hcompact : Body.compact { b with listing := l } = Body.compact { b with listing := l' } := by
    rw [Body.compact, Body.compact, hguards, h]
    rfl
  rw [← bodyBytes_compact method hraw, hcompact, bodyBytes_compact method hraw']

namespace ClassFile

/-- The class with a body in one of its methods. -/
def withBody (c : Class) (front back : List Method) (m : Method) (b : Body) : Class :=
  { c with methods := front ++ { m with body := some b } :: back }

/-- A class is written alike with bodies that are. -/
theorem encode_withBody (c : Class) (front back : List Method) (m : Method) {b b' : Body}
    (h : ∀ method, bodyBytes method b = bodyBytes method b') :
    encode (withBody c front back m b) = encode (withBody c front back m b') := by
  have hmethod : methodBytes { m with body := some b } =
      methodBytes { m with body := some b' } := by
    rw [methodBytes, methodBytes]
    simp only [h]
    rfl
  have hmethods : countedBytes (withBody c front back m b).methods methodBytes =
      countedBytes (withBody c front back m b').methods methodBytes := by
    rw [withBody, withBody, countedBytes, countedBytes, List.mapM_append, List.mapM_append,
      List.mapM_cons, List.mapM_cons, hmethod, List.length_append, List.length_append,
      List.length_cons, List.length_cons]
  have hclass : classBytes (withBody c front back m b) =
      classBytes (withBody c front back m b') := by
    rw [classBytes, classBytes, hmethods]
    rfl
  rw [encode, encode, hclass]
  rfl

/-! ### A class with one body -/

/-- A body with a listing and one argument. -/
def stub (listing : Listing) : Body :=
  { maxStack := 1, maxLocals := 1, listing }

/-- A class with a listing in its one method. -/
def host (listing : Listing) : Class :=
  withBody { name := "A", superclass := none, access := ⟨33⟩ } [] []
    { owner := "A", name := "f", descriptor := "(I)V", access := ⟨8⟩ } (stub listing)

/-- The entries that the class adds to a pool. -/
def hostEntries : List Entry :=
  [.utf8 "A", .ofClass 1, .utf8 "f", .utf8 "(I)V", .utf8 "Code"]

/-- What the method is written with around the bytes of its body. -/
def hostMethodBytes (bs : Bytes) : Bytes :=
  word16 8 ++ word16 3 ++ word16 4 ++ partTable [word16 5 ++ count32 bs.length ++ bs]

/-- What the class is written with behind its pool, around the bytes of the body. -/
def hostBytes (bs : Bytes) : Bytes :=
  word16 33 ++ word16 2 ++ word16 0 ++ count16 0 ++ count16 0 ++
    (count16 1 ++ [hostMethodBytes bs].flatten) ++ partTable []

/-- The class is written around its one body, if that refers to nothing. -/
theorem encode_host {listing : Listing} {bs : Bytes}
    (h : ∀ method p, bodyBytes method (stub listing) p = (.ok bs, p)) :
    encode (host listing) = .ok (word32 magic ++ word16 0 ++ word16 52 ++
      (Pool.ofEntries hostEntries).bytes ++ hostBytes bs) := by
  have hclass : Pool.ofClass "A" (Pool.ofEntries (hostEntries.take 0)) =
      (.ok 2, Pool.ofEntries (hostEntries.take 2)) :=
    poolBind_of_eq_ok (Pool.utf8_next 0 (by decide) (by decide)) (Pool.intern_next 1 (by decide))
  have hname : Pool.utf8 "f" (Pool.ofEntries (hostEntries.take 2)) =
      (.ok 3, Pool.ofEntries (hostEntries.take 3)) := Pool.utf8_next 2 (by decide) (by decide)
  have hdescriptor : Pool.utf8 "(I)V" (Pool.ofEntries (hostEntries.take 3)) =
      (.ok 4, Pool.ofEntries (hostEntries.take 4)) := Pool.utf8_next 3 (by decide) (by decide)
  have hcode : Pool.utf8 "Code" (Pool.ofEntries (hostEntries.take 4)) =
      (.ok 5, Pool.ofEntries (hostEntries.take 5)) := Pool.utf8_next 4 (by decide) (by decide)
  have hmethod : methodBytes ⟨"A", "f", "(I)V", ⟨8⟩, some (stub listing), [], [], []⟩
      (Pool.ofEntries (hostEntries.take 2)) =
        (.ok (hostMethodBytes bs), Pool.ofEntries hostEntries) := by
    rw [methodBytes_eq]
    refine poolBind_of_eq_ok hname (poolBind_of_eq_ok hdescriptor ?_)
    exact poolBind_of_eq_ok (poolBind_of_eq_ok (h _ _) (poolBind_of_eq_ok hcode rfl)) rfl
  refine encode_eq_ok_iff.2 ⟨_, Pool.ofEntries hostEntries, ?_, rfl⟩
  refine poolBind_of_eq_ok hclass (poolBind_of_eq_ok rfl (poolBind_of_eq_ok rfl
    (poolBind_of_eq_ok rfl ?_)))
  exact poolBind_of_eq_ok (poolBind_of_eq_ok (poolBind_of_eq_ok hmethod rfl) rfl) rfl

/-- A listing that starts again unless the argument is the key. -/
def selecting (key : Int32) : Listing where
  nodes := #[⟨.label, none⟩, ⟨.slot .iload 0, none⟩, ⟨.lookupSwitch 0 [(key, 3)], none⟩,
    ⟨.label, none⟩, ⟨.plain .returnVoid, none⟩]
  order := #[0, 1, 2, 3, 4]

/-- The body with the key: the switch stands at offset 1 with two bytes of padding, and leads to the
offsets 0 and 20. -/
def selectingBytes (key : Int32) : Bytes :=
  [0, 1, 0, 1, 0, 0, 0, 21, 26, 171, 0, 0, 255, 255, 255, 255, 0, 0, 0, 1] ++
    signed32 key.toInt ++ [0, 0, 0, 19, 177, 0, 0, 0, 0]

/-- The body with a switch is written with the key that it has. -/
theorem bodyBytes_selecting {key : Int32} (hkey : key = 1 ∨ key = 2) (method : String) (p : Pool) :
    bodyBytes method (stub (selecting key)) p = (.ok (selectingBytes key), p) := by
  have hsettle : Layout.settle (selecting key).positions method
      [.fixed [], .fixed [26], .lookup 0 [(key, 3)], .fixed [], .fixed [177]] =
        .ok (Layout.of (selecting key).positions
          [.fixed [], .fixed [26], .lookup 0 [(key, 3)], .fixed [], .fixed [177]]) := by
    rw [Layout.settle]
    rfl
  have hforms : ((selecting key).handles.mapM fun h =>
      Form.choose ((selecting key).get h) ((selecting key).rawForm? h)) p =
        (.ok [.fixed [], .fixed [26], .lookup 0 [(key, 3)], .fixed [], .fixed [177]], p) := rfl
  refine poolBind_of_eq_ok hforms ?_
  rw [stub, hsettle]
  rcases hkey with rfl | rfl <;> rfl

/-- Shapes tell the instructions of such listings. -/
theorem isTold_selecting (key : Int32) (start stop : Label) :
    ∀ i ∈ [.label, .slot .iload 0, .lookupSwitch start [(key, stop)], .label, .plain .returnVoid],
      Instruction.IsTold i := by
  intro i hi
  simp only [List.mem_cons, List.not_mem_nil, or_false] at hi
  rcases hi with rfl | rfl | rfl | rfl | rfl
  all_goals
    refine ⟨?_, ?_, ?_⟩
    · rintro op ⟨⟩ <;> rfl
    · rintro op m ⟨⟩
    · rintro call ⟨⟩

/-- The listing with the key 1, made in another order, with a node that is not linked. -/
def selectingApart : Listing where
  nodes := #[⟨.plain .returnVoid, none⟩, ⟨.label, none⟩, ⟨.plain .nop, none⟩,
    ⟨.lookupSwitch 5 [(1, 1)], none⟩, ⟨.slot .iload 0, none⟩, ⟨.label, none⟩]
  order := #[5, 4, 3, 1, 0]

/-! ### Shapes -/

/-- **Listings with one shape are encoded alike,** where their shapes tell their instructions: the
keys of switches, the calls of interface methods and the bits of NaNs are the same. The instructions
are then the same too, with labels that stand in the same places. -/
theorem encode_eq_of_shape (c : Class) (front back : List Method) (m : Method) {b : Body}
    (hguards : b.guards = []) {l l' : Listing} (hraw : ∀ h ∈ l.handles, l.rawForm? h = none)
    (hraw' : ∀ h ∈ l'.handles, l'.rawForm? h = none) (htold : ∀ i ∈ l.instructions, i.IsTold)
    (htold' : ∀ i ∈ l'.instructions, i.IsTold)
    (hunshown : l.instructions.map Instruction.unshown? =
      l'.instructions.map Instruction.unshown?) (hshape : l.shape = l'.shape) :
    l.instructions.map (Instruction.map (Listing.positionIn l.positions)) =
        l'.instructions.map (Instruction.map (Listing.positionIn l'.positions)) ∧
      encode (withBody c front back m { b with listing := l }) =
        encode (withBody c front back m { b with listing := l' }) := by
  have hsame := Listing.instructions_of_shape htold htold' hshape hunshown
  refine ⟨hsame, encode_withBody c front back m fun method => ?_⟩
  exact bodyBytes_eq_of_compact method b hguards hraw hraw' (Listing.compact_eq hsame)

/-- Two listings of one shape are encoded alike, though the labels have other names. -/
theorem encode_eq_of_shape_selectingApart :
    ((∀ h ∈ (selecting 1).handles, (selecting 1).rawForm? h = none) ∧
      (∀ h ∈ selectingApart.handles, selectingApart.rawForm? h = none) ∧
      (∀ i ∈ (selecting 1).instructions, i.IsTold) ∧
      (∀ i ∈ selectingApart.instructions, i.IsTold) ∧
      (selecting 1).instructions.map Instruction.unshown? =
        selectingApart.instructions.map Instruction.unshown? ∧
      (selecting 1).shape = selectingApart.shape) ∧
    (selecting 1).instructions.map (Instruction.map (Listing.positionIn (selecting 1).positions)) =
        selectingApart.instructions.map
          (Instruction.map (Listing.positionIn selectingApart.positions)) ∧
      encode (host (selecting 1)) = encode (host selectingApart) := by
  have hraw : ∀ h ∈ (selecting 1).handles, (selecting 1).rawForm? h = none := by decide
  have hraw' : ∀ h ∈ selectingApart.handles, selectingApart.rawForm? h = none := by decide
  have htold : ∀ i ∈ (selecting 1).instructions, i.IsTold := isTold_selecting 1 0 3
  have htold' : ∀ i ∈ selectingApart.instructions, i.IsTold := isTold_selecting 1 5 1
  have hshape : (selecting 1).shape = selectingApart.shape := by decide +kernel
  exact ⟨⟨hraw, hraw', htold, htold', rfl, hshape⟩,
    encode_eq_of_shape _ [] [] _ (b := stub {}) rfl hraw hraw' htold htold' rfl hshape⟩

/-- The keys of a switch are encoded, but no shape shows them. -/
theorem encode_selecting_ne :
    (∀ h ∈ (selecting 1).handles, (selecting 1).rawForm? h = none) ∧
      (∀ h ∈ (selecting 2).handles, (selecting 2).rawForm? h = none) ∧
      (∀ i ∈ (selecting 1).instructions, i.IsTold) ∧ (∀ i ∈ (selecting 2).instructions, i.IsTold) ∧
      (selecting 1).shape = (selecting 2).shape ∧
      encode (host (selecting 1)) ≠ encode (host (selecting 2)) := by
  have hne : hostBytes (selectingBytes 1) ≠ hostBytes (selectingBytes 2) := by decide +kernel
  refine ⟨by decide, by decide, isTold_selecting 1 0 3, isTold_selecting 2 0 3,
    by decide +kernel, ?_⟩
  rw [encode_host (bodyBytes_selecting (.inl rfl)), encode_host (bodyBytes_selecting (.inr rfl))]
  intro heq
  exact hne (List.append_cancel_left (Except.ok.inj heq))

end ClassFile

end Binary

end Unscramble
