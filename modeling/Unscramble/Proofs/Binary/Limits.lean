import Unscramble.Proofs.Binary.ClassFile
import Unscramble.Proofs.Flow.DeadCode

/-! # Why a class cannot be written

A class all of whose labels are linked can be written unless it exceeds a limit of the format: the
size of the pool, of a text, of a displacement or of a body.

Main definitions: `Malformation.IsLimit`, `Limited`. Main statements: `limited_settle`,
`limited_bodyBytes`, `encode_cases`. -/

namespace Unscramble.Binary

/-- A cause that is a limit of the format. -/
def Malformation.IsLimit : Malformation → Prop
  | .poolFull | .textTooLong | .branchTooFar _ _ | .bodyTooLarge _ => True
  | _ => False

/-- An answer satisfies a condition, or its absence is due to a limit of the format. -/
def Spared {α : Type} (post : α → Prop) : Except Malformation α → Prop
  | .ok a => post a
  | .error cause => cause.IsLimit

/-- A computation answers what satisfies a condition unless a limit of the format is exceeded. -/
def Limited {α : Type} (m : PoolM α) (post : α → Prop) : Prop :=
  ∀ p : Pool, Spared post (m p).1

section Limited

variable {α β : Type} {m : PoolM α} {post : α → Prop}

/-- Answers go on to answers unless a limit is exceeded on the way. -/
theorem Spared.bind {f : α → Except Malformation β} {post' : β → Prop}
    {x : Except Malformation α} (h : Spared post x) (hf : ∀ a, post a → Spared post' (f a)) :
    Spared post' (x >>= f) := by
  cases x with
  | error cause => exact h
  | ok a => exact hf a h

/-- An answer without a computation exceeds no limit. -/
theorem limited_pure {a : α} (h : post a) : Limited (pure a : PoolM α) post :=
  fun _ => h

/-- A limit that is exceeded is one. -/
theorem limited_throw {cause : Malformation} (h : cause.IsLimit) :
    Limited (throw cause : PoolM α) post :=
  fun _ => h

/-- A computation goes on to another one unless a limit is exceeded on the way. -/
theorem Limited.bind {f : α → PoolM β} {post' : β → Prop} (h : Limited m post)
    (hf : ∀ a, post a → Limited (f a) post') : Limited (m >>= f) post' := by
  intro p
  have hm := h p
  change Spared post' (ExceptT.bindCont f (m p).1 (m p).2).1
  generalize m p = step at hm ⊢
  obtain ⟨answer, q⟩ := step
  cases answer with
  | error cause => exact hm
  | ok a => exact hf a hm q

/-- A computation whose answer is returned at once. -/
theorem Limited.bind_pure (h : Limited m post) (f : α → β) :
    Limited (do return f (← m)) fun _ => True :=
  h.bind fun _ _ => limited_pure trivial

/-- Changing the answer exceeds no limit. -/
theorem Limited.map (h : Limited m post) (f : α → β) : Limited (f <$> m) fun _ => True := by
  rw [← bind_pure_comp]
  exact h.bind_pure f

/-- The same computation on each item of a list. -/
theorem limited_mapM {items : List α} {f : α → PoolM β} {each : α → β → Prop}
    (h : ∀ a ∈ items, Limited (f a) (each a)) :
    Limited (items.mapM f) (List.Forall₂ each items) := by
  induction items with
  | nil =>
    rw [List.mapM_nil]
    exact limited_pure .nil
  | cons a items ih =>
    rw [List.mapM_cons]
    refine (h a List.mem_cons_self).bind fun b hb => ?_
    refine (ih fun c hc => h c (List.mem_cons_of_mem _ hc)).bind fun bs hbs => ?_
    exact limited_pure (.cons hb hbs)

/-- What is settled exceeds no limit if its answer does not. -/
theorem limited_settled {x : Except Malformation α} (h : Spared post x) :
    Limited (settled x) post := by
  cases x with
  | error cause => exact limited_throw h
  | ok a => exact limited_pure h

/-- Items are written with their number unless they are too many or one of them exceeds a limit. -/
theorem limited_countedBytes {items : List α} {encode : α → PoolM Bytes}
    (h : ∀ a ∈ items, Limited (encode a) fun _ => True) :
    Limited (countedBytes items encode) fun _ => True :=
  (limited_mapM h).bind_pure _

end Limited

/-! ### Pools -/

namespace Pool

/-- An entry is added or found unless the pool is full. -/
theorem limited_intern (e : Entry) : Limited (intern e) fun _ => True := by
  intro p
  rw [intern]
  split
  · exact trivial
  · dsimp only
    split
    · exact trivial
    · exact trivial

/-- A text is added or found unless it is too long or the pool is full. -/
theorem limited_utf8 (text : String) : Limited (utf8 text) fun _ => True := by
  rw [utf8]
  split
  · exact limited_throw trivial
  · exact limited_intern _

/-- A class is added or found unless the pool is full. -/
theorem limited_ofClass (name : String) : Limited (ofClass name) fun _ => True :=
  (limited_utf8 name).bind fun _ _ => limited_intern _

/-- A name with a descriptor is added or found unless the pool is full. -/
theorem limited_nameAndType (name descriptor : String) :
    Limited (nameAndType name descriptor) fun _ => True :=
  (limited_utf8 name).bind fun _ _ => (limited_utf8 descriptor).bind fun _ _ => limited_intern _

/-- A member is added or found unless the pool is full. -/
theorem limited_member (m : Member) (kind : MemberKind) : Limited (member m kind) fun _ => True :=
  (limited_ofClass m.owner).bind fun _ _ =>
    (limited_nameAndType m.name m.descriptor).bind fun _ _ => limited_intern _

/-- A constant is added or found unless the pool is full. -/
theorem limited_constant (c : Constant) : Limited (constant c) fun _ => True := by
  cases c with
  | string s => exact (limited_utf8 s).bind fun _ _ => limited_intern _
  | ofClass name => exact limited_ofClass name
  | methodType d => exact (limited_utf8 d).bind fun _ _ => limited_intern _
  | methodHandle kind m viaInterface =>
    exact (limited_member m _).bind fun _ _ => limited_intern _
  | dynamic bootstrap name d =>
    exact (limited_nameAndType name d).bind fun _ _ => limited_intern _
  | _ => exact limited_intern _

end Pool

/-! ### Instructions -/

/-- The labels that a reader meets are those that control may go to. -/
theorem Instruction.mem_mentioned_iff {L : Type} {i : Instruction L} {t : L} :
    t ∈ i.mentioned ↔ t ∈ i.targets := by
  cases i <;> simp [Instruction.mentioned, Instruction.targets, or_comm]

/-- The labels that a form waits for. -/
def Form.labels : Form → List Label
  | .fixed _ => []
  | .jump _ target _ => [target]
  | .table _ _ otherwise targets => otherwise :: targets
  | .lookup otherwise cases => otherwise :: cases.map (·.2)

/-- An index is used again, or one is added unless the pool is full. -/
theorem limited_reuse (raw : Option RawForm) (holds : Pool → UInt16 → Bool) {add : PoolM UInt16}
    (h : Limited add fun _ => True) : Limited (reuse raw holds add) fun _ => True := by
  rw [reuse.eq_def]
  split
  · exact h
  · intro p
    change Spared _ ((if holds p _ then pure _ else add : PoolM UInt16) p).1
    split
    · exact trivial
    · exact h p

/-- The index of a class is found unless the pool is full. -/
theorem limited_classIndex (raw : Option RawForm) (name : String) :
    Limited (classIndex raw name) fun _ => True :=
  limited_reuse raw _ (Pool.limited_ofClass name)

/-- The index of a member is found unless the pool is full. -/
theorem limited_memberIndex (raw : Option RawForm) (m : Member) (kind : MemberKind) :
    Limited (memberIndex raw m kind) fun _ => True :=
  limited_reuse raw _ (Pool.limited_member m kind)

/-- A push of a constant is written unless the pool is full. -/
theorem limited_pushBytes (raw : Option RawForm) (c : Constant) :
    Limited (pushBytes raw c) fun _ => True := by
  refine (limited_reuse raw _ (Pool.limited_constant c)).bind fun i _ => ?_
  split
  · exact limited_pure trivial
  · split
    · exact limited_pure trivial
    · exact limited_pure trivial

/-- A call is written unless the pool is full. -/
theorem limited_invokeBytes (raw : Option RawForm) (op : Opcode) (m : Member)
    (viaInterface : Bool) : Limited (invokeBytes raw op m viaInterface) fun _ => True := by
  refine (limited_memberIndex raw m _).bind fun i _ => ?_
  split
  · exact limited_pure trivial
  · exact limited_pure trivial

/-- A form waits for the labels of its instruction. -/
theorem limited_choose (insn : Instruction Label) (raw : Option RawForm) :
    Limited (Form.choose insn raw) fun form => form.labels = insn.mentioned := by
  have hfixed : ∀ {α : Type} {m : PoolM α} (f : α → Bytes), Limited m (fun _ => True) →
      insn.mentioned = [] →
      Limited (do return Form.fixed (f (← m))) fun form => form.labels = insn.mentioned :=
    fun f h hnone => h.bind fun _ _ => limited_pure hnone.symm
  cases insn with
  | push c => exact hfixed id (limited_pushBytes raw c) rfl
  | ofClass op name => exact hfixed _ (limited_classIndex raw name) rfl
  | field op m => exact hfixed _ (limited_memberIndex raw m .field) rfl
  | invoke op m viaInterface => exact hfixed id (limited_invokeBytes raw op m viaInterface) rfl
  | invokeDynamic call =>
    refine hfixed _ (limited_reuse raw _ ?_) rfl
    exact (Pool.limited_nameAndType call.name call.descriptor).bind fun _ _ =>
      Pool.limited_intern _
  | newArrays name dims => exact hfixed _ (limited_classIndex raw name) rfl
  | _ => exact limited_pure rfl

/-! ### Layouts -/

/-- A wider form has the labels of the narrow one. -/
theorem Widened.labels_eq {form form' : Form} (h : Widened form form') :
    form'.labels = form.labels := by
  rcases h with rfl | ⟨op, target, rfl, rfl, -⟩
  · rfl
  · rfl

/-- Widening jumps to labels that have offsets. -/
theorem spared_widen {offsetOf : Label → Except Malformation Nat} {method : String}
    {items : List (Form × Nat)}
    (h : ∀ item ∈ items, ∀ t ∈ item.1.labels, ∃ o, offsetOf t = .ok o) :
    Spared (fun _ => True) (widen offsetOf method items) := by
  -- On the forms: only a narrow jump asks for an offset, and it has one.
  induction items with
  | nil => exact trivial
  | cons item items ih =>
    obtain ⟨form, start⟩ := item
    have hrest := ih fun i hi => h i (List.mem_cons_of_mem _ hi)
    have hcons : ∀ form' : Form,
        Spared (fun _ => True) (do return form' :: (← widen offsetOf method items)) :=
      fun form' => hrest.bind fun _ _ => trivial
    cases form with
    | jump op target wide =>
      cases wide with
      | true =>
        rw [widen]
        · exact hcons _
        · simp
      | false =>
        obtain ⟨o, ho⟩ := h _ List.mem_cons_self target (List.mem_singleton.2 rfl)
        rw [widen, ho]
        change Spared _ (if isNear _ then _ else _)
        split
        · exact hcons _
        -- Out of reach, a conditional jump is refused by its limit, which is not a defect.
        · split
          · exact hcons _
          · exact trivial
    | _ =>
      rw [widen]
      · exact hcons _
      · simp

/-- Labels that have positions have offsets. -/
theorem Layout.exists_offsetOf {l : Layout} {t : Label}
    (h : (Listing.positionIn l.positions t).isSome = true) : ∃ o, l.offsetOf t = .ok o := by
  obtain ⟨i, hi⟩ := Option.isSome_iff_exists.1 h
  exact ⟨_, by rw [offsetOf, hi]⟩

/-- A layout of forms whose labels have positions. -/
theorem spared_settle {positions : Array (Option Nat)} (method : String) {forms : List Form}
    (h : ∀ form ∈ forms, ∀ t ∈ form.labels, (Listing.positionIn positions t).isSome = true) :
    Spared (fun l => l.positions = positions ∧ ∀ item ∈ l.located, ∀ t ∈ item.1.labels,
      (Listing.positionIn positions t).isSome = true) (Layout.settle positions method forms) := by
  -- every round that goes on has fewer jumps of 16 bits than the one before
  induction hcount : narrowJumps forms using Nat.strong_induction_on generalizing forms with
  | _ count ih =>
    have hlocated : ∀ item ∈ (Layout.of positions forms).located, ∀ t ∈ item.1.labels,
        (Listing.positionIn positions t).isSome = true := by
      intro item hitem
      refine h item.1 ?_
      rw [← map_fst_located positions forms]
      exact List.mem_map_of_mem hitem
    have hwiden : Spared (fun _ => True) (widen (Layout.of positions forms).offsetOf method
        (Layout.of positions forms).located) :=
      spared_widen fun item hitem t ht => Layout.exists_offsetOf (hlocated item hitem t ht)
    rw [Layout.settle]
    split
    · next cause heq =>
      rw [heq] at hwiden
      exact hwiden
    · next widened heq =>
      split
      · next hless =>
        refine ih _ (hcount ▸ hless) ?_ rfl
        have hall := (widen_spec heq).1
        rw [map_fst_located] at hall
        intro form' hform' t ht
        obtain ⟨form, hform, hwide⟩ := exists_of_mem_right hall hform'
        rw [hwide.labels_eq] at ht
        exact h form hform t ht
      · exact ⟨rfl, hlocated⟩

/-- A computation on each item of a list answers if it does on all items. -/
theorem exists_mapM_eq_ok {α β : Type} {f : α → Except Malformation β} {items : List α}
    (h : ∀ a ∈ items, ∃ b, f a = .ok b) : ∃ answers, items.mapM f = .ok answers := by
  induction items with
  | nil => exact ⟨[], rfl⟩
  | cons a items ih =>
    obtain ⟨b, hb⟩ := h a List.mem_cons_self
    obtain ⟨rest, hrest⟩ := ih fun c hc => h c (List.mem_cons_of_mem _ hc)
    exact ⟨b :: rest, mapM_eq_ok_iff.2 (.cons hb (mapM_eq_ok_iff.1 hrest))⟩

/-- A form whose labels have offsets has bytes. -/
theorem Form.exists_bytes {offsetOf : Label → Except Malformation Nat} (start : Nat) {form : Form}
    (h : ∀ t ∈ form.labels, ∃ o, offsetOf t = .ok o) :
    ∃ bs, form.bytes offsetOf start = .ok bs := by
  have hdisplacement : ∀ t ∈ form.labels, ∃ bs, displacement offsetOf start t = .ok bs := by
    intro t ht
    obtain ⟨o, ho⟩ := h t ht
    exact ⟨_, displacement_eq_ok_iff.2 ⟨o, ho, rfl⟩⟩
  -- Each kind of form asks for displacements only, and these there are.
  cases form with
  | fixed bs => exact ⟨bs, rfl⟩
  | jump op target wide =>
    cases wide with
    | true =>
      obtain ⟨bs, hbs⟩ := hdisplacement target (List.mem_singleton.2 rfl)
      exact ⟨_, exceptBind_eq_ok_iff.2 ⟨bs, hbs, rfl⟩⟩
    | false =>
      obtain ⟨o, ho⟩ := h target (List.mem_singleton.2 rfl)
      exact ⟨_, exceptBind_eq_ok_iff.2 ⟨o, ho, rfl⟩⟩
  | table low high otherwise targets =>
    obtain ⟨first, hfirst⟩ := hdisplacement otherwise List.mem_cons_self
    obtain ⟨rest, hrest⟩ := exists_mapM_eq_ok (f := displacement offsetOf start)
      fun t ht => hdisplacement t (List.mem_cons_of_mem _ ht)
    exact ⟨_, exceptBind_eq_ok_iff.2 ⟨first, hfirst, exceptBind_eq_ok_iff.2 ⟨rest, hrest, rfl⟩⟩⟩
  | lookup otherwise cases =>
    obtain ⟨first, hfirst⟩ := hdisplacement otherwise List.mem_cons_self
    have hcases : ∀ case ∈ cases, ∃ bs, (do
        return signed32 case.1.toInt ++ (← displacement offsetOf start case.2) :
          Except Malformation Bytes) = .ok bs := by
      intro case hcase
      obtain ⟨bs, hbs⟩ := hdisplacement case.2
        (List.mem_cons_of_mem _ (List.mem_map_of_mem hcase))
      exact ⟨_, exceptBind_eq_ok_iff.2 ⟨bs, hbs, rfl⟩⟩
    obtain ⟨rest, hrest⟩ := exists_mapM_eq_ok hcases
    exact ⟨_, exceptBind_eq_ok_iff.2 ⟨first, hfirst, exceptBind_eq_ok_iff.2 ⟨rest, hrest, rfl⟩⟩⟩

/-! ### Bodies -/

/-- An attribute is written if its contents are, unless these are too long. -/
theorem limited_part {contents : PoolM Bytes} (h : Limited contents fun _ => True)
    (name : String) : Limited (part name contents) fun _ => True :=
  h.bind fun _ _ => (Pool.limited_utf8 name).bind_pure _

/-- The attributes that are carried along are written unless a limit is exceeded. -/
theorem limited_carriedParts (attributes : List Attribute) :
    Limited (carriedParts attributes) fun _ => True := by
  have hpart : ∀ a ∈ attributes, Limited (part a.name (pure a.data)) fun _ => True :=
    fun a _ => limited_part (limited_pure trivial) a.name
  exact (limited_mapM hpart).bind_pure _

/-- The index of what may be absent is found if that of what is present is. -/
theorem limited_indexOrZero {α : Type} {add : α → PoolM UInt16}
    (h : ∀ a, Limited (add a) fun _ => True) (o : Option α) :
    Limited (indexOrZero add o) fun _ => True := by
  cases o with
  | none => exact limited_pure trivial
  | some a => exact h a

/-- A range whose labels have offsets. -/
theorem limited_guardBytes {l : Layout} {g : Guard Label}
    (h : ∀ t ∈ g.labels, ∃ o, l.offsetOf t = .ok o) : Limited (guardBytes l g) fun _ => True := by
  have hlabel : ∀ t ∈ g.labels, Limited (settled (l.offsetOf t)) fun _ => True := by
    intro t ht
    obtain ⟨o, ho⟩ := h t ht
    rw [ho]
    have hoffset : Spared (fun _ => True) (.ok o : Except Malformation Nat) := trivial
    exact limited_settled hoffset
  rw [guardBytes]
  refine (hlabel _ (by simp [Guard.labels])).bind fun start _ => ?_
  refine (hlabel _ (by simp [Guard.labels])).bind fun stop _ => ?_
  refine (hlabel _ (by simp [Guard.labels])).bind fun handler _ => ?_
  split
  · exact limited_pure trivial
  · exact (limited_indexOrZero Pool.limited_ofClass g.catches).bind_pure _

/-- A table of line numbers is written unless it is too long. -/
theorem limited_linePart (lines : List (Nat × UInt16)) :
    Limited (linePart lines) fun _ => True := by
  rw [linePart]
  split
  · exact limited_pure trivial
  · exact limited_part (limited_countedBytes fun _ _ => limited_pure trivial) lineTable

/-- A body whose labels are linked. -/
theorem limited_bodyBytes (method : String) {b : Body} (wf : b.listing.WellFormed)
    (hb : b.LabelsLinked) : Limited (bodyBytes method b) fun _ => True := by
  have hplaced : ∀ t ∈ b.listing.handles,
      (Listing.positionIn b.listing.positions t).isSome = true := by
    intro t ht
    obtain ⟨i, hi⟩ := List.mem_iff_getElem?.1 ht
    rw [(Listing.positionIn_positions wf).2 hi]
    rfl
  -- The steps of the writer in order; those that cannot fail need that every label is linked.
  rw [bodyBytes]
  refine (limited_mapM fun h _ => limited_choose _ _).bind fun forms hforms => ?_
  have hlabels : ∀ form ∈ forms, ∀ t ∈ form.labels,
      (Listing.positionIn b.listing.positions t).isSome = true := by
    intro form hform t ht
    obtain ⟨h, hh, heq⟩ := exists_of_mem_right hforms hform
    rw [heq, Instruction.mem_mentioned_iff] at ht
    exact hplaced t (hb.targets h hh t ht).1
  refine (limited_settled (spared_settle method hlabels)).bind ?_
  rintro l ⟨hpositions, hlocated⟩
  -- A layout over the limit is refused; below it the bytes exist, so only the limits are left.
  split
  · exact limited_throw trivial
  · have hbytes : ∃ bs, l.bytes = .ok bs := by
      have hforms : ∀ item ∈ l.located, ∃ bs, item.1.bytes l.offsetOf item.2 = .ok bs :=
        fun item hitem => Form.exists_bytes item.2 fun t ht =>
          Layout.exists_offsetOf (hpositions ▸ hlocated item hitem t ht)
      obtain ⟨parts, hparts⟩ := exists_mapM_eq_ok hforms
      exact ⟨_, exceptBind_eq_ok_iff.2 ⟨parts, hparts, rfl⟩⟩
    obtain ⟨bs, hbs⟩ := hbytes
    have hcode : Spared (fun _ => True) (.ok bs : Except Malformation Bytes) := trivial
    rw [hbs]
    refine (limited_settled hcode).bind fun code _ => ?_
    refine (limited_mapM fun g hg => limited_guardBytes fun t ht => ?_).bind fun guards _ => ?_
    · exact Layout.exists_offsetOf (hpositions ▸ hplaced t (hb.guards g hg t ht).1)
    · refine (limited_linePart _).bind fun lines _ => ?_
      exact (limited_carriedParts b.attributes).bind_pure _

/-! ### Declarations -/

mutual

/-- An annotation value. -/
theorem limited_elementBytes : ∀ e : Element, Limited (elementBytes e) fun _ => True
  | .const tag value => by
    rw [elementBytes.eq_def]
    cases value with
    | string text =>
      dsimp only
      split
      · exact (Pool.limited_utf8 text).bind_pure _
      · exact (Pool.limited_constant _).bind_pure _
    | _ => exact (Pool.limited_constant _).bind_pure _
  | .enum typeName constName => by
    rw [elementBytes]
    exact (Pool.limited_utf8 typeName).bind fun _ _ => (Pool.limited_utf8 constName).bind_pure _
  | .ofClass descriptor => by
    rw [elementBytes]
    exact (Pool.limited_utf8 descriptor).bind_pure _
  | .nested descriptor _ values => by
    rw [elementBytes]
    exact (Pool.limited_utf8 descriptor).bind fun _ _ => (limited_namedBytes values).bind_pure _
  | .array values => by
    rw [elementBytes]
    exact (limited_elementsBytes values).bind_pure _

/-- Annotation values. -/
theorem limited_elementsBytes : ∀ es : List Element, Limited (elementsBytes es) fun _ => True
  | [] => by
    rw [elementsBytes]
    exact limited_pure trivial
  | e :: rest => by
    rw [elementsBytes]
    exact (limited_elementBytes e).bind fun _ _ => (limited_elementsBytes rest).bind_pure _

/-- Named annotation values. -/
theorem limited_namedBytes :
    ∀ vs : List (String × Element), Limited (namedBytes vs) fun _ => True
  | [] => by
    rw [namedBytes]
    exact limited_pure trivial
  | (name, e) :: rest => by
    rw [namedBytes]
    exact (Pool.limited_utf8 name).bind fun _ _ => (limited_elementBytes e).bind fun _ _ =>
      (limited_namedBytes rest).bind_pure _

end

/-- A group of annotations is written unless a limit is exceeded. -/
theorem limited_annotationPart (name : String) (group : List Annotation) :
    Limited (annotationPart name group) fun _ => True := by
  rw [annotationPart]
  split
  · exact limited_pure trivial
  · refine limited_part (limited_countedBytes fun a _ => ?_) name
    exact (Pool.limited_utf8 a.descriptor).bind fun _ _ => (limited_namedBytes a.values).bind_pure _

/-- The annotations of a member are written unless a limit is exceeded. -/
theorem limited_annotationParts (annotations : List Annotation) :
    Limited (annotationParts annotations) fun _ => True :=
  (limited_annotationPart _ _).bind fun _ _ => (limited_annotationPart _ _).bind_pure _

namespace ClassFile

/-- A part with a list, if there is anything in it. -/
theorem limited_listPart {α : Type} {encode : α → PoolM Bytes}
    (h : ∀ a, Limited (encode a) fun _ => True) (name : String) (items : List α) :
    Limited (listPart name items encode) fun _ => True := by
  rw [listPart]
  split
  · exact limited_pure trivial
  · exact limited_part (limited_countedBytes fun a _ => h a) name

/-- A field is written unless a limit is exceeded. -/
theorem limited_fieldBytes (f : Field) : Limited (fieldBytes f) fun _ => True := by
  have hvalue : Limited (valuePart f.value) fun _ => True := by
    cases f.value with
    | none => exact limited_pure trivial
    | some c => exact limited_part ((Pool.limited_constant c).map _) _
  rw [fieldBytes_eq]
  refine (Pool.limited_utf8 f.name).bind fun _ _ => ?_
  refine (Pool.limited_utf8 f.descriptor).bind fun _ _ => ?_
  refine hvalue.bind fun _ _ => ?_
  refine (limited_annotationParts f.annotations).bind fun _ _ => ?_
  exact (limited_carriedParts f.attributes).bind_pure _

/-- A method is written unless a limit is exceeded, if the labels of its body are linked. -/
theorem limited_methodBytes {m : Method}
    (h : ∀ b ∈ m.body, b.listing.WellFormed ∧ b.LabelsLinked) :
    Limited (methodBytes m) fun _ => True := by
  have hcode : Limited (codePart m.text m.body) fun _ => True := by
    cases hbody : m.body with
    | none => exact limited_pure trivial
    | some b =>
      obtain ⟨wf, hb⟩ := h b hbody
      exact limited_part (limited_bodyBytes m.text wf hb) _
  rw [methodBytes_eq]
  refine (Pool.limited_utf8 m.name).bind fun _ _ => ?_
  refine (Pool.limited_utf8 m.descriptor).bind fun _ _ => ?_
  refine hcode.bind fun _ _ => ?_
  refine (limited_listPart (fun e => (Pool.limited_ofClass e).map _) _ m.exceptions).bind
    fun _ _ => ?_
  refine (limited_annotationParts m.annotations).bind fun _ _ => ?_
  exact (limited_carriedParts m.attributes).bind_pure _

/-- An inner class is written unless a limit is exceeded. -/
theorem limited_innerClassBytes (i : InnerClass) : Limited (innerClassBytes i) fun _ => True :=
  (Pool.limited_ofClass i.inner).bind fun _ _ =>
    (limited_indexOrZero Pool.limited_ofClass i.outer).bind fun _ _ =>
      (limited_indexOrZero Pool.limited_utf8 i.name).bind_pure _

/-- The attributes of a class are written unless a limit is exceeded. -/
theorem limited_classParts (c : Class) : Limited (classParts c) fun _ => True := by
  have hsource : Limited (sourcePart c.sourceFile) fun _ => True := by
    cases c.sourceFile with
    | none => exact limited_pure trivial
    | some name => exact limited_part ((Pool.limited_utf8 name).map _) _
  rw [classParts_eq]
  refine hsource.bind fun _ _ => ?_
  refine (limited_listPart limited_innerClassBytes _ c.innerClasses).bind fun _ _ => ?_
  refine (limited_annotationParts c.annotations).bind fun _ _ => ?_
  exact (limited_carriedParts c.attributes).bind_pure _

/-- A class is written unless a limit is exceeded, if the labels of its bodies are linked. -/
theorem limited_classBytes {c : Class}
    (h : ∀ m ∈ c.methods, ∀ b ∈ m.body, b.listing.WellFormed ∧ b.LabelsLinked) :
    Limited (classBytes c) fun _ => True := by
  refine (Pool.limited_ofClass c.name).bind fun _ _ => ?_
  refine (limited_indexOrZero Pool.limited_ofClass c.superclass).bind fun _ _ => ?_
  refine (limited_countedBytes fun i _ => (Pool.limited_ofClass i).map _).bind fun _ _ => ?_
  refine (limited_countedBytes fun f _ => limited_fieldBytes f).bind fun _ _ => ?_
  refine (limited_countedBytes fun m hm => limited_methodBytes (h m hm)).bind fun _ _ => ?_
  exact (limited_classParts c).bind_pure _

/-- A class all of whose labels are linked is written unless a limit of the format is exceeded. -/
theorem encode_cases {c : Class}
    (h : ∀ m ∈ c.methods, ∀ b ∈ m.body, b.listing.WellFormed ∧ b.LabelsLinked) :
    (∃ bs, encode c = .ok bs) ∨
      ∃ cause : Malformation, cause.IsLimit ∧ encode c = .error (.classFormat c.name cause) := by
  have hlimited := limited_classBytes h (c.pool.getD .empty)
  rw [encode]
  split
  · next cause q heq =>
    have hcause : cause.IsLimit := by
      change Spared _ ((classBytes c).run.run (c.pool.getD .empty)).1 at hlimited
      rw [heq] at hlimited
      exact hlimited
    refine .inr ⟨cause, hcause, ?_⟩
    cases cause with
    | missingLabel | overflow => exact absurd hcause id
    | _ => rfl
  · exact .inl ⟨_, rfl⟩

end ClassFile

end Unscramble.Binary
