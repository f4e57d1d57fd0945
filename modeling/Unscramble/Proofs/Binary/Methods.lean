import Unscramble.Proofs.Binary.ClassFile
import Unscramble.Proofs.Binary.Declarations
import Unscramble.Proofs.Binary.Recovery

/-! # Methods that are read

The code array of a method is found in a class file without understanding anything but the pool and
the lengths of things. Where a class is decoded, the code arrays of its methods are found, and each
body was read from the code array of its method.

Main definitions: `codeArrays`, `MethodRead`, `ClassRead`. Main statement: `exists_codeArrays`. -/

namespace Unscramble.Binary.ClassFile

open Reader

/-! ### Finding code arrays -/

/-- Reads a declaration up to its parts. -/
def readParts (pool : Pool) : Reader (List Attribute) := do
  let _ ← u16
  let _ ← u16
  let _ ← u16
  readAttributes pool

/-- Reads the code array of a body. -/
def readCode : Reader Bytes := do
  let _ ← u16
  let _ ← u16
  bytes (← u32).toNat

/-- The code array among the parts of a method; the last one if there are several. -/
def codeAmong (parts : List Attribute) : Except Malformation (Option Bytes) :=
  match (parts.filter (·.name == "Code")).getLast? with
  | none => .ok none
  | some part => some <$> readCode.on part.data

/-- Reads a method down to its code array. -/
def readMethodCode (pool : Pool) : Reader (Option Bytes) := do
  require (codeAmong (← readParts pool))

/-- Reads the code arrays that stand behind a pool. -/
def readMethodCodes (pool : Pool) : Reader (List (Option Bytes)) := do
  let _ ← u16
  let _ ← u16
  let _ ← u16
  let _ ← counted u16
  let _ ← counted (readParts pool)
  counted (readMethodCode pool)

/-- Reads a class file down to the code arrays of its methods. -/
def readCodeArrays : Reader (List (Option Bytes)) := do
  let _ ← u32
  let _ ← u16
  let _ ← u16
  readMethodCodes (← Pool.read)

/-- The code array of each method of a class file. -/
def codeArrays (bs : Bytes) : Except Malformation (List (Option Bytes)) :=
  readCodeArrays.on bs

/-! ### Declarations that are read -/

/-- What holds of no parts and is kept by each part holds of all parts. -/
theorem foldlM_invariant {α : Type} {step : α → Attribute → Except Malformation α}
    (holds : List Attribute → α → Prop)
    (hstep : ∀ done a part a', holds done a → step a part = .ok a' → holds (done ++ [part]) a')
    {parts : List Attribute} {a a' : α} (h : holds [] a)
    (hfold : parts.foldlM step a = .ok a') : holds parts a' := by
  suffices hall : ∀ done a, holds done a → parts.foldlM step a = .ok a' →
      holds (done ++ parts) a' from hall [] a h hfold
  clear h hfold a
  induction parts with
  | nil =>
    intro done a h hfold
    cases hfold
    rwa [List.append_nil]
  | cons part parts ih =>
    intro done a h hfold
    rw [List.foldlM_cons] at hfold
    obtain ⟨a₁, hfirst, hfold⟩ := exceptBind_eq_ok_iff.1 hfold
    rw [List.append_cons]
    exact ih (done ++ [part]) a₁ (hstep done a part a₁ h hfirst) hfold

/-- The annotations of a part are as visible as it says. -/
theorem visible_of_readAnnotations {pool : Pool} {visible : Bool} {data : Bytes}
    {list : List Annotation} (h : readAnnotations pool visible data = .ok list) :
    ∀ a ∈ list, a.visible = visible := by
  obtain ⟨c, hc⟩ := on_eq_ok_iff.1 h
  refine forall_of_counted ?_ hc
  intro c a c' ha
  obtain ⟨descriptor, c₁, -, ha⟩ := bind_eq_ok_iff.1 ha
  obtain ⟨values, c₂, -, ha⟩ := bind_eq_ok_iff.1 ha
  cases ha
  rfl

/-- A group of annotations takes one attribute at most. -/
theorem partsOf_le (group : List Annotation) : partsOf group ≤ 1 := by
  rw [partsOf]
  split <;> decide

/-- A part with annotations makes for one part more at most. -/
theorem annotationPartCount_append_le {pool : Pool} {part : Attribute} {list : List Annotation}
    (h : annotationsOf pool part = .ok list) (annotations : List Annotation) :
    annotationPartCount (annotations ++ list) ≤ annotationPartCount annotations + 1 := by
  -- The annotations of one part are all visible or all invisible, so one of the two counts stays.
  have hone : ∀ visible, (∀ a ∈ list, a.visible = visible) →
      annotationPartCount (annotations ++ list) ≤ annotationPartCount annotations + 1 := by
    intro visible hlist
    have hvisible := partsOf_le ((annotations ++ list).filter (·.visible))
    have hothers := partsOf_le ((annotations ++ list).filter fun a => !a.visible)
    rw [List.filter_append] at hvisible hothers
    rw [annotationPartCount, annotationPartCount, List.filter_append, List.filter_append]
    cases visible with
    | true =>
      have hnone : list.filter (fun a => !a.visible) = [] :=
        List.filter_eq_nil_iff.2 fun a ha => by simp [hlist a ha]
      rw [hnone, List.append_nil]
      omega
    | false =>
      have hnone : list.filter (·.visible) = [] :=
        List.filter_eq_nil_iff.2 fun a ha => by simp [hlist a ha]
      rw [hnone, List.append_nil]
      omega
  rw [annotationsOf] at h
  split at h
  · exact hone true (visible_of_readAnnotations h)
  · split at h
    · exact hone false (visible_of_readAnnotations h)
    · cases h
      exact hone true (by simp)

/-- Where an index is read, a word is. -/
theorem follows_indexed {α : Type} (look : UInt16 → Except Malformation α) :
    Follows (indexed look) u16 fun _ _ => True := by
  intro c a c' h
  obtain ⟨i, c₁, hi, hrequire⟩ := bind_eq_ok_iff.1 h
  obtain ⟨-, rfl⟩ := require_eq_ok_iff.1 hrequire
  exact ⟨i, hi, trivial⟩

/-- An index that may be absent is taken as a number. -/
theorem follows_indexed? {α : Type} (look : UInt16 → Except Malformation α) :
    Follows (indexed? look) u16 fun _ _ => True := by
  intro c a c' h
  obtain ⟨i, c₁, hi, hlook⟩ := bind_eq_ok_iff.1 h
  split at hlook
  · cases hlook
    exact ⟨i, hi, trivial⟩
  · rw [← bind_pure_comp] at hlook
    obtain ⟨a, c₂, hrequire, hpure⟩ := bind_eq_ok_iff.1 hlook
    obtain ⟨-, rfl⟩ := require_eq_ok_iff.1 hrequire
    cases hpure
    exact ⟨i, hi, trivial⟩

/-- What a part adds to a field. -/
theorem addFieldPart_cases {pool : Pool} {f f' : Field} {part : Attribute}
    (h : addFieldPart pool f part = .ok f') :
    (∃ value, f' = { f with value := some value }) ∨
      (∃ list, annotationsOf pool part = .ok list ∧
        f' = { f with annotations := f.annotations ++ list }) ∨
      f' = { f with attributes := f.attributes ++ [part] } := by
  rw [addFieldPart] at h
  split at h
  · obtain ⟨value, -, h⟩ := exceptBind_eq_ok_iff.1 h
    cases h
    exact .inl ⟨value, rfl⟩
  · split at h
    · obtain ⟨list, hlist, h⟩ := exceptBind_eq_ok_iff.1 h
      cases h
      exact .inr (.inl ⟨list, hlist, rfl⟩)
    · cases h
      exact .inr (.inr rfl)

/-- A field is written with no more parts than it was read with. -/
theorem follows_readField (pool : Pool) (owner : String) :
    Follows (readField pool owner) (readParts pool) fun f _ => fieldPartCount f ≤ 65535 := by
  refine follows_bind_same u16 fun access => (follows_indexed _).bind fun name _ _ =>
    (follows_indexed _).bind fun descriptor _ _ => ?_
  intro c f c' h
  obtain ⟨parts, c₁, hparts, hrequire⟩ := bind_eq_ok_iff.1 h
  obtain ⟨hfold, rfl⟩ := require_eq_ok_iff.1 hrequire
  refine ⟨parts, hparts, Nat.le_trans (foldlM_invariant
    (fun done f => fieldPartCount f ≤ done.length) ?_ ?_ hfold) (length_of_counted hparts)⟩
  · intro done f part f' hcount hstep
    rw [fieldPartCount] at hcount
    rw [fieldPartCount, List.length_append, List.length_singleton]
    rcases addFieldPart_cases hstep with ⟨value, rfl⟩ | ⟨list, hlist, rfl⟩ | rfl
    · simp only [Option.toList_some, List.length_singleton]
      omega
    · have hle := annotationPartCount_append_le hlist f.annotations
      dsimp only
      omega
    · simp only [List.length_append, List.length_singleton]
      omega
  · exact Nat.le_refl 0

/-- What a part adds to a method. -/
theorem addMethodPart_cases {pool : Pool} {m m' : Method} {part : Attribute}
    (h : addMethodPart pool m part = .ok m') :
    (part.name = "Code" ∧ ∃ b, (readBody pool).on part.data = .ok b ∧
        m' = { m with body := some b }) ∨
      part.name ≠ "Code" ∧
        ((∃ list, m' = { m with exceptions := m.exceptions ++ list }) ∨
        (∃ list, annotationsOf pool part = .ok list ∧
          m' = { m with annotations := m.annotations ++ list }) ∨
        m' = { m with attributes := m.attributes ++ [part] }) := by
  -- The branches of the reader, by the name of the part.
  rw [addMethodPart] at h
  split at h
  · next hname =>
    obtain ⟨b, hb, h⟩ := exceptBind_eq_ok_iff.1 h
    cases h
    exact .inl ⟨beq_iff_eq.1 hname, b, hb, rfl⟩
  · next hname =>
    refine .inr ⟨fun heq => hname (beq_iff_eq.2 heq), ?_⟩
    split at h
    · obtain ⟨list, -, h⟩ := exceptBind_eq_ok_iff.1 h
      cases h
      exact .inl ⟨list, rfl⟩
    · split at h
      · obtain ⟨list, hlist, h⟩ := exceptBind_eq_ok_iff.1 h
        cases h
        exact .inr (.inl ⟨list, hlist, rfl⟩)
      · cases h
        exact .inr (.inr rfl)

/-- The labels of a range that is read are offsets of the body. -/
theorem labels_le_of_readGuard {pool : Pool} {length : Nat} {c c' : Cursor} {g : Guard Nat}
    (h : readGuard pool length c = .ok (g, c')) : ∀ o ∈ g.labels, o ≤ length := by
  have hle : ∀ {offset : Int} {t : Nat} {c c' : Cursor}, target length offset c = .ok (t, c') →
      t ≤ length := by
    intro offset t c c' ht
    obtain ⟨_, -, -, -, hle⟩ := takes_target _ _ _ ht
    exact hle
  obtain ⟨_, c₁, -, h⟩ := bind_eq_ok_iff.1 h
  obtain ⟨_, c₂, -, h⟩ := bind_eq_ok_iff.1 h
  obtain ⟨_, c₃, -, h⟩ := bind_eq_ok_iff.1 h
  obtain ⟨catches, c₄, -, h⟩ := bind_eq_ok_iff.1 h
  obtain ⟨start, c₅, hstart, h⟩ := bind_eq_ok_iff.1 h
  obtain ⟨stop, c₆, hstop, h⟩ := bind_eq_ok_iff.1 h
  obtain ⟨handler, c₇, hhandler, h⟩ := bind_eq_ok_iff.1 h
  cases h
  intro o ho
  simp only [Guard.labels, List.mem_cons, List.not_mem_nil, or_false] at ho
  rcases ho with rfl | rfl | rfl
  · exact hle hstart
  · exact hle hstop
  · exact hle hhandler

/-- Where a body is read, its code array is. -/
theorem exists_readCode {pool : Pool} {data : Bytes} {b : Body}
    (h : (readBody pool).on data = .ok b) :
    ∃ bs, readCode.on data = .ok bs ∧ BodyRead pool b bs := by
  -- A run of the reader, taken apart; the code array is what the fourth step read.
  obtain ⟨c, h⟩ := on_eq_ok_iff.1 h
  obtain ⟨maxStack, c₁, h₁, h⟩ := bind_eq_ok_iff.1 h
  obtain ⟨maxLocals, c₂, h₂, h⟩ := bind_eq_ok_iff.1 h
  obtain ⟨length, c₃, h₃, h⟩ := bind_eq_ok_iff.1 h
  obtain ⟨bs, c₄, h₄, h⟩ := bind_eq_ok_iff.1 h
  obtain ⟨guards, c₅, h₅, h⟩ := bind_eq_ok_iff.1 h
  obtain ⟨parts, c₆, -, h⟩ := bind_eq_ok_iff.1 h
  obtain ⟨lines, c₇, -, h⟩ := bind_eq_ok_iff.1 h
  obtain ⟨code, c₈, h₈, h⟩ := bind_eq_ok_iff.1 h
  obtain ⟨assembled, c₉, h₉, h⟩ := bind_eq_ok_iff.1 h
  cases h
  have hlength : bs.length = length.toNat := by
    obtain ⟨_, -, -, hlength⟩ := takes_bytes length.toNat _ _ _ h₄
    exact hlength
  refine ⟨bs, ?_, code, guards, lines, (require_eq_ok_iff.1 h₈).1, ?_, ?_⟩
  · exact on_eq_ok_iff.2 ⟨c₄, bind_eq_ok_iff.2 ⟨_, _, h₁, bind_eq_ok_iff.2 ⟨_, _, h₂,
      bind_eq_ok_iff.2 ⟨_, _, h₃, h₄⟩⟩⟩⟩
  · rw [hlength]
    exact (require_eq_ok_iff.1 h₉).1
  · rw [hlength]
    intro o ho
    obtain ⟨g, hg, ho⟩ := List.mem_flatMap.1 ho
    exact forall_of_counted (fun _ _ _ h => labels_le_of_readGuard h) h₅ g hg o ho

/-! ### Methods that are read -/

/-- What is known of a method that was read, given its code array. -/
structure MethodRead (pool : Pool) (m : Method) (code : Option Bytes) : Prop where
  /-- The body was read from the code array. -/
  body : Option.Rel (BodyRead pool) m.body code
  /-- The count of the parts has 16 bits. -/
  parts : methodPartCount m ≤ 65535
  /-- No part that is carried along holds code. -/
  names : ∀ a ∈ m.attributes, a.name ≠ "Code"

/-- An attribute of another name is no code array. -/
theorem codeAmong_concat_of_ne {part : Attribute} (h : part.name ≠ "Code") (parts : List Attribute) :
    codeAmong (parts ++ [part]) = codeAmong parts := by
  rw [codeAmong, codeAmong, List.filter_append, List.filter_cons_of_neg (by simpa using h),
    List.filter_nil, List.append_nil]

/-- An attribute for code is the last code array. -/
theorem codeAmong_concat {part : Attribute} (h : part.name = "Code") (parts : List Attribute) :
    codeAmong (parts ++ [part]) = some <$> readCode.on part.data := by
  rw [codeAmong, List.filter_append, List.filter_cons_of_pos (by simpa using h), List.filter_nil,
    List.getLast?_concat]

/-- Where a method is read, its code array is. -/
theorem follows_readMethod (pool : Pool) (owner : String) :
    Follows (readMethod pool owner) (readMethodCode pool) (MethodRead pool) := by
  have hparts : Follows (readMethod pool owner) (readParts pool) fun m parts =>
      parts.length ≤ 65535 ∧ methodPartCount m ≤ parts.length ∧
        (∀ a ∈ m.attributes, a.name ≠ "Code") ∧
        ∃ code, codeAmong parts = .ok code ∧ Option.Rel (BodyRead pool) m.body code := by
    refine follows_bind_same u16 fun access => (follows_indexed _).bind fun name _ _ =>
      (follows_indexed _).bind fun descriptor _ _ => ?_
    intro c m c' h
    obtain ⟨parts, c₁, hparts, hrequire⟩ := bind_eq_ok_iff.1 h
    obtain ⟨hfold, rfl⟩ := require_eq_ok_iff.1 hrequire
    -- The invariant of the fold: the parts read so far are enough for the parts that writing makes,
    -- and the code is found among them.
    refine ⟨parts, hparts, length_of_counted hparts, foldlM_invariant (fun done m => methodPartCount m ≤ done.length ∧
      (∀ a ∈ m.attributes, a.name ≠ "Code") ∧
      ∃ code, codeAmong done = .ok code ∧ Option.Rel (BodyRead pool) m.body code) ?_ ?_ hfold⟩
    · rintro done m part m' ⟨hcount, hnames, code, hcode, hbody⟩ hstep
      rw [methodPartCount] at hcount
      rw [methodPartCount, List.length_append, List.length_singleton]
      rcases addMethodPart_cases hstep with ⟨hname, b, hb, rfl⟩ |
        ⟨hname, ⟨list, rfl⟩ | ⟨list, hlist, rfl⟩ | rfl⟩
      -- The code: its array is found, and a second one cannot have been there before.
      · obtain ⟨bs, hbs, hread⟩ := exists_readCode hb
        refine ⟨?_, hnames, some bs, ?_, .some hread⟩
        · simp only [Option.toList_some, List.length_singleton]
          omega
        · rw [codeAmong_concat hname, hbs]
          rfl
      · refine ⟨?_, hnames, code, (codeAmong_concat_of_ne hname done).trans hcode, hbody⟩
        have hle : listPartCount (m.exceptions ++ list) ≤ 1 := by
          rw [listPartCount]
          split <;> decide
        dsimp only
        omega
      -- Annotations: one part more was read, and writing makes one part more at most.
      · refine ⟨?_, hnames, code, (codeAmong_concat_of_ne hname done).trans hcode, hbody⟩
        have hle := annotationPartCount_append_le hlist m.annotations
        dsimp only
        omega
      · refine ⟨?_, ?_, code, (codeAmong_concat_of_ne hname done).trans hcode, hbody⟩
        · simp only [List.length_append, List.length_singleton]
          omega
        · intro a ha
          rcases List.mem_append.1 ha with ha | ha
          · exact hnames a ha
          · rw [List.mem_singleton.1 ha]
            exact hname
    · exact ⟨Nat.le_refl 0, by simp, none, rfl, .none⟩
  intro c m c' h
  obtain ⟨parts, hparts, hlength, hcount, hnames, code, hcode, hbody⟩ := hparts c m c' h
  refine ⟨code, bind_eq_ok_iff.2 ⟨parts, c', hparts, require_eq_ok_iff.2 ⟨hcode, rfl⟩⟩, hbody, ?_, hnames⟩
  omega


/-! ### Classes that are read -/

/-- What is known of a class that was decoded. -/
structure ClassRead (c : Class) (pool : Pool) (codes : List (Option Bytes)) : Prop where
  /-- The class has the pool it was read with. -/
  kept : c.pool = some pool
  /-- The pool is valid. -/
  valid : pool.Valid
  /-- The count of the interfaces has 16 bits. -/
  interfaces : c.interfaces.length ≤ 65535
  /-- The count of the fields has 16 bits. -/
  fieldCount : c.fields.length ≤ 65535
  /-- Fields are written with not too many parts. -/
  fields : ∀ f ∈ c.fields, fieldPartCount f ≤ 65535
  /-- The count of the methods has 16 bits. -/
  methodCount : c.methods.length ≤ 65535
  /-- The methods were read from the code arrays. -/
  methods : List.Forall₂ (MethodRead pool) c.methods codes

/-- Where a class is decoded, its code arrays are found. -/
theorem exists_codeArrays {bs : Bytes} {c : Class} (h : decode bs = .ok c) :
    ∃ pool codes, codeArrays bs = .ok codes ∧ ClassRead c pool codes := by
  -- A run of the reader, taken apart; the code arrays are found by the same steps up to the
  -- methods.
  obtain ⟨header, c₁, c₂, hheader, hrest⟩ := decode_eq_ok_iff.1 h
  obtain ⟨word, d₁, h₁, hheader⟩ := bind_eq_ok_iff.1 hheader
  split at hheader
  · cases hheader
  obtain ⟨minor, d₂, h₂, hheader⟩ := bind_eq_ok_iff.1 hheader
  obtain ⟨major, d₃, h₃, hheader⟩ := bind_eq_ok_iff.1 hheader
  obtain ⟨pool, d₄, h₄, hheader⟩ := bind_eq_ok_iff.1 hheader
  obtain ⟨access, d₅, h₅, hheader⟩ := bind_eq_ok_iff.1 hheader
  obtain ⟨name, d₆, h₆, hheader⟩ := bind_eq_ok_iff.1 hheader
  cases hheader
  obtain ⟨superclass, d₇, h₇, hrest⟩ := bind_eq_ok_iff.1 hrest
  obtain ⟨interfaces, d₈, h₈, hrest⟩ := bind_eq_ok_iff.1 hrest
  obtain ⟨fields, d₉, h₉, hrest⟩ := bind_eq_ok_iff.1 hrest
  obtain ⟨methods, d₁₀, h₁₀, hrest⟩ := bind_eq_ok_iff.1 hrest
  obtain ⟨parts, d₁₁, -, hrest⟩ := bind_eq_ok_iff.1 hrest
  obtain ⟨hpool, rfl, rfl, rfl⟩ := members_of_foldlM_addClassPart (require_eq_ok_iff.1 hrest).1
  obtain ⟨_, h₆', -⟩ := follows_indexed pool.classAt _ _ _ h₆
  obtain ⟨_, h₇', -⟩ := follows_indexed? pool.classAt _ _ _ h₇
  obtain ⟨_, h₈', -⟩ := follows_counted (follows_indexed pool.classAt) _ _ _ h₈
  obtain ⟨lists, h₉', hfields⟩ := follows_counted (follows_readField pool name) _ _ _ h₉
  obtain ⟨codes, h₁₀', hmethods⟩ := follows_counted (follows_readMethod pool name) _ _ _ h₁₀
  refine ⟨pool, codes, ?_, hpool, Pool.valid_of_read h₄, length_of_counted h₈, length_of_counted h₉,
    ?_, length_of_counted h₁₀, hmethods⟩
  · refine on_eq_ok_iff.2 ⟨d₁₀, ?_⟩
    refine bind_eq_ok_iff.2 ⟨_, _, h₁, bind_eq_ok_iff.2 ⟨_, _, h₂, bind_eq_ok_iff.2 ⟨_, _, h₃, ?_⟩⟩⟩
    refine bind_eq_ok_iff.2 ⟨_, _, h₄, bind_eq_ok_iff.2 ⟨_, _, h₅, bind_eq_ok_iff.2 ⟨_, _, h₆', ?_⟩⟩⟩
    refine bind_eq_ok_iff.2 ⟨_, _, h₇', bind_eq_ok_iff.2 ⟨_, _, h₈', ?_⟩⟩
    exact bind_eq_ok_iff.2 ⟨_, _, h₉', h₁₀'⟩
  · intro f hf
    obtain ⟨_, -, hcount⟩ := exists_of_mem_left hfields hf
    exact hcount

end Unscramble.Binary.ClassFile
