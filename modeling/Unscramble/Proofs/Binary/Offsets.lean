import Unscramble.Proofs.Binary.CodeArray
import Unscramble.Proofs.Binary.Encoding

/-! # Layout is sound

Jumps are widened round by round. A round that is not the last leaves fewer jumps of 16 bits, so there
are at most as many rounds as such jumps and one more. In the last round every offset is the one
before it and the size of what stands there, and the jumps that are not wide lead near enough. So the
code that is written has every encoding at its offset, and every displacement leads to its label.

Main definitions: `Rounds`, `SoundLayout`, `SoundCode`, `signedOf`. Main statements:
`exists_rounds_settle`, `soundLayout_of_settle`, `soundCode_of_bytes`, `layout_sound`. -/

namespace Unscramble.Binary

open Reader

variable {positions : Array (Option Nat)} {method : String}

/-! ### Rounds -/

/-- The rounds in which forms are laid out: the offsets are found, and the jumps that lead too far are
widened, until a round widens none. -/
inductive Rounds (positions : Array (Option Nat)) (method : String) :
    Nat → List Form → Except Malformation Layout → Prop
  /-- A jump leads nowhere, or leads too far and cannot be widened. -/
  | fail {forms : List Form} {cause : Malformation}
    (round : widen (Layout.of positions forms).offsetOf method (Layout.of positions forms).located =
      .error cause) : Rounds positions method 1 forms (.error cause)
  /-- No jump is widened. -/
  | stop {forms : List Form}
    (round : widen (Layout.of positions forms).offsetOf method (Layout.of positions forms).located =
      .ok forms) : Rounds positions method 1 forms (.ok (Layout.of positions forms))
  /-- Some jumps are widened, and there is another round. -/
  | again {n : Nat} {forms widened : List Form} {answer : Except Malformation Layout}
    (round : widen (Layout.of positions forms).offsetOf method (Layout.of positions forms).located =
      .ok widened) (changed : widened ≠ forms) (rest : Rounds positions method n widened answer) :
    Rounds positions method (n + 1) forms answer

/-- There is one way to lay forms out. -/
theorem Rounds.unique {n n' : Nat} {forms : List Form} {answer answer' : Except Malformation Layout}
    (h : Rounds positions method n forms answer) (h' : Rounds positions method n' forms answer') :
    n' = n ∧ answer' = answer := by
  -- On the first derivation; a round has one answer, so the second one ends the same way.
  induction h generalizing n' answer' with
  | fail round =>
    cases h' with
    | fail round' =>
      rw [round] at round'
      cases round'
      exact ⟨rfl, rfl⟩
    | stop round' =>
      rw [round] at round'
      cases round'
    | again round' =>
      rw [round] at round'
      cases round'
  | stop round =>
    cases h' with
    | fail round' =>
      rw [round] at round'
      cases round'
    | stop => exact ⟨rfl, rfl⟩
    | again round' changed =>
      rw [round] at round'
      exact absurd (Except.ok.inj round').symm changed
  | again round changed _ ih =>
    cases h' with
    | fail round' =>
      rw [round] at round'
      cases round'
    | stop round' =>
      rw [round] at round'
      exact absurd (Except.ok.inj round') changed
    | again round' _ rest' =>
      rw [round] at round'
      cases round'
      obtain ⟨rfl, rfl⟩ := ih rest'
      exact ⟨rfl, rfl⟩

/-- The narrow jumps of forms are those of the first one and of the others. -/
theorem narrowJumps_cons (form : Form) (rest : List Form) :
    narrowJumps (form :: rest) = narrowJumps [form] + narrowJumps rest := by
  cases form with
  | jump op target wide =>
    cases wide with
    | false => exact Nat.add_comm _ _
    | true => exact (Nat.zero_add _).symm
  | _ => exact (Nat.zero_add _).symm

/-- If as many jumps of 16 bits are left, none was widened. -/
theorem eq_of_forall₂_widened {forms widened : List Form} (h : List.Forall₂ Widened forms widened) :
    narrowJumps widened ≤ narrowJumps forms ∧
      (narrowJumps forms ≤ narrowJumps widened → widened = forms) := by
  induction h with
  | nil => exact ⟨Nat.le_refl _, fun _ => rfl⟩
  | @cons form form' forms widened hform _ ih =>
    obtain ⟨hle, heq⟩ := ih
    rw [narrowJumps_cons form, narrowJumps_cons form']
    rcases hform with rfl | ⟨op, target, rfl, rfl, -⟩
    · refine ⟨by omega, fun hcount => ?_⟩
      rw [heq (by omega)]
    · have hone : narrowJumps [.jump op target false] = 1 := rfl
      have hzero : narrowJumps [.jump op target true] = 0 := rfl
      exact ⟨by omega, fun hcount => by omega⟩

/-- The rounds come to an end: one more than there are jumps of 16 bits is enough. -/
theorem exists_rounds_settle (forms : List Form) :
    ∃ n ≤ narrowJumps forms + 1,
      Rounds positions method n forms (Layout.settle positions method forms) := by
  induction hcount : narrowJumps forms using Nat.strong_induction_on generalizing forms with
  | _ count ih =>
    rw [Layout.settle]
    split
    · next cause hwiden => exact ⟨1, by omega, .fail hwiden⟩
    · next widened hwiden =>
      obtain ⟨hwidened, -, -⟩ := widen_spec hwiden
      rw [map_fst_located] at hwidened
      split
      · next hless =>
        obtain ⟨n, hn, hrounds⟩ := ih _ (hcount ▸ hless) widened rfl
        refine ⟨n + 1, by omega, .again hwiden ?_ hrounds⟩
        rintro rfl
        omega
      · next hnotLess =>
        have hsame := (eq_of_forall₂_widened hwidened).2 (Nat.not_lt.1 hnotLess)
        rw [hsame] at hwiden
        exact ⟨1, by omega, .stop hwiden⟩

/-! ### Offsets -/

/-- What stands behind some forms starts where they end. -/
theorem endFrom_append (start : Nat) (forms others : List Form) :
    endFrom start (forms ++ others) = endFrom (endFrom start forms) others := by
  induction forms generalizing start with
  | nil => rfl
  | cons form forms ih => exact ih _

/-- The offset at a position is where the forms in front of it end. -/
theorem getElem?_offsetsFrom {forms : List Form} {i : Nat} (hi : i ≤ forms.length) (start : Nat) :
    (startsFrom start forms ++ [endFrom start forms])[i]? =
      some (endFrom start (forms.take i)) := by
  induction forms generalizing start i with
  | nil =>
    rw [List.length_nil, Nat.le_zero] at hi
    rw [hi]
    rfl
  | cons form forms ih =>
    cases i with
    | zero => rfl
    | succ i => exact ih (Nat.le_of_succ_le_succ hi) _

/-- A form begins where the ones in front of it end. -/
theorem Layout.getElem?_offsets {forms : List Form} {i : Nat} (hi : i ≤ forms.length) :
    (Layout.of positions forms).offsets[i]? = some (endFrom 0 (forms.take i)) := by
  rw [Layout.of, offsets_eq, List.getElem?_toArray]
  exact getElem?_offsetsFrom hi 0

/-- What is behind a form starts where the form ends. -/
theorem endFrom_take_succ {forms : List Form} {i : Nat} {form : Form} (hi : forms[i]? = some form)
    (start : Nat) : endFrom start (forms.take (i + 1)) =
      endFrom start (forms.take i) + form.size (endFrom start (forms.take i)) := by
  rw [List.take_add_one, hi, endFrom_append]
  rfl

/-! ### Encodings -/

namespace Encoding

/-- A jump may have become wide if it can be. -/
def Widened (e e' : Encoding) : Prop :=
  e' = e ∨ ∃ op target, e = .jump op target false ∧ e' = .jump op target true ∧
    (op = .goto ∨ op = .jsr)

/-- Only a jump has the form of one. -/
theorem eq_jump_of_form {e : Encoding} {op : Opcode} {target : Label} {wide : Bool}
    (h : e.form = .jump op target wide) : e = .jump op target wide := by
  cases e with
  | jump => cases h; rfl
  | _ => cases h

/-- What forms widen to are the forms of what their encodings widen to. -/
theorem exists_map_form_of_widened {es : List Encoding} {forms : List Form}
    (h : List.Forall₂ Binary.Widened (es.map form) forms) :
    ∃ es', forms = es'.map form ∧ List.Forall₂ Widened es es' := by
  induction es generalizing forms with
  | nil =>
    cases h
    exact ⟨[], rfl, .nil⟩
  | cons e es ih =>
    obtain ⟨form', forms', hform, hforms, rfl⟩ := List.forall₂_cons_left_iff.1 h
    obtain ⟨es', rfl, hes'⟩ := ih hforms
    rcases hform with rfl | ⟨op, target, hjump, rfl, hop⟩
    · exact ⟨e :: es', rfl, .cons (.inl rfl) hes'⟩
    · exact ⟨.jump op target true :: es', rfl,
        .cons (.inr ⟨op, target, eq_jump_of_form hjump, rfl, hop⟩) hes'⟩

end Encoding

/-- The layout of some encodings: jumps without a condition may have become wide, every offset is the
one before it and the size of what stands there, and all jumps that are not wide lead near enough. -/
structure SoundLayout (given final : List Encoding) (l : Layout) : Prop where
  /-- The layout is that of the final encodings. -/
  forms : l.forms = final.map Encoding.form
  /-- They are those that were given, apart from jumps that have become wide. -/
  widened : List.Forall₂ Encoding.Widened given final
  /-- There is an offset for each, and one behind the last. -/
  count : l.offsets.size = final.length + 1
  /-- The first one starts at the front. -/
  first : l.offsets[0]? = some 0
  /-- Each one ends where the next one starts. -/
  next : ∀ (i : Nat) (e : Encoding), final[i]? = some e →
    ∃ start, l.offsets[i]? = some start ∧ l.offsets[i + 1]? = some (start + e.size start)
  /-- What is left of jumps with 16 bits leads near enough. -/
  near : ∀ (i : Nat) (op : Opcode) (target : Label) (start : Nat),
    final[i]? = some (.jump op target false) → l.offsets[i]? = some start →
    ∃ offset : Nat, l.offsetOf target = .ok offset ∧
      -32768 ≤ (offset : Int) - start ∧ (offset : Int) - start ≤ 32767

/-- A settled layout is sound. -/
theorem soundLayout_of_settle {es : List Encoding} {l : Layout}
    (h : Layout.settle positions method (es.map Encoding.form) = .ok l) :
    ∃ es', l = Layout.of positions (es'.map Encoding.form) ∧ SoundLayout es es' l := by
  obtain ⟨forms, rfl, hwidened, hnear⟩ := settle_eq_ok h
  obtain ⟨es', rfl, hes'⟩ := Encoding.exists_map_form_of_widened hwidened
  refine ⟨es', rfl, rfl, hes', ?_, ?_, ?_, ?_⟩
  · rw [Layout.of, offsets_eq]
    simp
  · exact Layout.getElem?_offsets (Nat.zero_le _)
  -- An encoding starts where those before it end.
  · intro i e hi
    have hform : (es'.map Encoding.form)[i]? = some e.form := by rw [List.getElem?_map, hi]; rfl
    have hlt : i < (es'.map Encoding.form).length := (List.getElem?_eq_some_iff.1 hform).1
    refine ⟨_, Layout.getElem?_offsets hlt.le, ?_⟩
    rw [Layout.getElem?_offsets hlt, endFrom_take_succ hform, Encoding.size_form]
  -- A narrow jump has settled within reach of its label.
  · intro i op target start hi hstart
    have hform : (es'.map Encoding.form)[i]? = some (.jump op target false) := by
      rw [List.getElem?_map, hi]
      rfl
    have hmem : ((.jump op target false, start) : Form × Nat) ∈
        (Layout.of positions (es'.map Encoding.form)).located := by
      refine List.mem_of_getElem? (i := i) ?_
      rw [Layout.located, List.getElem?_zip_eq_some]
      exact ⟨hform, by rw [Array.getElem?_toList]; exact hstart⟩
    obtain ⟨offset, hoffset, hfits⟩ := hnear _ hmem op target rfl
    refine ⟨offset, hoffset, ?_⟩
    simpa [isNear] using hfits

/-! ### Code -/

/-- The number that bytes spell as a signed word, highest byte first. -/
def signedOf (bs : Bytes) : Int :=
  (natOfBytes bs : Int).bmod (256 ^ bs.length)

/-- A short signed number is read back from its bytes. -/
theorem signedOf_signed16 {n : Int} (hlow : -32768 ≤ n) (hhigh : n ≤ 32767) :
    signedOf (signed16 n) = n := by
  have hspelled : natOfBytes (signed16 n) = (Int16.ofInt n).toUInt16.toNat :=
    natOfBytes_bytesOfNat (Int16.ofInt n).toUInt16.toNat_lt
  rw [signedOf, hspelled, length_signed16]
  exact (BitVec.toInt_eq_toNat_bmod _).symm.trans (Int16.toInt_ofInt_of_le hlow (by omega))

/-- A long signed number is read back from its bytes. -/
theorem signedOf_signed32 {n : Int} (hlow : -2147483648 ≤ n) (hhigh : n ≤ 2147483647) :
    signedOf (signed32 n) = n := by
  have hspelled : natOfBytes (signed32 n) = (Int32.ofInt n).toUInt32.toNat :=
    natOfBytes_bytesOfNat (Int32.ofInt n).toUInt32.toNat_lt
  rw [signedOf, hspelled, length_signed32]
  exact (BitVec.toInt_eq_toNat_bmod _).symm.trans (Int32.toInt_ofInt_of_le hlow (by omega))

/-- The code of a layout: every encoding is written at its offset, and every displacement that is
written leads from there to its label. -/
structure SoundCode (final : List Encoding) (l : Layout) (code : Bytes) : Prop where
  /-- The code ends where the layout does. -/
  length : code.length = l.length
  /-- Each encoding is written at its offset. -/
  written : ∀ (i : Nat) (e : Encoding) (start : Nat), final[i]? = some e →
    l.offsets[i]? = some start → e.bytes l.offsetOf start = .ok ((code.drop start).take (e.size start))
  /-- Each displacement leads to its label. -/
  leads : ∀ (i : Nat) (e : Encoding) (start : Nat), final[i]? = some e →
    l.offsets[i]? = some start → ∀ d ∈ e.displacements start,
    ∃ offset : Nat, l.offsetOf d.label = .ok offset ∧
      start + signedOf ((code.drop (start + d.place)).take d.width) = offset

/-- The first forms start where they do among all. -/
theorem startsFrom_take (forms : List Form) (i start : Nat) :
    startsFrom start (forms.take i) = (startsFrom start forms).take i := by
  induction forms generalizing i start with
  | nil => rw [List.take_nil, startsFrom, List.take_nil]
  | cons form forms ih =>
    cases i with
    | zero => rfl
    | succ i =>
      rw [List.take_succ_cons, startsFrom, startsFrom, List.take_succ_cons, ih]

/-- Some encodings that have bytes reach to the offset behind them, whether or not the others have
bytes. -/
theorem Layout.getElem?_offsets_of_mapM {es : List Encoding} {i : Nat} (hi : i ≤ es.length)
    {chunks : List Bytes}
    (h : ((Layout.of positions (es.map Encoding.form)).located.take i).mapM (fun item =>
      item.1.bytes (Layout.of positions (es.map Encoding.form)).offsetOf item.2) = .ok chunks) :
    (Layout.of positions (es.map Encoding.form)).offsets[i]? = some chunks.flatten.length := by
  rw [Layout.located_of, List.zip, List.take_zipWith, ← startsFrom_take] at h
  rw [Layout.getElem?_offsets (by rwa [List.length_map]),
    ← length_flatten_chunks (mapM_eq_ok_iff.1 h), Nat.zero_add]

/-- A form is written where the forms in front of it end. -/
theorem exists_chunk {offsetOf : Label → Except Malformation Nat} {forms : List Form}
    {chunks : List Bytes} {start i : Nat} {form : Form}
    (h : List.Forall₂ (fun item chunk => item.1.bytes offsetOf item.2 = .ok chunk)
      (forms.zip (startsFrom start forms)) chunks) (hi : forms[i]? = some form) :
    ∃ chunk front back, form.bytes offsetOf (endFrom start (forms.take i)) = .ok chunk ∧
      chunks.flatten = front ++ chunk ++ back ∧
      start + front.length = endFrom start (forms.take i) := by
  induction forms generalizing start i chunks with
  | nil => cases hi
  | cons first forms ih =>
    rw [startsFrom, List.zip_cons_cons] at h
    obtain ⟨chunk, rest, hchunk, hrest, rfl⟩ := List.forall₂_cons_left_iff.1 h
    cases i with
    | zero =>
      cases hi
      exact ⟨chunk, [], rest.flatten, hchunk, rfl, rfl⟩
    | succ i =>
      obtain ⟨chunk', front, back, hchunk', hflat, hfront⟩ := ih hrest hi
      have hsize : chunk.length = first.size start := length_bytes hchunk
      refine ⟨chunk', chunk ++ front, back, hchunk', ?_, ?_⟩
      · rw [List.flatten_cons, hflat, List.append_assoc, List.append_assoc, List.append_assoc]
      · rw [List.length_append, hsize, ← Nat.add_assoc]
        exact hfront

/-- What stands in the middle of a list. -/
theorem take_drop_middle {α : Type} (front middle back : List α) :
    ((front ++ middle ++ back).drop front.length).take middle.length = middle := by
  rw [List.append_assoc, List.drop_left, List.take_left]

/-- Only a jump has a displacement of 16 bits. -/
theorem Encoding.eq_jump_of_not_wide {e : Encoding} {start : Nat} {d : Displacement}
    (hd : d ∈ e.displacements start) (hwide : d.wide = false) : ∃ op, e = .jump op d.label false := by
  cases e with
  | jump op target wide =>
    cases List.mem_singleton.1 hd
    cases hwide
    exact ⟨op, rfl⟩
  | table low high otherwise targets =>
    rcases List.mem_cons.1 hd with rfl | hd
    · cases hwide
    · obtain ⟨_, -, rfl⟩ := List.mem_map.1 hd
      cases hwide
  | lookup otherwise keyed =>
    rcases List.mem_cons.1 hd with rfl | hd
    · cases hwide
    · obtain ⟨_, -, rfl⟩ := List.mem_map.1 hd
      cases hwide
  | _ => cases hd

/-- The code of a sound layout that is not too long is sound. -/
theorem soundCode_of_bytes {es es' : List Encoding} {l : Layout} {code : Bytes}
    (hl : l = Layout.of positions (es'.map Encoding.form)) (sound : SoundLayout es es' l)
    (hlength : l.length ≤ 65535) (h : l.bytes = .ok code) : SoundCode es' l code := by
  subst hl
  obtain ⟨chunks, rfl, hchunks⟩ := bytes_of_eq_ok h
  have hend := length_flatten_chunks hchunks
  rw [Nat.zero_add] at hend
  -- where an encoding starts, its bytes stand
  have hplace : ∀ (i : Nat) (e : Encoding) (start : Nat), es'[i]? = some e →
      (Layout.of positions (es'.map Encoding.form)).offsets[i]? = some start →
      ∃ chunk front back,
        e.bytes (Layout.of positions (es'.map Encoding.form)).offsetOf start = .ok chunk ∧
        chunk.length = e.size start ∧ chunks.flatten = front ++ chunk ++ back ∧
        front.length = start := by
    intro i e start hi hstart
    have hform : (es'.map Encoding.form)[i]? = some e.form := by rw [List.getElem?_map, hi]; rfl
    have hlt : i < (es'.map Encoding.form).length := (List.getElem?_eq_some_iff.1 hform).1
    rw [Layout.getElem?_offsets hlt.le] at hstart
    cases hstart
    obtain ⟨chunk, front, back, hchunk, hflat, hfront⟩ := exists_chunk hchunks hform
    refine ⟨chunk, front, back, (Encoding.bytes_form _ _ _).symm.trans hchunk, ?_, hflat, by omega⟩
    rw [length_bytes hchunk, Encoding.size_form]
  refine ⟨hend.trans Layout.length_of.symm, ?_, ?_⟩
  · intro i e start hi hstart
    obtain ⟨chunk, front, back, hchunk, hsize, hflat, rfl⟩ := hplace i e start hi hstart
    rw [hflat, ← hsize, take_drop_middle]
    exact hchunk
  · intro i e start hi hstart d hd
    obtain ⟨chunk, front, back, hchunk, hsize, hflat, rfl⟩ := hplace i e start hi hstart
    obtain ⟨offset, hoffset, before, behind, hstands, hbefore⟩ :=
      Encoding.bytes_displacement hchunk hd
    refine ⟨offset, hoffset, ?_⟩
    -- the displacement stands in the code, and what stands there tells how far it leads
    have hword : (chunks.flatten.drop (front.length + d.place)).take d.width =
        d.word (offset - (front.length : Int)) := by
      have hcode : chunks.flatten = (front ++ before) ++ d.word (offset - (front.length : Int)) ++
          (behind ++ back) := by
        rw [hflat, hstands]
        simp only [List.append_assoc]
      rw [hcode, ← hbefore, ← List.length_append, ← d.length_word (offset - (front.length : Int)),
        take_drop_middle]
    have hspelled : signedOf (d.word (offset - (front.length : Int))) =
        offset - (front.length : Int) := by
      rw [Displacement.word]
      cases hwide : d.wide with
      | false =>
        obtain ⟨op, rfl⟩ := Encoding.eq_jump_of_not_wide hd hwide
        obtain ⟨offset', hoffset', hlow, hhigh⟩ := sound.near i op d.label _ hi hstart
        rw [hoffset] at hoffset'
        cases hoffset'
        exact signedOf_signed16 hlow hhigh
      | true =>
        have hle : offset ≤ endFrom 0 (es'.map Encoding.form) := Layout.offsetOf_of_eq_ok hoffset
        have hfront : front.length ≤ chunks.flatten.length := by
          rw [hflat, List.append_assoc, List.length_append]
          exact Nat.le_add_right _ _
        rw [Layout.length_of] at hlength
        exact signedOf_signed32 (by omega) (by omega)
    rw [hword, hspelled]
    omega

/-! ### Whole bodies -/

/-- Forms are chosen as their encodings are. -/
theorem mapM_choose_form (hs : List Handle) (l : Listing) :
    (hs.mapM fun h => Form.choose (l.get h) (l.rawForm? h)) =
      List.map Encoding.form <$> hs.mapM fun h => Encoding.choose (l.get h) (l.rawForm? h) := by
  induction hs with
  | nil => rfl
  | cons h hs ih =>
    rw [List.mapM_cons, List.mapM_cons, ih, Encoding.choose_form, map_bind]
    simp only [seq_bind_eq, map_bind, map_pure, List.map_cons]
    rfl

/-- A computation whose answer is mapped answers what it maps. -/
theorem exists_of_map_eq_ok {α β : Type} {f : α → β} {m : PoolM α} {p p' : Pool} {b : β}
    (h : (f <$> m) p = (.ok b, p')) : ∃ a, m p = (.ok a, p') ∧ f a = b := by
  rw [map_eq_pure_bind] at h
  obtain ⟨a, p₁, ha, hb⟩ := poolBind_eq_ok h
  cases hb
  exact ⟨a, ha, rfl⟩

/-- Laying out ends after a bounded number of rounds, and the layout that is found is sound. The
encodings that have been written reach to the offset of the next one, and if the code is not too long,
every encoding is written at its offset and every displacement leads to its label. This is how a body
is written. -/
theorem layout_sound (positions : Array (Option Nat)) (method : String) (es : List Encoding) :
    (∃ n ≤ narrowJumps (es.map Encoding.form) + 1, Rounds positions method n (es.map Encoding.form)
      (Layout.settle positions method (es.map Encoding.form))) ∧
    (∀ l, Layout.settle positions method (es.map Encoding.form) = .ok l →
      ∃ es', SoundLayout es es' l ∧
        (∀ i ≤ es'.length, ∀ chunks : List Bytes,
          (l.located.take i).mapM (fun item => item.1.bytes l.offsetOf item.2) = .ok chunks →
            l.offsets[i]? = some chunks.flatten.length) ∧
        ∀ code, l.length ≤ 65535 → l.bytes = .ok code → SoundCode es' l code) ∧
    ∀ (b : Body) (p p' : Pool) (bs : Bytes), bodyBytes method b p = (.ok bs, p') →
      ∃ given final l code p₁,
        (b.listing.handles.mapM fun h =>
          Encoding.choose (b.listing.get h) (b.listing.rawForm? h)) p = (.ok given, p₁) ∧
        Layout.settle b.listing.positions method (given.map Encoding.form) = .ok l ∧
        SoundLayout given final l ∧ SoundCode final l code ∧ ClassFile.readCode.on bs = .ok code := by
  refine ⟨exists_rounds_settle _, ?_, ?_⟩
  · intro l hl
    obtain ⟨es', rfl, sound⟩ := soundLayout_of_settle hl
    exact ⟨es', sound, fun i hi chunks => Layout.getElem?_offsets_of_mapM hi,
      fun code hlength => soundCode_of_bytes rfl sound hlength⟩
  · intro b p p' bs hbytes
    obtain ⟨forms, p₁, l, code, hforms, hl, hlength, hcode, hread⟩ :=
      ClassFile.bodyBytes_eq_ok hbytes
    rw [mapM_choose_form] at hforms
    obtain ⟨given, hgiven, rfl⟩ := exists_of_map_eq_ok hforms
    obtain ⟨final, hfinal, sound⟩ := soundLayout_of_settle hl
    exact ⟨given, final, l, code, p₁, hgiven, hl, sound,
      soundCode_of_bytes hfinal sound hlength hcode, hread⟩

/-- A jump over a table switch. -/
def leap (targets : List Label) (wide : Bool) : List Encoding :=
  [.jump .goto 2 wide, .table 0 8191 2 targets, .pseudo]

/-- The positions of its labels. -/
def leapPositions : Array (Option Nat) := #[none, none, some 2]

/-- The switch behind the jump makes it leap as far as a narrow one cannot. -/
theorem offsets_leap {targets : List Label} (h : targets.length = 8192) (wide : Bool) :
    offsets ((leap targets wide).map Encoding.form) =
      if wide then [0, 5, 32788, 32788] else [0, 3, 32784, 32784] := by
  rw [offsets_eq]
  cases wide <;>
    simp [leap, Encoding.form, Encoding.ownBytes, startsFrom, endFrom, Form.size, switchPadding, h]

/-- A jump over so many cases becomes wide in the first round, and stays so in the second. -/
theorem settle_leap (method : String) {targets : List Label} (h : targets.length = 8192) :
    Layout.settle leapPositions method ((leap targets false).map Encoding.form) =
      .ok (Layout.of leapPositions ((leap targets true).map Encoding.form)) := by
  have hround : ∀ wide, widen
      (Layout.of leapPositions ((leap targets wide).map Encoding.form)).offsetOf method
      (Layout.of leapPositions ((leap targets wide).map Encoding.form)).located =
        .ok ((leap targets true).map Encoding.form) := by
    intro wide
    rw [Layout.of, offsets_leap h]
    cases wide <;> rfl
  have hfewer : narrowJumps ((leap targets true).map Encoding.form) <
      narrowJumps ((leap targets false).map Encoding.form) := Nat.one_pos
  rw [Layout.settle, hround]
  dsimp only
  rw [if_pos hfewer, Layout.settle, hround]
  rfl

/-- A body with a loop around a table switch. -/
def switchingBody : Body where
  listing :=
    { nodes := #[⟨.label, none⟩, ⟨.slot .iload 0, none⟩, ⟨.tableSwitch 0 1 5 [0, 3], none⟩,
        ⟨.label, none⟩, ⟨.jump .goto 0, none⟩, ⟨.label, none⟩, ⟨.plain .returnVoid, none⟩]
      order := #[0, 1, 2, 3, 4, 5, 6] }

/-- Its code: the switch stands at offset 1 with two bytes of padding, the jump at offset 24. -/
def switchingCode : Bytes :=
  [26, 170, 0, 0, 0, 0, 0, 26, 0, 0, 0, 0, 0, 0, 0, 1, 255, 255, 255, 255, 0, 0, 0, 23, 167, 255,
    232, 177]

/-- The body as it is written, without guards and parts. -/
def switchingBytes : Bytes :=
  [0, 0, 0, 0, 0, 0, 0, 28] ++ switchingCode ++ [0, 0, 0, 0]

/-- Its encodings. -/
def switchingEncodings : List Encoding :=
  [.pseudo, .access .iload 0 .compact, .table 0 1 5 [0, 3], .pseudo, .jump .goto 0 false, .pseudo,
    .plain .returnVoid]

/-- A jump over many cases becomes wide. In the loop the switch and the jump lead to the labels, and the
label behind the switch has the offset at which the first three encodings end. -/
theorem layout_sound_switching :
    (∃ final, SoundLayout (leap (List.replicate 8192 2) false) final
      (Layout.of leapPositions ((leap (List.replicate 8192 2) true).map Encoding.form))) ∧
    (∃ final l, SoundLayout switchingEncodings final l ∧ l.offsets[3]? = some 24 ∧
      SoundCode final l switchingCode) ∧
    (bodyBytes "f" switchingBody Pool.empty).1 = .ok switchingBytes ∧
    ∃ given final l, SoundLayout given final l ∧ SoundCode final l switchingCode := by
  -- The bytes are computed once; both the layout and the code array are then read off them.
  have hwritten : (bodyBytes "f" switchingBody Pool.empty).1 = .ok switchingBytes := by cbv
  refine ⟨?_, ?_, hwritten, ?_⟩
  · obtain ⟨-, hsettle, -⟩ :=
      layout_sound leapPositions "f" (leap (List.replicate 8192 2) false)
    obtain ⟨final, sound, -⟩ := hsettle _ (settle_leap "f" List.length_replicate)
    exact ⟨final, sound⟩
  · obtain ⟨-, hsettle, -⟩ := layout_sound switchingBody.listing.positions "f" switchingEncodings
    have hl : Layout.settle switchingBody.listing.positions "f"
        (switchingEncodings.map Encoding.form) = .ok (Layout.of switchingBody.listing.positions
          (switchingEncodings.map Encoding.form)) := by cbv
    obtain ⟨final, sound, hreach, hcode⟩ := hsettle _ hl
    have hcount : final.length = 7 := sound.widened.length_eq.symm
    refine ⟨final, _, sound, ?_, hcode switchingCode (by decide) (by cbv)⟩
    exact hreach 3 (by rw [hcount]; decide) [[], [26], switchingCode.drop 1 |>.take 23] (by cbv)
  · obtain ⟨-, -, hbody⟩ := layout_sound #[] "f" []
    obtain ⟨given, final, l, code, _, -, -, sound, hcode, hread⟩ :=
      hbody switchingBody Pool.empty _ switchingBytes (Prod.ext hwritten rfl)
    have hsame : ClassFile.readCode.on switchingBytes = .ok switchingCode := by cbv
    rw [hsame] at hread
    cases hread
    exact ⟨given, final, l, sound, hcode⟩

end Unscramble.Binary
