import Unscramble.Proofs.Naming.Assignment
import Unscramble.Proofs.Naming.Keys

/-! # Renaming again

A renaming adds to its name table what it decides, so a later run over the same codebase with the
table it left takes the same decisions and adds nothing. The first run looks keys up in a table that
grows while the second sees every entry from the start. That makes no difference: an entry is only
added under the key of something whose name is to be replaced, and the key alone tells that.

Main definitions: `Table.Grows`, `Assignment.onto`, `Repeats`. Main statements:
`ofCodebase_again`, `rename_again`. -/

namespace Unscramble.Naming

/-! ### Growing tables -/

/-- A table has all entries of another one, and its other keys are of a kind. -/
structure Table.Grows (kind : String → Prop) (t t' : Table) : Prop where
  /-- No entry is lost or changed. -/
  keeps : ∀ key mapping, t.get? key = some mapping → t'.get? key = some mapping
  /-- Only keys of the kind are added. -/
  adds : ∀ key, t.get? key = none → t'.get? key ≠ none → kind key

namespace Table.Grows

variable {kind : String → Prop} {t t' t'' : Table}

/-- A table grows to itself. -/
protected theorem refl (kind : String → Prop) (t : Table) : Grows kind t t :=
  ⟨fun _ _ h => h, fun _ h h' => absurd h h'⟩

/-- A table that has grown to one that grows has grown to that one. -/
protected theorem trans (h : Grows kind t t') (h' : Grows kind t' t'') : Grows kind t t'' where
  keeps key mapping hget := h'.keeps key mapping (h.keeps key mapping hget)
  adds key hnone hsome := by
    cases hget : t'.get? key with
    | none => exact h'.adds key hget hsome
    | some mapping => exact h.adds key hnone (by simp [hget])

/-- A key that is not of the kind has the same entry. -/
theorem get?_eq (h : Grows kind t t') {key : String} (hkey : ¬kind key) :
    t'.get? key = t.get? key := by
  cases hget : t.get? key with
  | none =>
    by_contra hne
    exact hkey (h.adds key hget hne)
  | some mapping => exact h.keeps key mapping hget

/-- Putting an entry under a new key of the kind. -/
theorem put {key : String} (hnone : t.get? key = none) (hkey : kind key) (mapping : Mapping) :
    Grows kind t (t.put key mapping) where
  keeps k m hget := by
    have hne : k ≠ key := by
      rintro rfl
      rw [hnone] at hget
      cases hget
    rw [get?_put, if_neg hne, hget]
  adds k hget hsome := by
    by_cases hk : k = key
    · exact hk ▸ hkey
    · rw [get?_put, if_neg hk] at hsome
      exact absurd hget hsome

end Table.Grows

/-! ### The same steps over another table -/

/-- The assignment with the table and the counters of another one. -/
def Assignment.onto (a base : Assignment) : Assignment :=
  { a with
    table := base.table
    classCounter := base.classCounter
    fieldCounter := base.fieldCounter
    methodCounter := base.methodCounter }

/-- What holds of every assignment of a codebase with plain names: the table can be written and
read, and the classes met so far have plain keys. -/
structure Assignment.Sound (a : Assignment) : Prop where
  /-- The table can be written and read. -/
  readable : a.table.Readable
  /-- The keys of classes are plain. -/
  plain : ∀ name key : String, a.classKeys[name]? = some key → IsPlain key

/-- A choice that gives the same answer over a table that has grown further. -/
structure Settles {β : Type} (kind : String → Prop) (a : Assignment)
    (g : Assignment → β × Assignment) : Prop where
  grows : a.table.Grows kind (g a).2.table
  sound : (g a).2.Sound
  again : ∀ base : Assignment, (g a).2.table.Grows kind base.table →
    g (a.onto base) = ((g a).1, (g a).2.onto base)

/-- A step that does the same over a table that has grown further. -/
structure Repeats (kind : String → Prop) (a : Assignment) (f : Assignment → Assignment) :
    Prop where
  grows : a.table.Grows kind (f a).table
  sound : (f a).Sound
  again : ∀ base : Assignment, (f a).table.Grows kind base.table →
    f (a.onto base) = (f a).onto base

section Steps

variable {kind : String → Prop} {a : Assignment}

/-- A step that does not look at the table. -/
theorem Repeats.of_blind {f : Assignment → Assignment} (ha : a.Sound) (htable : (f a).table = a.table)
    (hkeys : ∀ name key : String, (f a).classKeys[name]? = some key →
      a.classKeys[name]? = some key ∨ IsPlain key)
    (honto : ∀ base : Assignment, f (a.onto base) = (f a).onto base) : Repeats kind a f where
  grows := htable ▸ Table.Grows.refl kind a.table
  sound := ⟨htable ▸ ha.readable, fun name key h => (hkeys name key h).elim (ha.plain name key) id⟩
  again base _ := honto base

/-- A choice that asks the table first. It answers what the table says, leaves alone what is not
obfuscated, and else adds an entry and answers what the table says from then on. -/
theorem Settles.of_lookup {β : Type} {g : Assignment → β × Assignment} (key : String)
    (obfuscated : Bool) (found : Mapping → β) (kept : β) (ha : a.Sound)
    (hfound : ∀ (b : Assignment) (mapping : Mapping), b.table.get? key = some mapping →
      g b = (found mapping, b))
    (hkept : obfuscated = false → ¬kind key ∧
      ∀ b : Assignment, b.table.get? key = none → g b = (kept, b))
    (hfresh : obfuscated = true → a.table.get? key = none → kind key ∧
      ∃ mapping, Table.Legible key mapping ∧ (g a).1 = found mapping ∧
        (g a).2.table = a.table.put key mapping ∧ ∀ base, (g a).2.onto base = a.onto base) :
    Settles kind a g := by
  -- In each case the answer of the second run is what the table says by then.
  cases hget : a.table.get? key with
  | some mapping =>
    have hchoice := hfound a mapping hget
    refine ⟨?_, ?_, fun base hbase => ?_⟩ <;> rw [hchoice] at *
    · exact Table.Grows.refl _ _
    · exact ha
    · exact hfound (a.onto base) mapping (hbase.keeps _ _ hget)
  | none =>
    cases obfuscated with
    | false =>
      obtain ⟨hkind, hstays⟩ := hkept rfl
      have hchoice := hstays a hget
      -- What stays untouched is not asked for by name, so entries that are added make no
      -- difference.
      refine ⟨?_, ?_, fun base hbase => ?_⟩ <;> rw [hchoice] at *
      · exact Table.Grows.refl _ _
      · exact ha
      · exact hstays (a.onto base) ((hbase.get?_eq hkind).trans hget)
    | true =>
      obtain ⟨hkind, mapping, hlegible, hanswer, htable, honto⟩ := hfresh rfl hget
      have hkeys : (g a).2.classKeys = a.classKeys :=
        congrArg (·.classKeys) (honto a)
      refine ⟨?_, ⟨?_, ?_⟩, fun base hbase => ?_⟩
      · rw [htable]
        exact Table.Grows.put hget hkind mapping
      · rw [htable]
        exact ha.readable.put hlegible
      · rw [hkeys]
        exact ha.plain
      · have hput : (g a).2.table.get? key = some mapping := by
          rw [htable, Table.get?_put, if_pos rfl]
        rw [hfound (a.onto base) mapping (hbase.keeps _ _ hput), hanswer, honto]

/-- A step need only be known on the assignments that differ in the table. -/
theorem Repeats.congr {f g : Assignment → Assignment} (hf : Repeats kind a f)
    (h : ∀ b : Assignment, b.onto a = a → g b = f b) : Repeats kind a g := by
  have hself : g a = f a := h a rfl
  refine ⟨hself ▸ hf.grows, hself ▸ hf.sound, fun base hbase => ?_⟩
  rw [h (a.onto base) rfl, hself]
  exact hf.again base (hself ▸ hbase)

/-- A choice and what is done with its answer. -/
theorem Settles.bind {β : Type} {g : Assignment → β × Assignment} {f : β → Assignment → Assignment}
    (hg : Settles kind a g) (hf : Repeats kind (g a).2 (f (g a).1)) :
    Repeats kind a fun a => f (g a).1 (g a).2 where
  grows := hg.grows.trans hf.grows
  sound := hf.sound
  again base hbase := by
    have hchoice := hg.again base (hf.grows.trans hbase)
    rw [hchoice]
    exact hf.again base hbase

/-- One step and another one. -/
theorem Repeats.comp {f g : Assignment → Assignment} (hf : Repeats kind a f)
    (hg : Repeats kind (f a) g) : Repeats kind a fun a => g (f a) where
  grows := hf.grows.trans hg.grows
  sound := hg.sound
  again base hbase := by
    rw [hf.again base (hg.grows.trans hbase)]
    exact hg.again base hbase

/-- One step after the other. -/
theorem Repeats.foldl {α : Type} (step : Assignment → α → Assignment) {xs : List α}
    (hstep : ∀ a : Assignment, a.Sound → ∀ x ∈ xs, Repeats kind a (step · x)) (ha : a.Sound) :
    Repeats kind a fun a => xs.foldl step a := by
  induction xs generalizing a with
  | nil => exact ⟨Table.Grows.refl _ _, ha, fun _ _ => rfl⟩
  | cons x xs ih =>
    have hfirst := hstep a ha x List.mem_cons_self
    have hrest := ih (fun a ha x hx => hstep a ha x (List.mem_cons_of_mem _ hx)) hfirst.sound
    exact hfirst.comp hrest

end Steps

/-! ### Which keys are added -/

/-- The keys under which a renaming adds entries: those of the classes and members whose names are
to be replaced. -/
inductive IsAdded (policy : Policy) (p : Codebase) : String → Prop
  /-- The key of a class. -/
  | ofClass {c : Class} (hc : c ∈ p.classes) (h : policy.ofClass (simpleName (classKey c)) = true) :
    IsAdded policy p (classKey c)
  /-- The key of a member. -/
  | ofMember {c : Class} {owner : String} {x : Candidate} (hc : c ∈ p.classes)
    (howner : IsPlain owner) (hx : x ∈ candidates policy owner c) (h : x.obfuscated = true) :
    IsAdded policy p x.key

section Added

variable {policy : Policy} {p : Codebase} {c : Class}

/-- The key of a class whose name stays is never added. -/
theorem not_isAdded_classKey (hp : p.Plain) (hc : c ∈ p.classes)
    (h : policy.ofClass (simpleName (classKey c)) = false) : ¬IsAdded policy p (classKey c) := by
  intro hadded
  generalize hkey : classKey c = key at hadded
  cases hadded with
  | ofClass _ h' =>
    rw [← hkey, h] at h'
    cases h'
  | ofMember _ _ hx _ =>
    have hdot := dot_mem_key hx
    rw [← hkey] at hdot
    exact (isPlain_classKey hp hc).not_mem (by decide) hdot

/-- The key of a member whose name stays is never added. -/
theorem not_isAdded_key (hp : p.Plain) (hc : c ∈ p.classes) {owner : String}
    (howner : IsPlain owner) {x : Candidate} (hx : x ∈ candidates policy owner c)
    (h : x.obfuscated = false) : ¬IsAdded policy p x.key := by
  intro hadded
  generalize hkey : x.key = key at hadded
  cases hadded with
  | ofClass hc' _ =>
    have hdot := dot_mem_key hx
    rw [hkey] at hdot
    exact (isPlain_classKey hp hc').not_mem (by decide) hdot
  | ofMember hc' howner' hx' h' =>
    rw [← obfuscated_eq_of_key_eq hp hc hc' howner howner' hx hx' hkey, h] at h'
    cases h'

end Added

/-! ### Classes -/

namespace Assignment

variable {policy : Policy} {p : Codebase} {a : Assignment} {c : Class}

/-- The name of a class is chosen again. -/
theorem settles_chooseClassName (hp : p.Plain) (hc : c ∈ p.classes) (ha : a.Sound) :
    Settles (IsAdded policy p) a fun a => chooseClassName policy a c := by
  refine Settles.of_lookup (classKey c) (policy.ofClass (simpleName (classKey c))) Mapping.name
    c.name ha ?_ ?_ ?_
  · intro b mapping hget
    simp [chooseClassName, hget]
  · intro hpolicy
    refine ⟨not_isAdded_classKey hp hc hpolicy, fun b hget => ?_⟩
    simp [chooseClassName, hget, hpolicy]
  · intro hpolicy hget
    have hlegible := legible_rename (isPlain_classKey hp hc).isCell
      (isPlain_fresh (hp.className c hc).1 (a.classCounter + 1))
    refine ⟨.ofClass hc hpolicy, _, hlegible, ?_⟩
    simp [chooseClassName, hget, hpolicy, Table.insert, Mapping.name, onto]

/-- Giving a class its name does not look at the table. -/
theorem repeats_giveClassName (hp : p.Plain) (hc : c ∈ p.classes) (ha : a.Sound)
    (defaultPackage chosen : String) :
    Repeats (IsAdded policy p) a (giveClassName defaultPackage c chosen) := by
  obtain ⟨htable, hkeys, -⟩ := giveClassName_frame defaultPackage c chosen a
  refine Repeats.of_blind ha htable ?_ ?_
  · intro name key hget
    rw [hkeys, Std.HashMap.getElem?_insert] at hget
    split at hget
    · cases hget
      exact .inr (isPlain_classKey hp hc)
    · exact .inl hget
  · intro base
    rw [giveClassName, giveClassName]
    split <;> rfl

/-- A class is named again. -/
theorem repeats_nameClass (hp : p.Plain) (hc : c ∈ p.classes) (ha : a.Sound)
    (defaultPackage : String) :
    Repeats (IsAdded policy p) a (nameClass policy defaultPackage · c) := by
  have hchoice : Settles (IsAdded policy p) a fun a => chooseClassName policy a c :=
    settles_chooseClassName hp hc ha
  exact hchoice.bind (repeats_giveClassName hp hc hchoice.sound defaultPackage _)

/-! ### Members -/

variable {families : Families} {presentNames : Std.HashMap String String} {owner : String}
  {x : Candidate}

/-- What happens to a member is chosen again. -/
theorem settles_chooseMapping (hp : p.Plain) (hc : c ∈ p.classes) (howner : IsPlain owner)
    (hx : x ∈ candidates policy owner c) (ha : a.Sound) :
    Settles (IsAdded policy p) a fun a => chooseMapping a x := by
  have hcell := isCell_key hp hc howner hx
  refine Settles.of_lookup x.key x.obfuscated some none ha ?_ ?_ ?_
  · intro b mapping hget
    simp [chooseMapping, hget]
  · intro hobfuscated
    refine ⟨not_isAdded_key hp hc howner hx hobfuscated, fun b hget => ?_⟩
    simp [chooseMapping, hget, hobfuscated]
  · intro hobfuscated hget
    refine ⟨.ofMember hc howner hx hobfuscated, ?_⟩
    cases hmethod : isMethod x.member with
    | true =>
      refine ⟨_, legible_rename hcell
        (@isPlain_numbered "method" (by decide) (a.methodCounter + 1)), ?_⟩
      simp [chooseMapping, hget, hobfuscated, hmethod, Table.insert, onto]
    | false =>
      refine ⟨_, legible_rename hcell
        (@isPlain_numbered "field" (by decide) (a.fieldCounter + 1)), ?_⟩
      simp [chooseMapping, hget, hobfuscated, hmethod, Table.insert, onto]

/-- Noting a move does not look at the table. -/
theorem noteMove_onto (a base : Assignment) (m : Member) (mapping : Mapping) :
    noteMove presentNames (a.onto base) m mapping =
      ((noteMove presentNames a m mapping).1, (noteMove presentNames a m mapping).2.onto base) := by
  rw [noteMove, noteMove]
  split
  · rfl
  · split <;> rfl

/-- Following a mapping does not look at the table. -/
theorem followMapping_onto (a base : Assignment) (mapping? : Option Mapping) :
    followMapping families presentNames x mapping? (a.onto base) =
      (followMapping families presentNames x mapping? a).onto base := by
  cases mapping? with
  | none => rfl
  | some mapping =>
    simp only [followMapping, noteMove_onto]
    split <;> rfl

/-- Giving names to members uses no key of a class. -/
theorem classKeys_followMapping (a : Assignment) (mapping? : Option Mapping) :
    (followMapping families presentNames x mapping? a).classKeys = a.classKeys := by
  cases mapping? with
  | none => rfl
  | some mapping =>
    have hnote : (noteMove presentNames a x.member mapping).2.classKeys = a.classKeys := by
      rw [noteMove]
      split
      · rfl
      · split <;> rfl
    simp only [followMapping, mapFamily]
    split
    · exact hnote
    · exact hnote

/-- Giving a name that the table says repeats what was done. -/
theorem repeats_followMapping (ha : a.Sound) (mapping? : Option Mapping) :
    Repeats (IsAdded policy p) a (followMapping families presentNames x mapping?) := by
  -- a step that commutes with every exchange of the table keeps the one it has
  have hself : followMapping families presentNames x mapping? (a.onto a) =
      (followMapping families presentNames x mapping? a).onto a := followMapping_onto a a mapping?
  refine Repeats.of_blind ha ?_ ?_ fun base => followMapping_onto a base mapping?
  · exact congrArg (·.table) hself
  · intro name key hget
    rw [classKeys_followMapping] at hget
    exact .inl hget

/-- The family of a member is named again. -/
theorem repeats_nameMember (hp : p.Plain) (hc : c ∈ p.classes) (howner : IsPlain owner)
    (hx : x ∈ candidates policy owner c) (ha : a.Sound) :
    Repeats (IsAdded policy p) a (nameMember families presentNames · x) := by
  have hstays : Repeats (IsAdded policy p) a id := ⟨Table.Grows.refl _ _, ha, fun _ _ => rfl⟩
  cases hfamily : families.family? x.member with
  | none => exact hstays.congr fun b _ => by rw [nameMember, hfamily, id]
  | some family =>
    by_cases hdecided : a.decided.contains family
    · refine hstays.congr fun b hb => ?_
      have hb : b.decided = a.decided := congrArg (·.decided) hb
      rw [nameMember_of_family hfamily, hb, if_pos hdecided, id]
    · have hmark : Repeats (IsAdded policy p) a (markDecided family) :=
        Repeats.of_blind ha rfl (fun _ _ h => .inl h) fun _ => rfl
      have hchoice := settles_chooseMapping hp hc howner hx hmark.sound
      have hfollow : Repeats (IsAdded policy p) (chooseMapping (markDecided family a) x).2
          (followMapping families presentNames x (chooseMapping (markDecided family a) x).1) :=
        repeats_followMapping hchoice.sound _
      have hname := hmark.comp (hchoice.bind
        (f := fun mapping? => followMapping families presentNames x mapping?) hfollow)
      refine hname.congr fun b hb => ?_
      have hb : b.decided = a.decided := congrArg (·.decided) hb
      rw [nameMember_of_family hfamily, hb, if_neg hdecided]

/-- The members of a class are named again. -/
theorem repeats_nameMembers (hp : p.Plain) (hc : c ∈ p.classes) (ha : a.Sound) :
    Repeats (IsAdded policy p) a (nameMembers policy families presentNames · c) := by
  have howner : IsPlain ((a.classKeys[c.name]?).getD c.name) :=
    isPlain_getD ⟨(hp.className c hc).1, ha.plain c.name⟩
  have hmember : ∀ b : Assignment, b.Sound →
      ∀ x ∈ candidates policy ((a.classKeys[c.name]?).getD c.name) c,
        Repeats (IsAdded policy p) b (nameMember families presentNames · x) :=
    fun b hb x hx => repeats_nameMember hp hc howner hx hb
  have hfold := Repeats.foldl (nameMember families presentNames) hmember ha
  refine hfold.congr fun b hb => ?_
  have hb : b.classKeys = a.classKeys := congrArg (·.classKeys) hb
  rw [nameMembers, hb]

/-! ### Whole runs -/

/-- Assigning names over the table that a run left assigns the same names. -/
theorem ofCodebase_again (hp : p.Plain) {table : Table} (htable : table.Readable)
    (defaultPackage : String) :
    (ofCodebase policy defaultPackage p table).table.Readable ∧
    ofCodebase policy defaultPackage p (ofCodebase policy defaultPackage p table).table =
      (ofCodebase policy defaultPackage p table).onto
        (start (ofCodebase policy defaultPackage p table).table) := by
  have hstart : (start table).Sound := ⟨htable, by simp [start]⟩
  have hclass : ∀ a : Assignment, a.Sound → ∀ c ∈ p.classes,
      Repeats (IsAdded policy p) a (nameClass policy defaultPackage · c) :=
    fun a ha c hc => repeats_nameClass hp hc ha defaultPackage
  have hmember : ∀ presentNames (a : Assignment), a.Sound → ∀ c ∈ p.classes,
      Repeats (IsAdded policy p) a (nameMembers policy (Families.ofCodebase p) presentNames · c) :=
    fun presentNames a ha c hc => repeats_nameMembers hp hc ha
  have hclasses := Repeats.foldl _ hclass hstart
  -- The members are named over what the classes have left, so the second run agrees for classes
  -- first.
  have hmembers := Repeats.foldl _ (hmember (presentNames p
    (p.classes.foldl (nameClass policy defaultPackage) (start table)).names)) hclasses.sound
  refine ⟨hmembers.sound.readable, ?_⟩
  generalize hbase : start (ofCodebase policy defaultPackage p table).table = base
  have hgrown : base.table = (ofCodebase policy defaultPackage p table).table := by rw [← hbase]; rfl
  have hgrows : (ofCodebase policy defaultPackage p table).table.Grows (IsAdded policy p)
      base.table := hgrown ▸ Table.Grows.refl _ _
  have hbegin : start (ofCodebase policy defaultPackage p table).table = (start table).onto base :=
    hbase ▸ rfl
  have hnames := hclasses.again base (hmembers.grows.trans hgrows)
  rw [ofCodebase, hbegin, hnames]
  exact hmembers.again base hgrows

end Assignment

/-- **Renaming again**: if a codebase with plain names is renamed through a table that was read from
a text, then the table that is left reads back from its text, and renaming the same codebase through
it gives the same codebase, with the same changes counted, adds no entry and leaves the table as it
is. -/
theorem rename_again (policy : Policy) (defaultPackage : String) {p : Codebase} (hp : p.Plain)
    (text : String) {s : Summary} {p' : Codebase}
    (h : (rename policy defaultPackage p (Table.parse text).1).result = .ok (s, p')) :
    let left := (rename policy defaultPackage p (Table.parse text).1).table
    Table.parse left.text = (left, []) ∧
    (rename policy defaultPackage p (Table.parse left.text).1).table = left ∧
    (rename policy defaultPackage p (Table.parse left.text).1).result =
      .ok ({ s with newEntries := 0 }, p') := by
  intro left
  obtain ⟨hreadable, hagain⟩ := @Assignment.ofCodebase_again policy p hp _
    (Table.readable_parse text) defaultPackage
  have hparse : Table.parse left.text = (left, []) := Table.parse_text hreadable
  have hsame : Assignment.ofCodebase policy defaultPackage p left =
      (Assignment.ofCodebase policy defaultPackage p (Table.parse text).1).onto
        (Assignment.start left) := hagain
  rw [hparse]
  refine ⟨rfl, ?_, ?_⟩
  · rw [rename, hsame]
    rfl
  · rw [rename_result] at h ⊢
    rw [hsame]
    -- Both runs move the same members, since the moves are part of what the assignment repeats.
    generalize Assignment.ofCodebase policy defaultPackage p (Table.parse text).1 = a at h ⊢
    have hmoves : (a.onto (Assignment.start left)).moves = a.moves := rfl
    rw [hmoves]
    cases hmoved : (relocate p a.moves.reverse).2 with
    | error e =>
      rw [hmoved] at h
      cases h
    | ok moved =>
      rw [hmoved] at h
      cases h
      simp [Except.map, Assignment.onto, Assignment.start]

/-! ### Two small classes -/

/-- A class `a` and its subclass `bb`, which overrides `c`, says what it was called, and has a
method that takes an `a`. -/
def twoClasses : Codebase :=
  { classes :=
      [{ name := "a", superclass := some "java/lang/Object", access := ⟨0x0021⟩
         fields := [{ owner := "a", name := "b", descriptor := "I", access := ⟨0x0009⟩ }]
         methods := [{ owner := "a", name := "c", descriptor := "()V", access := ⟨0x0001⟩ }] },
       { name := "bb", superclass := some "a", access := ⟨0x0021⟩
         annotations := [⟨"LObfuscatedName;", true, [("value", .const 115 (.string "x"))]⟩]
         methods :=
           [{ owner := "bb", name := "c", descriptor := "()V", access := ⟨0x0001⟩ },
            { owner := "bb", name := "run", descriptor := "(La;)V", access := ⟨0x0001⟩ }] }] }

/-- The names of the two classes are plain. -/
theorem plain_twoClasses : twoClasses.Plain := by
  have hnone : ∀ {name : String}, IsPlain name → PlainNames name [] := by
    intro name h
    exact ⟨h, fun n hn => by cases hn⟩
  have hrecorded : PlainNames "bb" [⟨"LObfuscatedName;", true, [("value", .const 115 (.string "x"))]⟩] := by
    refine ⟨by decide, ?_⟩
    rintro n ⟨⟩
    decide
  constructor <;>
    simp only [twoClasses, List.forall_mem_cons, List.not_mem_nil, false_implies, implies_true,
      and_true]
  · exact ⟨hnone (by decide), hrecorded⟩
  · exact hnone (by decide)
  · exact ⟨hnone (by decide), hnone (by decide), hnone (by decide)⟩
  · exact ⟨.base .int, rfl, by simp [Descriptor.FieldType.classNames]⟩
  · refine ⟨⟨⟨[], none⟩, rfl, ?_⟩, ⟨⟨[], none⟩, rfl, ?_⟩, ⟨⟨[.object "a"], none⟩, rfl, ?_⟩⟩
    · simp [Descriptor.MethodType.classNames]
    · simp [Descriptor.MethodType.classNames]
    · simpa [Descriptor.MethodType.classNames, Descriptor.FieldType.classNames] using
        (by decide : IsPlain "a")

/-- The text has two entries, apart from its comment and blanks. -/
theorem parse_sample :
    Table.parse "a.b:I=count # said\n  a = client.Main\n" =
      (⟨[("a", .rename "client/Main"), ("a.b:I", .rename "count")]⟩, []) := by
  decide +kernel

/-- A second run with the table that the first one leaves gives the same names. -/
theorem rename_again_twoClasses :
    twoClasses.Plain ∧ ∃ s p',
      (rename {} "deob" twoClasses
        (Table.parse "a.b:I=count # said\n  a = client.Main\n").1).result = .ok (s, p') ∧
      let left := (rename {} "deob" twoClasses
        (Table.parse "a.b:I=count # said\n  a = client.Main\n").1).table
      Table.parse left.text = (left, []) ∧
      (rename {} "deob" twoClasses (Table.parse left.text).1).table = left ∧
      (rename {} "deob" twoClasses (Table.parse left.text).1).result =
        .ok ({ s with newEntries := 0 }, p') := by
  have hstationary : (Table.parse "a.b:I=count # said\n  a = client.Main\n").1.Stationary := by
    rw [parse_sample]
    exact Table.stationary_of_forall (by simp [Mapping.owner?])
  obtain ⟨s, hok⟩ := rename_result_of_stationary {} "deob" twoClasses hstationary
  exact ⟨plain_twoClasses, s, _, hok, rename_again {} "deob" plain_twoClasses _ hok⟩

end Unscramble.Naming
