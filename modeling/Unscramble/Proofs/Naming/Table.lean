import Unscramble.Naming.Table
import Unscramble.Proofs.Lists
import Unscramble.Proofs.Text

/-! # Reading and writing name tables

A table is a map that is kept in ascending order of its keys, and its text has one line for each
entry. Every entry that is read from some line can be written as a line that is read as the same
entry, so a table that was read and to which such entries were added reads back from its text.

Main definitions: `Table.Sorted`, `Table.Legible`. Main statements: `Table.get?_put`,
`Table.parseLine_written`, `Table.legible_of_parseLine`, `Table.parse_text`. -/

namespace Unscramble.Naming.Table

/-! ### Entries by key -/

/-- The entries stand in ascending order of their keys, and no key has two. -/
def Sorted (t : Table) : Prop :=
  t.entries.Pairwise (·.1 < ·.1)

/-- Other keys are found behind the entries of one. -/
theorem lookup_dropWhile {key k : String} (hne : k ≠ key) (entries : List (String × Mapping)) :
    (entries.dropWhile (·.1 == key)).lookup k = entries.lookup k := by
  induction entries with
  | nil => rfl
  | cons e entries ih =>
    by_cases he : e.1 = key
    · have hk : (k == e.1) = false := by simpa [he] using hne
      rw [List.dropWhile_cons_of_pos (by simpa using he), ih, List.lookup_cons, hk]
    · rw [List.dropWhile_cons_of_neg (by simpa using he)]

/-- A mapping that was put is found under its key, and all others are found as before. -/
theorem get?_put (t : Table) (key : String) (mapping : Mapping) (k : String) :
    (t.put key mapping).get? k = if k = key then some mapping else t.get? k := by
  rw [get?, put, putIn, List.span_eq_takeWhile_dropWhile, List.lookup_append]
  split
  · next hk =>
    subst hk
    have hnone : (t.entries.takeWhile (·.1 < k)).lookup k = none := by
      rw [List.lookup_eq_none_iff]
      intro e he
      have hlt : e.1 < k := by simpa using List.mem_takeWhile_imp he
      simpa using fun hke => String.lt_irrefl _ (hke ▸ hlt)
    rw [hnone, List.lookup_cons_self, Option.none_or]
  · next hk =>
    have hkey : (k == key) = false := by simpa using hk
    rw [List.lookup_cons, hkey, lookup_dropWhile hk, ← List.lookup_append,
      List.takeWhile_append_dropWhile, get?]

/-- What follows the entries up to a key has greater keys. -/
theorem lt_of_mem_dropWhile {entries : List (String × Mapping)} {key : String}
    (h : entries.Pairwise (·.1 < ·.1)) (hhead : ∀ e ∈ entries.head?, ¬e.1 < key) :
    ∀ e ∈ entries.dropWhile (·.1 == key), key < e.1 := by
  cases entries with
  | nil => simp
  | cons first rest =>
    obtain ⟨hfirst, -⟩ := List.pairwise_cons.1 h
    have hnot : ¬first.1 < key := hhead first rfl
    intro e he
    by_cases hkey : first.1 = key
    · rw [List.dropWhile_cons_of_pos (by simpa using hkey)] at he
      exact hkey ▸ hfirst e ((List.dropWhile_sublist _).subset he)
    · have hlt : key < first.1 := by
        rw [← String.not_le]
        intro hle
        exact hkey (String.le_antisymm hle (String.not_lt.1 hnot))
      rw [List.dropWhile_cons_of_neg (by simpa using hkey)] at he
      rcases List.mem_cons.1 he with rfl | he
      · exact hlt
      · exact String.lt_trans hlt (hfirst e he)

/-- An entry that was put keeps the order. -/
theorem Sorted.put {t : Table} (h : t.Sorted) (key : String) (mapping : Mapping) :
    (t.put key mapping).Sorted := by
  have hsplit : t.entries.takeWhile (·.1 < key) ++ t.entries.dropWhile (·.1 < key) = t.entries :=
    List.takeWhile_append_dropWhile
  rw [Sorted, ← hsplit, List.pairwise_append] at h
  obtain ⟨hsmaller, hrest, hacross⟩ := h
  have hhead : ∀ e ∈ (t.entries.dropWhile (·.1 < key)).head?, ¬e.1 < key := by
    intro e he
    have hfalse := List.head?_dropWhile_not (fun e : String × Mapping => decide (e.1 < key)) t.entries
    rw [Option.mem_def.1 he] at hfalse
    simpa using hfalse
  have hgreater := lt_of_mem_dropWhile hrest hhead
  rw [Sorted, Table.put, putIn, List.span_eq_takeWhile_dropWhile, List.pairwise_append,
    List.pairwise_cons]
  refine ⟨hsmaller, ⟨hgreater, hrest.sublist (List.dropWhile_sublist _)⟩, ?_⟩
  intro a ha b hb
  rcases List.mem_cons.1 hb with rfl | hb
  · simpa using List.mem_takeWhile_imp ha
  · exact hacross a ha b ((List.dropWhile_sublist _).subset hb)

/-! ### Lines -/

/-- A text that can stand between the separators of a line. -/
structure IsCell (cs : List Char) : Prop where
  /-- It is not empty. -/
  ne_nil : cs ≠ []
  /-- It has no blanks at its ends. -/
  trimmed : Text.trimChars cs = cs
  /-- It does not begin a comment. -/
  comment : '#' ∉ cs
  /-- It has no separator of key and value. -/
  equals : '=' ∉ cs
  /-- It has no line feed. -/
  lineFeed : '\n' ∉ cs

/-- A text of one line is a cell once it is trimmed, unless nothing is left. -/
theorem isCell_trimChars {cs : List Char} (hcomment : '#' ∉ cs)
    (hequals : '=' ∉ Text.trimChars cs) (hlineFeed : '\n' ∉ cs) (hne : Text.trimChars cs ≠ []) :
    IsCell (Text.trimChars cs) where
  ne_nil := hne
  trimmed := Text.trimChars_trimChars cs
  comment := fun hc => hcomment (Text.mem_of_mem_trimChars hc)
  equals := hequals
  lineFeed := fun hc => hlineFeed (Text.mem_of_mem_trimChars hc)

/-- A part of a cell is a cell once it is trimmed, unless nothing is left. -/
theorem IsCell.trimChars {cs part : List Char} (h : IsCell cs) (hpart : ∀ c ∈ part, c ∈ cs)
    (hne : Text.trimChars part ≠ []) : IsCell (Text.trimChars part) :=
  isCell_trimChars (fun hc => h.comment (hpart _ hc))
    (fun hc => h.equals (hpart _ (Text.mem_of_mem_trimChars hc)))
    (fun hc => h.lineFeed (hpart _ hc)) hne

/-- Two cells with a separator between them. -/
theorem IsCell.join {xs ys : List Char} (hx : IsCell xs) (hy : IsCell ys) :
    IsCell (xs ++ ',' :: ys) := by
  have htrimmed := Text.trimChars_append [','] hx.ne_nil hy.ne_nil hx.trimmed hy.trimmed
  rw [List.append_assoc, List.singleton_append] at htrimmed
  constructor
  · simp
  · exact htrimmed
  · simp [hx.comment, hy.comment]
  · simp [hx.equals, hy.equals]
  · simp [hx.lineFeed, hy.lineFeed]

/-- A cell with dots replaced by slashes. -/
theorem IsCell.slashed {s : String} (h : IsCell s.toList) :
    IsCell (Text.replaceChar '.' '/' s).toList := by
  have hblank : ∀ c, Text.isBlank c = false →
      Text.isBlank (if c == '.' then '/' else c) = false := by
    intro c hc
    split
    · decide
    · exact hc
  constructor
  · simpa using h.ne_nil
  · obtain ⟨hhead, hlast⟩ := Text.trimChars_eq_self_iff.1 h.trimmed
    rw [Text.toList_replaceChar]
    refine Text.trimChars_eq_self_iff.2 ⟨?_, ?_⟩
    · simpa using fun c hc => hblank c (hhead c hc)
    · simpa using fun c hc => hblank c (hlast c hc)
  · exact fun hc => (Text.mem_replaceChar hc).elim (by decide) fun hc => h.comment hc.1
  · exact fun hc => (Text.mem_replaceChar hc).elim (by decide) fun hc => h.equals hc.1
  · exact fun hc => (Text.mem_replaceChar hc).elim (by decide) fun hc => h.lineFeed hc.1

/-- An entry that reads back from the line it is written as. -/
def Legible (key : String) : Mapping → Prop
  | .rename name =>
    IsCell key.toList ∧ IsCell name.toList ∧ ',' ∉ name.toList ∧
      ('.' ∉ key.toList → '.' ∉ name.toList)
  | .relocate owner name =>
    IsCell key.toList ∧ IsCell owner.toList ∧ IsCell name.toList ∧ ',' ∉ owner.toList ∧
      ',' ∉ name.toList ∧ '.' ∈ key.toList ∧ '.' ∉ owner.toList

/-- The key of a legible entry may stand in a table. -/
theorem Legible.isCell_key {key : String} {mapping : Mapping} (h : Legible key mapping) :
    IsCell key.toList := by
  cases mapping with
  | rename name => exact h.1
  | relocate owner name => exact h.1

/-- The value of a legible entry stands in its line between separators. -/
theorem Legible.isCell_text {key : String} {mapping : Mapping} (h : Legible key mapping) :
    IsCell mapping.text.toList := by
  cases mapping with
  | rename name => exact h.2.1
  | relocate owner name =>
    obtain ⟨-, howner, hname, -⟩ := h
    simpa [Mapping.text] using howner.join hname

/-- The line of an entry. -/
def line (key : String) (mapping : Mapping) : String :=
  key ++ "=" ++ mapping.text

/-- The characters of a line are those of its key and its mapping. -/
theorem toList_line (key : String) (mapping : Mapping) :
    (line key mapping).toList = key.toList ++ '=' :: mapping.text.toList := by
  simp [line]

/-- The mapping of a legible entry is read from its value. -/
theorem parseMapping_text {key : String} {mapping : Mapping} (h : Legible key mapping) :
    parseMapping key.toList mapping.text.toList = .ok mapping := by
  cases mapping with
  | rename name =>
    obtain ⟨-, -, hcomma, hdot⟩ := h
    rw [parseMapping, Mapping.text, Text.cut_eq_none_iff.2 hcomma]
    by_cases hkey : '.' ∈ key.toList
    · simp [hkey]
    · simp [hkey, Text.replaceChar_of_not_mem (hdot hkey)]
  | relocate owner name =>
    obtain ⟨-, howner, hname, hcommaOwner, hcommaName, hkey, hdot⟩ := h
    have hcut : Text.cut ',' (Mapping.text (.relocate owner name)).toList =
        some (owner.toList, name.toList) :=
      Text.cut_eq_some_iff.2 ⟨by simp [Mapping.text], hcommaOwner⟩
    rw [parseMapping, hcut]
    simp [howner.trimmed, hname.trimmed, hkey, howner.ne_nil, hname.ne_nil, hcommaName,
      Text.replaceChar_of_not_mem hdot]

/-- A legible entry is read from its line. -/
theorem parseLine_line {key : String} {mapping : Mapping} (h : Legible key mapping) :
    parseLine (line key mapping) = .ok (some (key, mapping)) := by
  have hkey := h.isCell_key
  have hvalue := h.isCell_text
  have hcomment : (line key mapping).toList.takeWhile (· != '#') = (line key mapping).toList := by
    rw [List.takeWhile_eq_self_iff, toList_line]
    intro c hc
    rw [bne_iff_ne]
    rintro rfl
    simp [hkey.comment, hvalue.comment] at hc
  have htrimmed : Text.trimChars (line key mapping).toList = (line key mapping).toList := by
    have happend :=
      Text.trimChars_append ['='] hkey.ne_nil hvalue.ne_nil hkey.trimmed hvalue.trimmed
    rw [List.append_assoc, List.singleton_append] at happend
    rw [toList_line, happend]
  have hlast : (line key mapping).toList.getLast? ≠ some '=' := by
    rw [toList_line, List.append_cons, List.getLast?_append_of_ne_nil _ hvalue.ne_nil]
    exact fun hlast => hvalue.equals (List.mem_of_mem_getLast? hlast)
  have hcut : Text.cut '=' (line key mapping).toList = some (key.toList, mapping.text.toList) :=
    Text.cut_eq_some_iff.2 ⟨toList_line key mapping, hkey.equals⟩
  have hne : (line key mapping).toList ≠ [] := by simp [toList_line]
  rw [parseLine, hcomment, htrimmed, parseEntry, hcut]
  simp [hne, hlast, hkey.trimmed, hvalue.trimmed, hkey.ne_nil, hvalue.equals,
    parseMapping_text h, Except.map]

/-- A mapping that is read from a value belongs to a legible entry. -/
theorem legible_of_parseMapping {key value : List Char} {mapping : Mapping} (hkey : IsCell key)
    (hvalue : IsCell value) (h : parseMapping key value = .ok mapping) :
    Legible (String.ofList key) mapping := by
  have hkey' : IsCell (String.ofList key).toList := by rwa [String.toList_ofList]
  rw [parseMapping] at h
  split at h
  -- With a comma the value is an owner and a name, without one it is a name alone.
  · next owner name hcut =>
    obtain ⟨rfl, hcomma⟩ := Text.cut_eq_some_iff.1 hcut
    split at h
    · cases h
    · next hclass =>
      dsimp only at h
      split at h
      · cases h
      · next hempty =>
        cases h
        simp only [Bool.or_eq_true, not_or, List.isEmpty_iff, List.contains_iff_mem] at hempty
        obtain ⟨⟨howner, hname⟩, hmore⟩ := hempty
        have hownerCell : IsCell (Text.trimChars owner) :=
          hvalue.trimChars (fun c hc => List.mem_append_left _ hc) howner
        have hnameCell : IsCell (Text.trimChars name) :=
          hvalue.trimChars (fun c hc => List.mem_append_right _ (List.mem_cons_of_mem _ hc)) hname
        rw [← String.toList_ofList (l := Text.trimChars owner)] at hownerCell
        refine ⟨hkey', hownerCell.slashed, ?_, ?_, ?_, ?_, ?_⟩
        · rwa [String.toList_ofList]
        · intro hc
          rcases Text.mem_replaceChar hc with hc | ⟨hc, -⟩
          · exact absurd hc (by decide)
          · rw [String.toList_ofList] at hc
            exact hcomma (Text.mem_of_mem_trimChars hc)
        · rwa [String.toList_ofList]
        · simpa using hclass
        · exact fun hc => (Text.mem_replaceChar hc).elim (by decide) fun hc => hc.2 rfl
  · next hcut =>
    rw [Text.cut_eq_none_iff] at hcut
    rw [← String.toList_ofList (l := value)] at hvalue
    cases h
    by_cases hclass : '.' ∈ key
    · rw [if_neg (by simpa using hclass)]
      exact ⟨hkey', hvalue, by rwa [String.toList_ofList], fun hdot => absurd hclass (by simpa using hdot)⟩
    · rw [if_pos (by simpa using hclass)]
      refine ⟨hkey', hvalue.slashed, ?_, ?_⟩
      · intro hc
        rcases Text.mem_replaceChar hc with hc | ⟨hc, -⟩
        · exact absurd hc (by decide)
        · exact hcut (by rwa [String.toList_ofList] at hc)
      · exact fun _ hc => (Text.mem_replaceChar hc).elim (by decide) fun hc => hc.2 rfl

/-- What is read from a line is legible. -/
theorem legible_of_parseLine {l key : String} {mapping : Mapping} (hl : '\n' ∉ l.toList)
    (h : parseLine l = .ok (some (key, mapping))) : Legible key mapping := by
  have hcomment : '#' ∉ Text.trimChars (l.toList.takeWhile (· != '#')) := by
    intro hc
    have hbne := List.mem_takeWhile_imp (Text.mem_of_mem_trimChars hc)
    simp at hbne
  have hlineFeed : '\n' ∉ Text.trimChars (l.toList.takeWhile (· != '#')) := fun hc =>
    hl ((List.takeWhile_sublist _).subset (Text.mem_of_mem_trimChars hc))
  have hlast := (Text.trimChars_ends (l.toList.takeWhile (· != '#'))).2
  rw [parseLine, parseEntry] at h
  generalize Text.trimChars (l.toList.takeWhile (· != '#')) = cs at *
  split at h
  · cases h
  · next hcs =>
    split at h
    · cases h
    · next k v hcut =>
      obtain ⟨rfl, hequals⟩ := Text.cut_eq_some_iff.1 hcut
      dsimp only at h
      split at h
      · cases h
      · next hk =>
        split at h
        · cases h
        · next hv =>
          have hkey : IsCell (Text.trimChars k) := by
            refine isCell_trimChars ?_ ?_ ?_ (by simpa using hk)
            · exact fun hc => hcomment (List.mem_append_left _ hc)
            · exact fun hc => hequals (Text.mem_of_mem_trimChars hc)
            · exact fun hc => hlineFeed (List.mem_append_left _ hc)
          have hvalue : IsCell (Text.trimChars v) := by
            refine isCell_trimChars ?_ (by simpa using hv) ?_ ?_
            · exact fun hc => hcomment (List.mem_append_right _ (List.mem_cons_of_mem _ hc))
            · exact fun hc => hlineFeed (List.mem_append_right _ (List.mem_cons_of_mem _ hc))
            · -- the line ends in a character of its value that is not blank
              rcases List.eq_nil_or_concat' v with rfl | ⟨front, c, rfl⟩
              · simp at hcs
              · refine Text.trimChars_ne_nil List.mem_concat_self (hlast c ?_)
                rw [← List.cons_append, ← List.append_assoc]
                exact List.getLast?_concat
          cases hmapping : parseMapping (Text.trimChars k) (Text.trimChars v) with
          | error fault =>
            rw [hmapping] at h
            cases h
          | ok found =>
            rw [hmapping] at h
            cases h
            exact legible_of_parseMapping hkey hvalue hmapping

/-! ### Tables as texts -/

/-- A table all of whose entries can be written and read. -/
structure Readable (t : Table) : Prop where
  /-- The entries are in order. -/
  sorted : t.Sorted
  /-- Every entry reads back from its line. -/
  legible : ∀ e ∈ t.entries, Legible e.1 e.2

/-- The empty table is readable. -/
theorem readable_empty : Readable {} := ⟨List.Pairwise.nil, by simp⟩

/-- The entries after one was put. -/
theorem mem_entries_put {t : Table} {key : String} {mapping : Mapping} {e : String × Mapping}
    (h : e ∈ (t.put key mapping).entries) : e = (key, mapping) ∨ e ∈ t.entries := by
  rw [put, putIn, List.span_eq_takeWhile_dropWhile, List.mem_append, List.mem_cons] at h
  rcases h with h | h | h
  · exact .inr ((List.takeWhile_sublist _).subset h)
  · exact .inl h
  · exact .inr ((List.dropWhile_sublist _).subset ((List.dropWhile_sublist _).subset h))

/-- A table stays readable if a legible entry is put. -/
theorem Readable.put {t : Table} (h : t.Readable) {key : String} {mapping : Mapping}
    (hentry : Legible key mapping) : (t.put key mapping).Readable := by
  refine ⟨h.sorted.put key mapping, fun e he => ?_⟩
  rcases mem_entries_put he with rfl | he
  · exact hentry
  · exact h.legible e he

/-- A line adds a legible entry or nothing. -/
theorem Readable.addLine {state : Table × List Error} (h : state.1.Readable) {l : String × Nat}
    (hl : '\n' ∉ l.1.toList) : (addLine state l).1.Readable := by
  rw [Table.addLine]
  split
  · exact h
  · next key mapping hparse => exact h.put (legible_of_parseLine hl hparse)
  · exact h

/-- A table that was read is readable. -/
theorem readable_parse (text : String) : (parse text).1.Readable := by
  have hlines : ∀ l ∈ (Text.lines text).zipIdx, '\n' ∉ l.1.toList := by
    intro l hl
    obtain ⟨cs, hcs, hl⟩ := List.mem_map.1 (List.fst_mem_of_mem_zipIdx hl)
    rw [← hl, String.toList_ofList]
    exact Text.not_mem_of_mem_linesFrom List.not_mem_nil hcs
  have hfold : ∀ (ls : List (String × Nat)) (state : Table × List Error),
      (∀ l ∈ ls, '\n' ∉ l.1.toList) → state.1.Readable → (ls.foldl addLine state).1.Readable := by
    intro ls
    induction ls with
    | nil => exact fun _ _ h => h
    | cons l ls ih =>
      intro state hls h
      exact ih _ (fun l hl => hls l (List.mem_cons_of_mem _ hl)) (h.addLine (hls l List.mem_cons_self))
  exact hfold _ _ hlines readable_empty

/-- The characters of a table are those of its lines. -/
theorem toList_text (t : Table) :
    t.text.toList = (t.entries.map fun e => (line e.1 e.2).toList).flatMap (· ++ ['\n']) := by
  have hfold : ∀ (entries : List (String × Mapping)) (front : String),
      (entries.foldl (fun acc e => acc ++ e.1 ++ "=" ++ e.2.text ++ "\n") front).toList =
        front.toList ++ (entries.map fun e => (line e.1 e.2).toList).flatMap (· ++ ['\n']) := by
    intro entries
    induction entries with
    | nil => simp
    | cons e entries ih =>
      intro front
      rw [List.foldl_cons, ih]
      simp [line]
  exact hfold t.entries ""

/-- The text of a table has one line for each entry. -/
theorem lines_text {t : Table} (h : t.Readable) :
    Text.lines t.text = t.entries.map fun e => line e.1 e.2 := by
  have hlines : ∀ l ∈ t.entries.map (fun e => (line e.1 e.2).toList), '\n' ∉ l := by
    intro l hl
    obtain ⟨e, he, rfl⟩ := List.mem_map.1 hl
    have hentry := h.legible e he
    simp [toList_line, hentry.isCell_key.lineFeed, hentry.isCell_text.lineFeed]
  rw [Text.lines, toList_text, Text.linesFrom_lines hlines, List.map_map]
  simp

/-- An entry with the greatest key is put at the end. -/
theorem put_of_forall_lt {entries : List (String × Mapping)} {key : String}
    (h : ∀ e ∈ entries, e.1 < key) (mapping : Mapping) :
    put ⟨entries⟩ key mapping = ⟨entries ++ [(key, mapping)]⟩ := by
  have htake : entries.takeWhile (fun e => decide (e.1 < key)) = entries :=
    List.takeWhile_eq_self_iff.2 fun e he => by simpa using h e he
  have hdrop : entries.dropWhile (fun e => decide (e.1 < key)) = [] :=
    List.dropWhile_eq_nil_iff.2 fun e he => by simpa using h e he
  rw [put, putIn, List.span_eq_takeWhile_dropWhile, htake, hdrop]
  rfl

/-- The lines of entries in order are read as these entries. -/
theorem foldl_addLine_lines {entries : List (String × Mapping)} (done : List (String × Mapping))
    (i : Nat)
    (hsorted : (done ++ entries).Pairwise (·.1 < ·.1)) (hlegible : ∀ e ∈ entries, Legible e.1 e.2) :
    ((entries.map fun e => line e.1 e.2).zipIdx i).foldl addLine (⟨done⟩, []) =
      (⟨done ++ entries⟩, []) := by
  induction entries generalizing done i with
  | nil => simp
  | cons e entries ih =>
    have hbefore : ∀ d ∈ done, d.1 < e.1 := fun d hd =>
      (List.pairwise_append.1 hsorted).2.2 d hd e List.mem_cons_self
    have hstep : addLine (⟨done⟩, []) (line e.1 e.2, i) = (⟨done ++ [e]⟩, []) := by
      rw [addLine, parseLine_line (hlegible e List.mem_cons_self)]
      dsimp only
      rw [put_of_forall_lt hbefore]
    rw [List.map_cons, List.zipIdx_cons, List.foldl_cons, hstep]
    rw [List.append_cons] at hsorted
    rw [List.append_cons done e entries]
    exact ih _ (i + 1) hsorted fun e he => hlegible e (List.mem_cons_of_mem _ he)

/-- A readable table reads back from its text, and no line is faulty. -/
theorem parse_text {t : Table} (h : t.Readable) : parse t.text = (t, []) := by
  rw [parse, lines_text h, foldl_addLine_lines [] 0 h.sorted h.legible]
  rfl

/-! ### What a text says -/

/-- The mapping that a line gives to a key. -/
def lineMapping? (key line : String) : Option Mapping :=
  match parseLine line with
  | .ok (some (k, mapping)) => if k = key then some mapping else none
  | _ => none

/-- A line changes what a table says of the key it gives a mapping to, and of no other. -/
theorem get?_addLine (state : Table × List Error) (l : String × Nat) (key : String) :
    (addLine state l).1.get? key = (lineMapping? key l.1).or (state.1.get? key) := by
  rw [addLine, lineMapping?]
  rcases parseLine l.1 with fault | _ | ⟨k, mapping⟩
  · rfl
  · rfl
  · dsimp only
    rw [get?_put]
    by_cases hk : k = key
    · rw [if_pos hk, if_pos hk.symm, Option.some_or]
    · rw [if_neg hk, if_neg (Ne.symm hk), Option.none_or]

/-- What lines add to a table is what the last line with a key says of it. -/
theorem get?_foldl_addLine (ls : List (String × Nat)) (state : Table × List Error) (key : String) :
    (ls.foldl addLine state).1.get? key =
      ((ls.map (·.1)).reverse.findSome? (lineMapping? key)).or (state.1.get? key) := by
  induction ls generalizing state with
  | nil => rfl
  | cons l ls ih =>
    rw [List.foldl_cons, ih, get?_addLine, List.map_cons, List.reverse_cons, List.findSome?_append,
      List.findSome?_singleton, Option.or_assoc]

/-- A table is read with the entry of each key that stands last in the text. -/
theorem get?_parse (text key : String) :
    (parse text).1.get? key = (Text.lines text).reverse.findSome? (lineMapping? key) := by
  have hlines : (Text.lines text).zipIdx.map (·.1) = Text.lines text := List.zipIdx_map_fst 0 _
  rw [parse, get?_foldl_addLine, hlines]
  exact Option.or_none

/-- A table that was read from any text reads back from what is written of it, and no line is
faulty. It is written as a line for each entry, which is read as that entry; and it has exactly the
entries that lines of the first text gave, the last one of those with the same key. -/
theorem parse_text_parse (text : String) :
    parse (parse text).1.text = ((parse text).1, []) ∧
      (Text.lines (parse text).1.text).map parseLine =
        (parse text).1.entries.map (fun e => .ok (some e)) ∧
      ∀ key, (parse text).1.get? key =
        (Text.lines text).reverse.findSome? (lineMapping? key) := by
  have hreadable := readable_parse text
  refine ⟨parse_text hreadable, ?_, get?_parse text⟩
  rw [lines_text hreadable, List.map_map]
  refine List.map_congr_left fun e he => ?_
  rw [Function.comp_apply]
  exact parseLine_line (hreadable.legible e he)

end Unscramble.Naming.Table
