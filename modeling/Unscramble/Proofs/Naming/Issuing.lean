import Unscramble.Proofs.Naming.Keys
import Unscramble.Proofs.Naming.Stability

/-! # The names a renaming generates

A counter starts at the greatest number that a name of its stem ends in, whatever the table says the
name is for, and goes up by one for each name that is generated. So the numbers of the generated
names lie above all numbers of the table, each is given once, and since the table is asked before a
name is generated, the name is recorded under a key that the table did not have.

Main definitions: `Issue`, `Assignment.issues`, `Assignment.Gives`. Main statements:
`Assignment.gives_ofCodebase`, `issues_fresh`. -/

namespace Unscramble

namespace Text

/-- A count is read from its digits. -/
theorem count?_toString {n : Nat} (h : n ≤ maxCount) : count? (toString n).toList = some n := by
  have hdigits : ∀ c ∈ (toString n).toList, c.isDigit = true := fun c hc =>
    isDigit_of_mem_toString hc
  have hne : (toString n).toList ≠ [] := by
    rw [Nat.toString_eq_ofList_toDigits, String.toList_ofList]
    exact Nat.toDigits_ne_nil
  have hsign : (toString n).toList.head? ≠ some '+' := by
    intro hhead
    exact absurd (hdigits '+' (List.mem_of_mem_head? hhead)) (by decide)
  have hvalue : (toString n).toList.foldl (fun n c => n * 10 + (c.toNat - '0'.toNat)) 0 = n := by
    have hread := Nat.ofDigitChars_toDigits (b := 10) (n := n) (by decide) (by decide)
    rw [Nat.ofDigitChars] at hread
    rw [Nat.toString_eq_ofList_toDigits, String.toList_ofList]
    simpa only [Nat.mul_comm 10] using hread
  have hall : ((toString n).toList.isEmpty || !(toString n).toList.all Char.isDigit) = false := by
    rw [Bool.or_eq_false_iff, Bool.not_eq_false', List.all_eq_true]
    exact ⟨List.isEmpty_eq_false_iff.2 hne, hdigits⟩
  have hunsigned : ((toString n).toList.head? == some '+') = false := beq_false_of_ne hsign
  simp only [count?, hunsigned, hall, hvalue, h, Bool.false_eq_true, if_false, if_true]

/-- The rest of a text behind its start. -/
theorem stripStart?_append (start rest : String) : stripStart? start (start ++ rest) = some rest := by
  have hprefix : start.toList.isPrefixOf (start ++ rest).toList = true := by simp
  rw [stripStart?, if_pos hprefix, String.toList_append, List.drop_left' String.length_toList,
    String.ofList_toList]

end Text

namespace Naming

/-! ### Numbers of a table -/

namespace Table

variable {t : Table} {stem : String}

/-- A name with a number that a counter can have counts. -/
theorem counter?_eq_some {mapping : Mapping} {n : Nat}
    (h : simpleName mapping.name = stem ++ toString n) (hn : n ≤ Text.maxCount) :
    counter? stem mapping = some n := by
  rw [counter?, show Text.afterLast '/' mapping.name = _ from h, Text.stripStart?_append,
    Option.bind_some, Text.count?_toString hn]

/-- No number of a stem is above its counter. -/
theorem le_highestCounter {e : String × Mapping} (he : e ∈ t.entries) {n : Nat}
    (h : counter? stem e.2 = some n) : n ≤ t.highestCounter stem := by
  rw [highestCounter, List.foldl_max]
  have hmem : n ∈ t.entries.filterMap fun e => counter? stem e.2 :=
    List.mem_filterMap.2 ⟨e, he, h⟩
  have hmax := List.le_max_of_mem hmem
  rw [List.max?_eq_some_max (List.ne_nil_of_mem hmem)]
  exact hmax.trans (Nat.le_max_right 0 _)

/-- Names with numbers above the counter of a table are not in it. -/
theorem simpleName_ne_of_highestCounter_lt {e : String × Mapping} (he : e ∈ t.entries) {n : Nat}
    (hlt : t.highestCounter stem < n) (hn : n ≤ Text.maxCount) :
    simpleName e.2.name ≠ stem ++ toString n := by
  intro h
  have hle := le_highestCounter he (counter?_eq_some h hn)
  omega

/-- An entry under a key that the table lacks is one more. -/
theorem entries_put_perm {key : String} (h : t.get? key = none) (mapping : Mapping) :
    (t.put key mapping).entries.Perm ((key, mapping) :: t.entries) := by
  have hkeys : ∀ e ∈ t.entries, ¬e.1 = key := by
    intro e he heq
    have hne := List.lookup_eq_none_iff.1 h e he
    simp [heq] at hne
  have hrest : (t.entries.dropWhile (·.1 < key)).dropWhile (·.1 == key) =
      t.entries.dropWhile (·.1 < key) := by
    rw [List.dropWhile_eq_self_iff]
    intro hlt
    have hmem := (List.dropWhile_sublist (fun e : String × Mapping => decide (e.1 < key))).subset
      (List.getElem_mem hlt)
    simpa using hkeys _ hmem
  rw [put, putIn, List.span_eq_takeWhile_dropWhile]
  dsimp only
  rw [hrest]
  refine List.perm_middle.trans (List.Perm.cons _ ?_)
  rw [List.takeWhile_append_dropWhile]

end Table

/-! ### What is issued -/

/-- A name that was generated. -/
structure Issue where
  /-- The key of the class or member in the name table. -/
  key : String
  /-- What the name begins with behind its package. -/
  stem : String
  /-- The generated name. -/
  name : String
deriving DecidableEq, Repr

/-- The entry that records a generated name. -/
def Issue.entry (i : Issue) : String × Mapping :=
  (i.key, .rename i.name)

namespace Assignment

/-- The name that naming a class generates: the chosen one if the counter goes up for it. -/
def classIssues (policy : Policy) (a : Assignment) (c : Class) : List Issue :=
  let (chosen, b) := chooseClassName policy a c
  if b.classCounter = a.classCounter then [] else [⟨classKey c, "class", chosen⟩]

/-- The name that choosing one for a member generates: the chosen one if a counter goes up for it. -/
def mappingIssues (a : Assignment) (x : Candidate) : List Issue :=
  let (mapping?, b) := chooseMapping a x
  let chosen := mapping?.toList.map Mapping.name
  if b.methodCounter ≠ a.methodCounter then chosen.map fun name => ⟨x.key, "method", name⟩
  else if b.fieldCounter ≠ a.fieldCounter then chosen.map fun name => ⟨x.key, "field", name⟩
  else []

/-- The name that naming a member generates. -/
def memberIssues (families : Families) (a : Assignment) (x : Candidate) : List Issue :=
  match families.family? x.member with
  | none => []
  | some family =>
    if a.decided.contains family then [] else mappingIssues (markDecided family a) x

/-- The names that a pass generates, from those of its steps. -/
def issuesAlong {α : Type} (step : Assignment → α → Assignment)
    (issues : Assignment → α → List Issue) : Assignment → List α → List Issue
  | _, [] => []
  | a, x :: xs => issues a x ++ issuesAlong step issues (step a x) xs

/-- The names that naming the members of a class generates. -/
def membersIssues (policy : Policy) (families : Families)
    (presentNames : Std.HashMap String String) (a : Assignment) (c : Class) : List Issue :=
  let ownerKey := (a.classKeys[c.name]?).getD c.name
  issuesAlong (nameMember families presentNames) (memberIssues families) a
    (candidates policy ownerKey c)

/-- The names that a renaming generates, in order. -/
def issues (policy : Policy) (defaultPackage : String) (p : Codebase) (table : Table) :
    List Issue :=
  let a := p.classes.foldl (nameClass policy defaultPackage) (start table)
  let families := Families.ofCodebase p
  let present := presentNames p a.names
  issuesAlong (nameClass policy defaultPackage) (classIssues policy) (start table) p.classes ++
    issuesAlong (nameMembers policy families present) (membersIssues policy families present) a
      p.classes

/-! ### What a step gives -/

variable {policy : Policy} {families : Families} {present : Std.HashMap String String}
  {a b c : Assignment}

/-- From one assignment to a later one, just these names were generated. -/
structure Gives (a : Assignment) (issues : List Issue) (b : Assignment) : Prop where
  /-- The entries of the later table are those of the earlier one and the generated names. -/
  entries : b.table.entries.Perm (issues.map Issue.entry ++ a.table.entries)
  /-- What the earlier table says stays. -/
  keeps : ∀ key mapping, a.table.get? key = some mapping → b.table.get? key = some mapping
  /-- The earlier table did not have the keys of the generated names. -/
  unknown : ∀ i ∈ issues, a.table.get? i.key = none
  /-- The later table has them. -/
  recorded : ∀ i ∈ issues, b.table.get? i.key = some (.rename i.name)
  /-- The counters go up by one for a generated name. -/
  counters : ∀ stem k k', (stem, k) ∈ a.counters → (stem, k') ∈ b.counters →
    k ≤ k' ∧ k' ≤ k + issues.length
  /-- Each generated name has a number that its counter passed. -/
  numbered : ∀ i ∈ issues, ∃ k n k', (i.stem, k) ∈ a.counters ∧ (i.stem, k') ∈ b.counters ∧
    k < n ∧ n ≤ k' ∧ simpleName i.name = i.stem ++ toString n
  /-- No two generated names are alike. -/
  distinct : (issues.map fun i => simpleName i.name).Nodup

/-- Every stem has a counter. -/
theorem exists_mem_counters {stem : String} (h : stem ∈ stems) (a : Assignment) :
    ∃ k, (stem, k) ∈ a.counters := by
  have hstem : stem ∈ a.counters.map Prod.fst := h
  obtain ⟨⟨_, k⟩, hk, rfl⟩ := List.mem_map.1 hstem
  exact ⟨k, hk⟩

/-- The counters start at the numbers of the table. -/
theorem mem_counters_start {table : Table} {stem : String} (h : stem ∈ stems) :
    (stem, table.highestCounter stem) ∈ (start table).counters := by
  simp only [stems, List.mem_cons, List.not_mem_nil, or_false] at h
  rcases h with rfl | rfl | rfl <;> simp [counters, start]

/-- Nothing was generated if the table and the counters are as before. -/
theorem Gives.nil (htable : b.table = a.table) (hcounters : b.counters = a.counters) :
    a.Gives [] b where
  entries := by rw [htable]; exact .refl _
  keeps key mapping h := by rw [htable]; exact h
  unknown := by simp
  recorded := by simp
  counters stem k k' hk hk' := by simp [counters_unique hk (hcounters ▸ hk')]
  numbered := by simp
  distinct := by simp

/-- A name with the next number of its stem, recorded under a new key. -/
theorem Gives.single {i : Issue} {k : Nat} (hk : (i.stem, k) ∈ a.counters)
    (hk' : (i.stem, k + 1) ∈ b.counters)
    (hothers : ∀ stem n, stem ≠ i.stem → (stem, n) ∈ b.counters → (stem, n) ∈ a.counters)
    (hname : simpleName i.name = i.stem ++ toString (k + 1)) (hkey : a.table.get? i.key = none)
    (htable : b.table = a.table.put i.key (.rename i.name)) : a.Gives [i] b where
  entries := htable ▸ Table.entries_put_perm hkey _
  keeps key mapping h := Table.Learns.get? (.inr ⟨hkey, _, htable⟩) h
  unknown := by simpa using hkey
  recorded := by simp [htable, Table.get?_put]
  counters stem n n' hn hn' := by
    by_cases hstem : stem = i.stem
    · subst hstem
      have heq := counters_unique hn hk
      have heq' := counters_unique hn' hk'
      simp [heq, heq']
    · simp [counters_unique hn (hothers stem n' hstem hn')]
  numbered := by
    intro j hj
    rw [List.mem_singleton.1 hj]
    exact ⟨k, k + 1, k + 1, hk, hk', Nat.lt_succ_self k, le_refl _, hname⟩
  distinct := List.nodup_singleton _

/-- What two parts of a run generate. The numbers of the later part are above those of the earlier
one. -/
theorem Gives.trans {front back : List Issue} (h : a.Gives front b) (h' : b.Gives back c) :
    a.Gives (front ++ back) c where
  entries := by
    rw [List.map_append]
    refine h'.entries.trans ((h.entries.append_left _).trans ?_)
    rw [← List.append_assoc]
    exact List.perm_append_comm.append_right _
  keeps key mapping hget := h'.keeps key mapping (h.keeps key mapping hget)
  unknown i hi := by
    -- A key that the later part did not know was not known to the earlier one, which only adds.
    rcases List.mem_append.1 hi with hi | hi
    · exact h.unknown i hi
    · cases hget : a.table.get? i.key with
      | none => rfl
      | some mapping =>
        have hkept := h.keeps _ _ hget
        rw [h'.unknown i hi] at hkept
        cases hkept
  recorded i hi := by
    rcases List.mem_append.1 hi with hi | hi
    · exact h'.keeps _ _ (h.recorded i hi)
    · exact h'.recorded i hi
  counters stem k k'' hk hk'' := by
    obtain ⟨k', hk'⟩ := exists_mem_counters (stem_mem_of_counters hk) b
    have hfront := h.counters stem k k' hk hk'
    have hback := h'.counters stem k' k'' hk' hk''
    rw [List.length_append]
    omega
  -- A counter lies between its values before and after, whichever part the number is from.
  numbered i hi := by
    rcases List.mem_append.1 hi with hi | hi
    · obtain ⟨k, n, k', hk, hk', hlt, hle, hname⟩ := h.numbered i hi
      obtain ⟨k'', hk''⟩ := exists_mem_counters (stem_mem_of_counters hk) c
      exact ⟨k, n, k'', hk, hk'', hlt, hle.trans (h'.counters _ _ _ hk' hk'').1, hname⟩
    · obtain ⟨k', n, k'', hk', hk'', hlt, hle, hname⟩ := h'.numbered i hi
      obtain ⟨k, hk⟩ := exists_mem_counters (stem_mem_of_counters hk') a
      exact ⟨k, n, k'', hk, hk'', (h.counters _ _ _ hk hk').1.trans_lt hlt, hle, hname⟩
  -- Two names with one stem have numbers on the two sides of the counter between the parts.
  distinct := by
    rw [List.map_append, List.nodup_append]
    refine ⟨h.distinct, h'.distinct, ?_⟩
    intro name hfront name' hback heq
    obtain ⟨i, hi, rfl⟩ := List.mem_map.1 hfront
    obtain ⟨j, hj, rfl⟩ := List.mem_map.1 hback
    obtain ⟨-, n, k', -, hk', -, hle, hname⟩ := h.numbered i hi
    obtain ⟨k, n', -, hk, -, hlt, -, hname'⟩ := h'.numbered j hj
    rw [hname, hname', numbered_eq_iff (stem_mem_of_counters hk')
      (stem_mem_of_counters hk)] at heq
    obtain ⟨hstems, rfl⟩ := heq
    have hsame := counters_unique (hstems ▸ hk') hk
    omega

/-- What a pass generates is what its steps generate, one after the other. -/
theorem gives_issuesAlong {α : Type} {step : Assignment → α → Assignment}
    {issues : Assignment → α → List Issue} (h : ∀ (a : Assignment) (x : α), a.Gives (issues a x) (step a x))
    (a : Assignment) (xs : List α) : a.Gives (issuesAlong step issues a xs) (xs.foldl step a) := by
  induction xs generalizing a with
  | nil => exact .nil rfl rfl
  | cons x xs ih => exact (h a x).trans (ih (step a x))

/-! ### The steps of a renaming -/

/-- Giving a class its name leaves the counters alone. -/
theorem counters_giveClassName (defaultPackage : String) (x : Class) (chosen : String)
    (a : Assignment) : (giveClassName defaultPackage x chosen a).counters = a.counters := by
  rw [giveClassName]
  split <;> rfl

/-- What is given depends on the table and the counters only. -/
theorem Gives.of_eq {issues : List Issue} (h : a.Gives issues b) (htable : c.table = b.table)
    (hcounters : c.counters = b.counters) : a.Gives issues c := by
  simpa using h.trans (.nil htable hcounters)

/-- Naming a class gives the name that is issued for it. -/
theorem gives_nameClass (defaultPackage : String) (a : Assignment) (x : Class) :
    a.Gives (classIssues policy a x) (nameClass policy defaultPackage a x) := by
  rw [nameClass_eq]
  refine Gives.of_eq (b := (chooseClassName policy a x).2) ?_
    (giveClassName_frame defaultPackage x _ _).1 (counters_giveClassName defaultPackage x _ _)
  rw [classIssues]
  rcases chooseClassName_cases policy a x with ⟨mapping, -, h⟩ | ⟨-, -, h⟩ | ⟨hnone, -, h⟩ <;>
    rw [h]
  · simpa using Gives.nil rfl rfl
  · simpa using Gives.nil rfl rfl
  · dsimp only
    rw [if_neg (by omega)]
    refine Gives.single (k := a.classCounter) (by simp [counters]) (by simp [counters]) ?_
      (simpleName_numbered Text.getLast?_throughLast (by decide) _) hnone rfl
    rintro stem n hne hn
    simp_all [counters]

/-- Choosing a name for a member gives the one that is issued for it. -/
theorem gives_chooseMapping (a : Assignment) (x : Candidate) :
    a.Gives (mappingIssues a x) (chooseMapping a x).2 := by
  rw [mappingIssues]
  rcases chooseMapping_cases a x with
    ⟨mapping, -, h⟩ | ⟨-, -, h⟩ | ⟨hnone, -, h⟩ | ⟨hnone, -, h⟩ <;> rw [h]
  · simpa using Gives.nil rfl rfl
  · simpa using Gives.nil rfl rfl
  · dsimp only
    rw [if_pos (by omega)]
    refine Gives.single (k := a.methodCounter) (by simp [counters]) (by simp [counters]) ?_
      (simpleName_stem (by decide) _) hnone rfl
    rintro stem n hne hn
    simp_all [counters]
  · dsimp only
    rw [if_neg (by simp), if_pos (by omega)]
    refine Gives.single (k := a.fieldCounter) (by simp [counters]) (by simp [counters]) ?_
      (simpleName_stem (by decide) _) hnone rfl
    rintro stem n hne hn
    simp_all [counters]

/-- Doing what a mapping says leaves the table and the counters alone. -/
theorem followMapping_frame (presentNames : Std.HashMap String String) (x : Candidate)
    (mapping? : Option Mapping) (a : Assignment) :
    (followMapping families presentNames x mapping? a).table = a.table ∧
      (followMapping families presentNames x mapping? a).counters = a.counters := by
  cases mapping? with
  | none => exact ⟨rfl, rfl⟩
  | some mapping =>
    rw [followMapping, noteMove]
    cases mapping.owner? with
    | none =>
      dsimp only
      split <;> exact ⟨rfl, rfl⟩
    | some owner =>
      dsimp only
      cases presentNames[owner]? <;> dsimp only <;> split <;> exact ⟨rfl, rfl⟩

/-- Naming a member gives the name that is issued for it. -/
theorem gives_nameMember (presentNames : Std.HashMap String String) (a : Assignment)
    (x : Candidate) :
    a.Gives (memberIssues families a x) (nameMember families presentNames a x) := by
  cases hfamily : families.family? x.member with
  | none =>
    rw [memberIssues, nameMember, hfamily]
    exact .nil rfl rfl
  | some family =>
    rw [memberIssues, nameMember_of_family hfamily, hfamily]
    dsimp only
    split
    · exact .nil rfl rfl
    · obtain ⟨htable, hcounters⟩ := @followMapping_frame families presentNames x
        (chooseMapping (markDecided family a) x).1 (chooseMapping (markDecided family a) x).2
      have hmarked : a.Gives [] (markDecided family a) := .nil rfl rfl
      exact (hmarked.trans (gives_chooseMapping _ x)).of_eq htable hcounters

/-- A renaming generates just the names it issues. -/
theorem gives_ofCodebase (policy : Policy) (defaultPackage : String) (p : Codebase)
    (table : Table) :
    (start table).Gives (issues policy defaultPackage p table)
      (ofCodebase policy defaultPackage p table) :=
  (gives_issuesAlong (gives_nameClass defaultPackage) _ p.classes).trans
    (gives_issuesAlong (fun a _ => gives_issuesAlong (gives_nameMember _) a _) _ p.classes)

/-! ### How many there are -/

/-- A pass whose steps generate so many names each. -/
theorem length_issuesAlong_le {α : Type} {step : Assignment → α → Assignment}
    {issues : Assignment → α → List Issue} {bound : α → Nat}
    (h : ∀ (a : Assignment) (x : α), (issues a x).length ≤ bound x) (a : Assignment)
    (xs : List α) : (issuesAlong step issues a xs).length ≤ (xs.map bound).sum := by
  induction xs generalizing a with
  | nil => exact Nat.le_refl 0
  | cons x xs ih =>
    rw [issuesAlong, List.length_append, List.map_cons, List.sum_cons]
    exact Nat.add_le_add (h a x) (ih _)

/-- One name at most is issued for a class. -/
theorem length_classIssues_le (policy : Policy) (a : Assignment) (x : Class) :
    (classIssues policy a x).length ≤ 1 := by
  rw [classIssues]
  dsimp only
  split <;> simp

/-- One name at most is issued for a member. -/
theorem length_memberIssues_le (families : Families) (a : Assignment) (x : Candidate) :
    (memberIssues families a x).length ≤ 1 := by
  have hmapping : ∀ a, (mappingIssues a x).length ≤ 1 := by
    intro a
    rw [mappingIssues]
    cases (chooseMapping a x).1 <;> dsimp only <;> split_ifs <;> simp
  rw [memberIssues]
  split
  · simp
  · split
    · simp
    · exact hmapping _

/-- A renaming generates at most a name for each declaration. -/
theorem length_issues_le (policy : Policy) (defaultPackage : String) (p : Codebase)
    (table : Table) :
    (issues policy defaultPackage p table).length ≤
      (p.classes.map fun c => 1 + (c.fields.length + c.methods.length)).sum := by
  have hmembers : ∀ families present a (x : Class),
      (membersIssues policy families present a x).length ≤ x.fields.length + x.methods.length := by
    intro families present a x
    have hlength : (issuesAlong (nameMember families present) (memberIssues families) a
        (candidates policy ((a.classKeys[x.name]?).getD x.name) x)).length ≤ _ :=
      length_issuesAlong_le (length_memberIssues_le families) a _
    have hmethods := List.length_filter_le (fun m => !m.isConstructor && !m.isInitializer) x.methods
    rw [List.map_const', List.sum_replicate, nsmul_eq_mul, mul_one, Nat.cast_id, candidates] at hlength
    rw [membersIssues]
    refine hlength.trans ?_
    simpa using hmethods
  rw [issues, List.length_append, List.sum_map_add]
  exact Nat.add_le_add (length_issuesAlong_le (length_classIssues_le policy) _ _)
    (length_issuesAlong_le (hmembers _ _) _ _)

/-- No counter passes the number that a name could have, if the table leaves room for a name for each
declaration. -/
theorem counters_le (policy : Policy) (defaultPackage : String) {p : Codebase} {table : Table}
    {room : Nat} (hroom : ∀ stem ∈ stems, table.highestCounter stem + room ≤ Text.maxCount)
    (hp : (p.classes.map fun c => 1 + (c.fields.length + c.methods.length)).sum ≤ room) :
    ∀ counter ∈ (ofCodebase policy defaultPackage p table).counters,
      counter.2 ≤ Text.maxCount := by
  rintro ⟨stem, k⟩ hk
  have hstem := stem_mem_of_counters hk
  have hcounter := ((gives_ofCodebase policy defaultPackage p table).counters stem _ k
    (mem_counters_start hstem) hk).2
  have hlength := length_issues_le policy defaultPackage p table
  have hleft := hroom stem hstem
  dsimp only
  omega

end Assignment

/-- The names that a renaming generates are fresh, as long as its counters can be counted: no two
have the same simple name, no entry of the table has the simple name of one, and each is recorded
under a key that the table did not have. What the table said stays as it was, and it gets no other
entries. -/
theorem issues_fresh (policy : Policy) (defaultPackage : String) (p : Codebase) (table : Table)
    (h : ∀ counter ∈ (Assignment.ofCodebase policy defaultPackage p table).counters,
      counter.2 ≤ Text.maxCount) :
    let issues := Assignment.issues policy defaultPackage p table
    let after := (rename policy defaultPackage p table).table
    (issues.map fun i => simpleName i.name).Nodup ∧
    (∀ i ∈ issues,
      (i.stem ∈ stems ∧ ∃ n : Nat, simpleName i.name = i.stem ++ toString n) ∧
      (∀ e ∈ table.entries, simpleName e.2.name ≠ simpleName i.name) ∧
      table.get? i.key = none ∧ after.get? i.key = some (.rename i.name)) ∧
    (∀ key mapping, table.get? key = some mapping → after.get? key = some mapping) ∧
    after.entries.Perm (issues.map Issue.entry ++ table.entries) := by
  have hgives := Assignment.gives_ofCodebase policy defaultPackage p table
  refine ⟨hgives.distinct, ?_, hgives.keeps, hgives.entries⟩
  intro i hi
  obtain ⟨k, n, k', hk, hk', hlt, hle, hname⟩ := hgives.numbered i hi
  have hn : n ≤ Text.maxCount := hle.trans (h _ hk')
  have hcounter : k = table.highestCounter i.stem :=
    Assignment.counters_unique hk (Assignment.mem_counters_start (Assignment.stem_mem_of_counters hk))
  refine ⟨⟨Assignment.stem_mem_of_counters hk, n, hname⟩, ?_, hgives.unknown i hi,
    hgives.recorded i hi⟩
  intro e he
  rw [hname]
  exact Table.simpleName_ne_of_highestCounter_lt he (hcounter ▸ hlt) hn

/-- A table that calls a field what generated classes are called, and a class what generated methods
are called. -/
def crossedNames : Table :=
  ⟨[("a.b:I", .rename "class7"), ("z", .rename "lib/method041")]⟩

/-- The numbers go on behind those of the other names. -/
theorem issues_fresh_crossedNames :
    (∀ counter ∈ (Assignment.ofCodebase {} "deob" twoClasses crossedNames).counters,
      counter.2 ≤ Text.maxCount) ∧
    let issues := Assignment.issues {} "deob" twoClasses crossedNames
    let after := (rename {} "deob" twoClasses crossedNames).table
    [⟨"a", "class", "class8"⟩, ⟨"x", "class", "class9"⟩] <+: issues ∧
    (issues.map fun i => simpleName i.name).Nodup ∧
    (∀ i ∈ issues,
      (i.stem ∈ stems ∧ ∃ n : Nat, simpleName i.name = i.stem ++ toString n) ∧
      (∀ e ∈ crossedNames.entries, simpleName e.2.name ≠ simpleName i.name) ∧
      crossedNames.get? i.key = none ∧ after.get? i.key = some (.rename i.name)) ∧
    (∀ key mapping, crossedNames.get? key = some mapping → after.get? key = some mapping) ∧
    after.entries.Perm (issues.map Issue.entry ++ crossedNames.entries) := by
  have hroom : ∀ stem ∈ stems, crossedNames.highestCounter stem + 100 ≤ Text.maxCount := by
    decide +kernel
  have hcounters := Assignment.counters_le {} "deob" (p := twoClasses) hroom (by decide)
  have hclasses : Assignment.issuesAlong (Assignment.nameClass {} "deob")
      (Assignment.classIssues {}) (Assignment.start crossedNames) twoClasses.classes =
        [⟨"a", "class", "class8"⟩, ⟨"x", "class", "class9"⟩] := by
    decide +kernel
  refine ⟨hcounters, ?_, issues_fresh {} "deob" twoClasses crossedNames hcounters⟩
  rw [← hclasses]
  exact List.prefix_append _ _

end Naming

end Unscramble
