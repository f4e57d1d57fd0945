import Unscramble.Proofs.Naming.Family
import Unscramble.Proofs.Naming.Keys

/-! # What a renaming from scratch decides

Through an empty table every class gets a name that no other class gets, and the references of a
family get one name, which no other reference with the same types gets.

Main definitions: `ClassesNamed`, `MembersNamed`. Main statements: `ClassesNamed.foldl`,
`membersNamed_ofCodebase`. -/

namespace Unscramble.Naming

namespace Assignment

variable {policy : Policy} {defaultPackage : String} {a : Assignment} {done rest : List Class}
  {c : Class}

/-! ### Classes -/

/-- What a class is called: as before or by a generated name, in the default package if it names no
package. -/
def ClassNamed (defaultPackage : String) (a : Assignment) (c : Class) : Prop :=
  ∃ chosen, a.names.onClassName c.name = holderName chosen defaultPackage ∧
    (a.table.get? c.name = none ∧ chosen = c.name ∨
      ∃ n : Nat, a.table.get? c.name = some (.rename chosen) ∧
        chosen = Text.throughLast '/' c.name ++ "class" ++ toString n)

/-- Some classes are named, and nothing else. -/
structure ClassesNamed (defaultPackage : String) (done : List Class) (a : Assignment) : Prop where
  /-- The entries of the table have different generated names. -/
  numbered : a.Numbered
  /-- The table knows only these classes. -/
  keys : ∀ key mapping, a.table.get? key = some mapping → ∃ c ∈ done, c.name = key
  /-- Only these classes are renamed. -/
  others : ∀ n : String, (∀ c ∈ done, c.name ≠ n) → a.names.classes[n]? = none
  /-- These classes are named. -/
  named : ∀ c ∈ done, ClassNamed defaultPackage a c
  /-- The keys of these classes are their names. -/
  classKeys : ∀ c ∈ done, a.classKeys[c.name]? = some c.name
  /-- No member is renamed. -/
  members : ∀ m : Member, a.names.members[m]? = none

/-- A class has the name that it is given, and others keep theirs. -/
theorem onClassName_giveClassName (c : Class) (chosen : String)
    (hnone : a.names.classes[c.name]? = none) :
    let b := giveClassName defaultPackage c chosen a
    b.names.onClassName c.name = holderName chosen defaultPackage ∧
      ∀ n, c.name ≠ n → b.names.classes[n]? = a.names.classes[n]? := by
  rw [giveClassName]
  split
  · next hsame =>
    refine ⟨?_, fun _ _ => rfl⟩
    rw [Renaming.onClassName, hnone]
    exact (beq_iff_eq.1 hsame).symm
  · next hnew =>
    have hrename : a.names.renameClass c.name (holderName chosen defaultPackage) = { a.names with
        classes := a.names.classes.insert c.name (holderName chosen defaultPackage) } :=
      if_neg fun hsame => hnew (beq_iff_eq.2 (beq_iff_eq.1 hsame).symm)
    dsimp only
    rw [hrename]
    refine ⟨?_, fun n hn => ?_⟩
    · rw [Renaming.onClassName, Std.HashMap.getElem?_insert_self, Option.getD_some]
    · rw [Std.HashMap.getElem?_insert, if_neg (by simpa using hn)]

/-- Names stay numbered where the counters grow and the table stays. -/
theorem Numbered.congr {b : Assignment} (ha : a.Numbered) (htable : b.table = a.table)
    (hclass : a.classCounter ≤ b.classCounter) (hfield : a.fieldCounter ≤ b.fieldCounter)
    (hmethod : a.methodCounter ≤ b.methodCounter) : b.Numbered where
  issued key mapping hget := by
    obtain ⟨name, hname, hissued⟩ := ha.issued key mapping (htable ▸ hget)
    exact ⟨name, hname, hissued.mono hclass hfield hmethod⟩
  distinct key key' mapping mapping' hget hget' :=
    ha.distinct key key' mapping mapping' (htable ▸ hget) (htable ▸ hget')

/-- Names stay numbered when a class gets one. -/
theorem Numbered.giveClassName (ha : a.Numbered) (c : Class) (chosen : String) :
    (giveClassName defaultPackage c chosen a).Numbered := by
  rw [Assignment.giveClassName]
  split <;> exact ha.congr rfl le_rfl le_rfl le_rfl

/-- A class gets its name once that is chosen. -/
theorem ClassesNamed.giveClassName (ha : ClassesNamed defaultPackage done a) {b : Assignment}
    {chosen : String} (hnames : b.names = a.names) (hclassKeys : b.classKeys = a.classKeys)
    (hb : b.Numbered) (hother : ∀ k, k ≠ c.name → b.table.get? k = a.table.get? k)
    (hchosen : b.table.get? c.name = none ∧ chosen = c.name ∨
      ∃ n : Nat, b.table.get? c.name = some (.rename chosen) ∧
        chosen = Text.throughLast '/' c.name ++ "class" ++ toString n)
    (hkey : classKey c = c.name) (hc : ∀ d ∈ done, d.name ≠ c.name) :
    ClassesNamed defaultPackage (done ++ [c]) (giveClassName defaultPackage c chosen b) := by
  obtain ⟨htable, hkeys, hmembers, -, -⟩ := giveClassName_frame defaultPackage c chosen b
  obtain ⟨hname, hothers⟩ := @onClassName_giveClassName
    defaultPackage b c chosen (hnames ▸ ha.others c.name hc)
  -- Field by field: for the class that gets its name it is what was chosen, for the others it is as
  -- before.
  constructor
  · exact hb.giveClassName c chosen
  · intro key mapping hget
    rw [htable] at hget
    by_cases hk : key = c.name
    · exact ⟨c, List.mem_append_right _ List.mem_cons_self, hk.symm⟩
    · rw [hother key hk] at hget
      obtain ⟨d, hd, hdk⟩ := ha.keys key mapping hget
      exact ⟨d, List.mem_append_left _ hd, hdk⟩
  · intro n hn
    have hnc : c.name ≠ n := hn c (List.mem_append_right _ List.mem_cons_self)
    rw [hothers n hnc, hnames]
    exact ha.others n fun d hd => hn d (List.mem_append_left _ hd)
  · intro d hd
    rcases List.mem_append.1 hd with hd | hd
    · obtain ⟨old, hold, hcase⟩ := ha.named d hd
      refine ⟨old, ?_, ?_⟩
      · rw [Renaming.onClassName, hothers d.name (Ne.symm (hc d hd)), hnames]
        exact hold
      · rwa [htable, hother d.name (hc d hd)]
    · obtain rfl := List.mem_singleton.1 hd
      exact ⟨chosen, hname, htable ▸ hchosen⟩
  · intro d hd
    rw [hkeys, Std.HashMap.getElem?_insert]
    split
    · next hdc => rw [hkey, beq_iff_eq.1 hdc]
    · next hdc =>
      rcases List.mem_append.1 hd with hd | hd
      · rw [hclassKeys]
        exact ha.classKeys d hd
      · exact absurd (by rw [List.mem_singleton.1 hd]; exact beq_self_eq_true _) hdc
  · intro m
    rw [hmembers, hnames]
    exact ha.members m

/-- The next class is named. -/
theorem ClassesNamed.nameClass (ha : ClassesNamed defaultPackage done a)
    (hkey : classKey c = c.name) (hdot : '.' ∉ c.name.toList) (hc : ∀ d ∈ done, d.name ≠ c.name) :
    ClassesNamed defaultPackage (done ++ [c]) (nameClass policy defaultPackage a c) := by
  rw [nameClass_eq]
  rcases chooseClassName_cases policy a c with ⟨mapping, hget, -⟩ | ⟨hget, -, h⟩ | ⟨hget, -, h⟩
  · obtain ⟨d, hd, hname⟩ := ha.keys _ _ hget
    exact absurd (hname.trans hkey) (hc d hd)
  · rw [h]
    rw [hkey] at hget
    exact ha.giveClassName rfl rfl ha.numbered (fun _ _ => rfl) (.inl ⟨hget, rfl⟩) hkey hc
  · rw [h]
    rw [hkey]
    refine ha.giveClassName rfl rfl ?_ (fun k hk => ?_) (.inr ⟨a.classCounter + 1, ?_, rfl⟩) hkey hc
    · have hsimple : simpleName (a.freshClassName c) = "class" ++ toString (a.classCounter + 1) :=
        simpleName_numbered (fun _ => Text.getLast?_throughLast _) (by decide) _
      refine ha.numbered.put rfl (fun k n hn => hn.mono (Nat.le_succ _) le_rfl le_rfl)
        (.ofClass hdot (fun _ => Text.getLast?_throughLast _) le_rfl) ?_
      intro k n hn
      rw [hsimple]
      exact hn.simpleName_ne (by simp [counters])
    · dsimp only
      rw [Table.get?_put, if_neg hk]
    · dsimp only
      rw [Table.get?_put, if_pos rfl]

/-- All classes are named one after the other. -/
theorem ClassesNamed.foldl (ha : ClassesNamed defaultPackage done a)
    (hkey : ∀ c ∈ rest, classKey c = c.name) (hdot : ∀ c ∈ rest, '.' ∉ c.name.toList)
    (hnodup : ((done ++ rest).map (·.name)).Nodup) :
    ClassesNamed defaultPackage (done ++ rest) (rest.foldl (Assignment.nameClass policy defaultPackage) a) := by
  induction rest generalizing done a with
  | nil => simpa using ha
  | cons c rest ih =>
    have hc : ∀ d ∈ done, d.name ≠ c.name := by
      rw [List.map_append, List.nodup_append] at hnodup
      exact fun d hd => hnodup.2.2 d.name (List.mem_map_of_mem hd) c.name (by simp)
    have hnext : ClassesNamed defaultPackage (done ++ [c])
        (Assignment.nameClass policy defaultPackage a c) :=
      ha.nameClass (hkey c List.mem_cons_self) (hdot c List.mem_cons_self) hc
    rw [List.append_cons] at hnodup ⊢
    exact ih hnext (fun c hc => hkey c (List.mem_cons_of_mem _ hc))
      (fun c hc => hdot c (List.mem_cons_of_mem _ hc)) hnodup

/-- Nothing is named at first. -/
theorem classesNamed_start : ClassesNamed defaultPackage [] (start {}) where
  numbered := ⟨by simp [start, Table.get?], by simp [start, Table.get?]⟩
  keys := by simp [start, Table.get?]
  others := by simp [start]
  named := by simp
  classKeys := by simp
  members := by simp [start]

/-! ### No two classes get one name -/

/-- A name that a renaming does not generate for classes: its simple name is not generated, and it is
not in the default package. -/
def IsOld (defaultPackage name : String) : Prop :=
  isGenerated "class" (simpleName name) = false ∧
    ¬(defaultPackage ++ "/").toList <+: name.toList

instance : Decidable (IsOld defaultPackage name) :=
  inferInstanceAs (Decidable (_ ∧ _))

/-- A name without a package is simple. -/
theorem simpleName_of_not_mem {name : String} (h : '/' ∉ name.toList) : simpleName name = name := by
  have hempty : ∀ c ∈ ("" : String).toList.getLast?, c = '/' := by simp
  simpa [simpleName] using Text.afterLast_append hempty h

/-- Adding the default package does not change the simple name. -/
theorem simpleName_holderName (name defaultPackage : String) :
    simpleName (holderName name defaultPackage) = simpleName name := by
  rw [holderName]
  split
  · rfl
  · next h =>
    have hname : '/' ∉ name.toList := by simpa using h
    have hslash : ∀ c ∈ (defaultPackage ++ "/").toList.getLast?, c = '/' := by simp [eq_comm]
    rw [simpleName_of_not_mem hname]
    exact Text.afterLast_append hslash hname

/-- A class keeps its simple name, or the table knows its generated one. -/
theorem ClassesNamed.onClassName_cases (ha : ClassesNamed defaultPackage done a) (n : String) :
    (simpleName (a.names.onClassName n) = simpleName n ∧
      (a.names.onClassName n = n ∨ a.names.onClassName n = defaultPackage ++ "/" ++ n)) ∨
    ∃ name, a.table.get? n = some (.rename name) ∧
      simpleName (a.names.onClassName n) = simpleName name ∧
      isGenerated "class" (simpleName name) = true := by
  by_cases hn : ∀ c ∈ done, c.name ≠ n
  · rw [Renaming.onClassName, ha.others n hn]
    exact .inl ⟨rfl, .inl rfl⟩
  · push Not at hn
    obtain ⟨c, hc, rfl⟩ := hn
    obtain ⟨chosen, hname, ⟨-, rfl⟩ | ⟨k, hget, hchosen⟩⟩ := ha.named c hc
    · rw [hname]
      refine .inl ⟨simpleName_holderName _ _, ?_⟩
      rw [holderName]
      split
      · exact .inl rfl
      · exact .inr rfl
    · refine .inr ⟨chosen, hget, ?_, ?_⟩
      · rw [hname, simpleName_holderName]
      · rw [hchosen, simpleName_numbered (fun _ => Text.getLast?_throughLast _) (by decide)]
        exact isGenerated_numbered "class" k

/-- Different old names stay different. -/
theorem ClassesNamed.onClassName_inj (ha : ClassesNamed defaultPackage done a) {m n : String}
    (hm : IsOld defaultPackage m) (hn : IsOld defaultPackage n)
    (h : a.names.onClassName m = a.names.onClassName n) : m = n := by
  have hprefix : ∀ s, (defaultPackage ++ "/").toList <+: (defaultPackage ++ "/" ++ s).toList := by
    intro s
    rw [String.toList_append (s := defaultPackage ++ "/")]
    exact List.prefix_append _ _
  rcases ha.onClassName_cases m with ⟨hsm, hfm⟩ | ⟨gm, hgetm, hsm, hgm⟩ <;>
    rcases ha.onClassName_cases n with ⟨hsn, hfn⟩ | ⟨gn, hgetn, hsn, hgn⟩
  · rcases hfm with hfm | hfm <;> rcases hfn with hfn | hfn <;> rw [hfm, hfn] at h
    · exact h
    · exact absurd (h ▸ hprefix n) hm.2
    · exact absurd (h ▸ hprefix m) hn.2
    · exact String.append_right_inj _ |>.1 h
  · rw [← hsn, ← h, hsm, hm.1] at hgn
    cases hgn
  · rw [← hsm, h, hsn, hn.1] at hgm
    cases hgm
  · refine ha.numbered.distinct m n _ _ hgetm hgetn ?_
    exact hsm.symm.trans ((congrArg simpleName h).trans hsn)

/-- A new name can stand in a descriptor if the old one can. -/
theorem ClassesNamed.isName_onClassName (ha : ClassesNamed defaultPackage done a)
    (hpackage : Descriptor.IsName defaultPackage) {n : String} (hn : Descriptor.IsName n) :
    Descriptor.IsName (a.names.onClassName n) := by
  -- Putting a name into the default package adds characters that may stand in descriptors.
  have hholder : ∀ s, Descriptor.IsName s → Descriptor.IsName (holderName s defaultPackage) := by
    intro s hs
    rw [holderName]
    split
    · exact hs
    · simp only [Descriptor.IsName, String.toList_append, List.mem_append, not_or]
      exact ⟨⟨hpackage, by decide⟩, hs⟩
  by_cases hc : ∀ c ∈ done, c.name ≠ n
  · rw [Renaming.onClassName, ha.others n hc]
    exact hn
  · push Not at hc
    obtain ⟨c, hc, rfl⟩ := hc
    obtain ⟨chosen, hname, ⟨-, rfl⟩ | ⟨k, -, rfl⟩⟩ := ha.named c hc
    · rw [hname]
      exact hholder _ hn
    · rw [hname]
      refine hholder _ ?_
      simp only [Descriptor.IsName, String.toList_append, List.mem_append, not_or]
      -- What stands in front of the number is cut from the old name, and digits are no special
      -- characters.
      refine ⟨⟨fun h => hn ?_, by decide⟩, fun h => ?_⟩
      · rw [Text.throughLast, String.toList_ofList, List.mem_reverse] at h
        exact List.mem_reverse.1 ((List.dropWhile_sublist _).subset h)
      · rw [Nat.toString_eq_ofList_toDigits, String.toList_ofList] at h
        exact absurd (Nat.isDigit_of_mem_toDigits (by decide) (by decide) h) (by decide)

/-! ### Members -/

/-- Mapping a family gives each of its references the name, and the class if there is one, and
renames nothing else. -/
theorem mapFamily_spec (families : Families) (a : Assignment) (m : Member) (name : String)
    (target : Option String) :
    (mapFamily families a m name target).names.classes = a.names.classes ∧
      ∀ m' : Member, (mapFamily families a m name target).names.members[m']? =
        if m' ∈ families.linked m then
          some ⟨target.getD (a.names.onClassName m'.owner), name, a.names.onDescriptor m'.descriptor⟩
        else a.names.members[m']? := by
  -- The targets are computed while members are mapped, but depend on the class names only, which
  -- stay.
  have hfold : ∀ (ms : List Member) (r : Renaming), r.classes = a.names.classes →
      (ms.foldl (fun r old => r.mapMember old
        ⟨target.getD (r.onClassName old.owner), name, r.onDescriptor old.descriptor⟩) r).classes =
          a.names.classes ∧
      ∀ m' : Member, (ms.foldl (fun r old => r.mapMember old
        ⟨target.getD (r.onClassName old.owner), name, r.onDescriptor old.descriptor⟩)
          r).members[m']? =
        if m' ∈ ms then
          some ⟨target.getD (a.names.onClassName m'.owner), name, a.names.onDescriptor m'.descriptor⟩
        else r.members[m']? := by
    intro ms
    induction ms with
    | nil => exact fun r hr => ⟨hr, fun m' => by simp⟩
    | cons old ms ih =>
      intro r hr
      obtain ⟨hclasses, hmembers⟩ := ih (r.mapMember old
        ⟨target.getD (r.onClassName old.owner), name, r.onDescriptor old.descriptor⟩) hr
      refine ⟨hclasses, fun m' => ?_⟩
      rw [List.foldl_cons, hmembers]
      by_cases hms : m' ∈ ms
      · rw [if_pos hms, if_pos (List.mem_cons_of_mem _ hms)]
      · rw [if_neg hms]
        by_cases hold : old = m'
        · subst hold
          rw [if_pos List.mem_cons_self, Renaming.mapMember, Std.HashMap.getElem?_insert_self]
          simp [Renaming.onClassName, Renaming.onDescriptor, hr]
        · have hnot : m' ∉ old :: ms := by simp [hms, Ne.symm hold]
          rw [if_neg hnot, Renaming.mapMember, Std.HashMap.getElem?_insert,
            if_neg (by simpa using hold)]
  exact hfold (families.linked m) a.names rfl

/-- The references of decided families have the names that the table gives their families. -/
structure MembersNamed (policy : Policy) (p : Codebase) (base a : Assignment) : Prop where
  /-- The entries of the table have different generated names. -/
  numbered : a.Numbered
  /-- The classes keep the names they were given. -/
  classes : a.names.classes = base.names.classes
  /-- The keys of the classes stay. -/
  classKeys : a.classKeys = base.classKeys
  /-- A reference with a new name has the one that the table knows for a member of its family. -/
  mapped : ∀ m new : Member, a.names.members[m]? = some new →
    ∃ φ, ∃ c ∈ p.classes, ∃ x ∈ candidates policy c.name c, ∃ name,
      (Families.ofCodebase p).family? m = some φ ∧
      (Families.ofCodebase p).family? x.member = some φ ∧
      a.table.get? x.key = some (.rename name) ∧
      new = ⟨base.names.onClassName m.owner, name, base.names.onDescriptor m.descriptor⟩
  /-- The references of a family have one new name or none. -/
  agree : ∀ (φ : Nat) (m m' : Member), (Families.ofCodebase p).family? m = some φ →
    (Families.ofCodebase p).family? m' = some φ →
    (a.names.members[m]?).map (·.name) = (a.names.members[m']?).map (·.name)

variable {p : Codebase} {base : Assignment} {present : Std.HashMap String String} {x : Candidate}

/-- The names stay if the table only gets more entries. -/
theorem MembersNamed.congr (ha : MembersNamed policy p base a) {b : Assignment} (hb : b.Numbered)
    (hnames : b.names = a.names) (hkeys : b.classKeys = a.classKeys)
    (htable : ∀ key mapping, a.table.get? key = some mapping → b.table.get? key = some mapping) :
    MembersNamed policy p base b where
  numbered := hb
  classes := hnames ▸ ha.classes
  classKeys := hkeys ▸ ha.classKeys
  mapped m new h := by
    obtain ⟨φ, c, hc, x, hx, name, hm, hxm, hget, hnew⟩ := ha.mapped m new (hnames ▸ h)
    exact ⟨φ, c, hc, x, hx, name, hm, hxm, htable _ _ hget, hnew⟩
  agree := hnames ▸ ha.agree

/-- Following a mapping names the family, in the class that the mapping asks for if there is one, and
leaves the rest but for what is counted and told. -/
theorem followMapping_some (families : Families) (present : Std.HashMap String String)
    (x : Candidate) (mapping : Mapping) (a : Assignment) :
    ∃ (b : Assignment) (target : Option String),
      followMapping families present x (some mapping) a =
        mapFamily families b x.member mapping.name target ∧
      (mapping.owner? = none → target = none) ∧ b.names = a.names ∧ b.table = a.table ∧
      b.classKeys = a.classKeys ∧ b.decided = a.decided ∧ b.counters = a.counters := by
  have hnote : ∃ b target, noteMove present a x.member mapping = (target, b) ∧
      (mapping.owner? = none → target = none) ∧ b.names = a.names ∧ b.table = a.table ∧
      b.classKeys = a.classKeys ∧ b.decided = a.decided ∧ b.counters = a.counters := by
    rw [noteMove]
    split
    · exact ⟨_, _, rfl, fun _ => rfl, rfl, rfl, rfl, rfl, rfl⟩
    · next howner =>
      have hmoves : mapping.owner? ≠ none := by simp [howner]
      split <;> exact ⟨_, _, rfl, fun h => absurd h hmoves, rfl, rfl, rfl, rfl, rfl⟩
  obtain ⟨b, target, hb, hnone, hsame⟩ := hnote
  rw [Assignment.followMapping]
  dsimp only
  rw [hb]
  dsimp only
  split
  · exact ⟨_, target, rfl, hnone, hsame⟩
  · exact ⟨_, target, rfl, hnone, hsame⟩

/-- A family is mapped to the name that the table knows. -/
theorem MembersNamed.followMapping (ha : MembersNamed policy p base a) (hc : c ∈ p.classes)
    (hx : x ∈ candidates policy c.name c) {φ : Nat}
    (hφ : (Families.ofCodebase p).family? x.member = some φ) {name : String}
    (hget : a.table.get? x.key = some (.rename name)) :
    MembersNamed policy p base
      (followMapping (Families.ofCodebase p) present x (some (.rename name)) a) := by
  obtain ⟨b, target, hfollow, hnone, hnames, htable, hkeys, -, hcounters⟩ :=
    followMapping_some (Families.ofCodebase p) present x (.rename name) a
  obtain rfl := hnone rfl
  obtain ⟨hclasses, hmembers⟩ := mapFamily_spec (Families.ofCodebase p) b x.member name none
  have htable' : (mapFamily (Families.ofCodebase p) b x.member name none).table = a.table := htable
  -- The new references could as well be computed from the names the classes had in the end.
  have hbase : ∀ m : Member, (⟨b.names.onClassName m.owner, name, b.names.onDescriptor m.descriptor⟩ :
      Member) = ⟨base.names.onClassName m.owner, name, base.names.onDescriptor m.descriptor⟩ := by
    intro m
    simp only [Renaming.onClassName, Renaming.onDescriptor, hnames, ha.classes]
  rw [hfollow, Mapping.name]
  constructor
  · simp only [counters, List.cons.injEq, Prod.mk.injEq, true_and, and_true] at hcounters
    exact ha.numbered.congr htable' hcounters.1.ge hcounters.2.1.ge hcounters.2.2.ge
  · rw [hclasses, hnames]
    exact ha.classes
  · exact hkeys.trans ha.classKeys
  -- A member has a new reference from this family or had it before.
  · intro m new h
    rw [hmembers] at h
    split at h
    · next hm =>
      cases h
      exact ⟨φ, c, hc, x, hx, name, (Families.mem_linked_iff hφ).1 hm, hφ, htable' ▸ hget, hbase m⟩
    · rw [hnames] at h
      obtain ⟨ψ, d, hd, y, hy, old, hm, hym, hold, hnew⟩ := ha.mapped m new h
      exact ⟨ψ, d, hd, y, hy, old, hm, hym, htable' ▸ hold, hnew⟩
  -- Two references of one family are linked with the same member or neither is.
  · intro ψ m m' hm hm'
    have hiff : m ∈ (Families.ofCodebase p).linked x.member ↔
        m' ∈ (Families.ofCodebase p).linked x.member := by
      rw [Families.mem_linked_iff hφ, Families.mem_linked_iff hφ, hm, hm']
    rw [hmembers, hmembers, hnames]
    by_cases hlinked : m ∈ (Families.ofCodebase p).linked x.member
    · rw [if_pos hlinked, if_pos (hiff.1 hlinked)]
      rfl
    · rw [if_neg hlinked, if_neg fun h => hlinked (hiff.2 h)]
      exact ha.agree ψ m m' hm hm'

/-- A family is mapped to a name that the table gets. -/
theorem MembersNamed.followFresh (ha : MembersNamed policy p base a) (hc : c ∈ p.classes)
    (hx : x ∈ candidates policy c.name c) {φ : Nat}
    (hφ : (Families.ofCodebase p).family? x.member = some φ) {b : Assignment} {name : String}
    (hnone : a.table.get? x.key = none) (hb : b.Numbered) (hnames : b.names = a.names)
    (hkeys : b.classKeys = a.classKeys) (htable : b.table = a.table.put x.key (.rename name)) :
    MembersNamed policy p base
      (Assignment.followMapping (Families.ofCodebase p) present x (some (.rename name)) b) := by
  refine MembersNamed.followMapping (ha.congr hb hnames hkeys fun key mapping hget => ?_) hc hx hφ ?_
  · have hne : key ≠ x.key := by
      rintro rfl
      rw [hnone] at hget
      cases hget
    rw [htable, Table.get?_put, if_neg hne, hget]
  · rw [htable, Table.get?_put, if_pos rfl]

/-- The next member is named. -/
theorem MembersNamed.nameMember (ha : MembersNamed policy p base a) (hc : c ∈ p.classes)
    (hx : x ∈ candidates policy c.name c) :
    MembersNamed policy p base (nameMember (Families.ofCodebase p) present a x) := by
  cases hfamily : (Families.ofCodebase p).family? x.member with
  | none =>
    rw [Assignment.nameMember, hfamily]
    exact ha
  | some φ =>
    rw [nameMember_of_family hfamily]
    split
    -- A family that has been decided is left alone.
    · exact ha
    · have hmarked : MembersNamed policy p base (markDecided φ a) :=
        ha.congr (ha.numbered.congr rfl le_rfl le_rfl le_rfl) rfl rfl fun _ _ h => h
      have hdot := dot_mem_key hx
      -- The table may know the name; otherwise a number is given out that has not been given
      -- before.
      rcases chooseMapping_cases (markDecided φ a) x with
        ⟨mapping, hget, h⟩ | ⟨-, -, h⟩ | ⟨hnone, -, h⟩ | ⟨hnone, -, h⟩ <;> rw [h]
      · obtain ⟨name, rfl, -⟩ := hmarked.numbered.issued _ _ hget
        exact hmarked.followMapping hc hx hfamily hget
      · exact hmarked
      · refine hmarked.followFresh hc hx hfamily hnone ?_ rfl rfl rfl
        refine hmarked.numbered.put rfl (fun k n hn => hn.mono le_rfl le_rfl (Nat.le_succ _))
          (.ofMethod hdot le_rfl) fun k n hn => ?_
        rw [simpleName_stem (by decide)]
        exact hn.simpleName_ne (by simp [counters])
      · refine hmarked.followFresh hc hx hfamily hnone ?_ rfl rfl rfl
        refine hmarked.numbered.put rfl (fun k n hn => hn.mono le_rfl (Nat.le_succ _) le_rfl)
          (.ofField hdot le_rfl) fun k n hn => ?_
        rw [simpleName_stem (by decide)]
        exact hn.simpleName_ne (by simp [counters])

/-- A renaming from scratch names all classes and then all members. -/
theorem membersNamed_ofCodebase (hkey : ∀ c ∈ p.classes, classKey c = c.name)
    (hdot : ∀ c ∈ p.classes, '.' ∉ c.name.toList) (hnodup : (p.classes.map (·.name)).Nodup) :
    ∃ base, ClassesNamed defaultPackage p.classes base ∧
      MembersNamed policy p base (ofCodebase policy defaultPackage p {}) := by
  have hbase : ClassesNamed defaultPackage p.classes
      (p.classes.foldl (Assignment.nameClass policy defaultPackage) (start {})) :=
    classesNamed_start.foldl hkey hdot hnodup
  refine ⟨_, hbase, ?_⟩
  have hstart : MembersNamed policy p _ _ :=
    { numbered := hbase.numbered
      classes := rfl
      classKeys := rfl
      mapped := fun m new h => by rw [hbase.members m] at h; cases h
      agree := fun φ m m' _ _ => by rw [hbase.members, hbase.members] }
  refine List.foldlRecOn p.classes _ hstart fun a ha c hc => ?_
  have howner : (a.classKeys[c.name]?).getD c.name = c.name := by
    rw [ha.classKeys, hbase.classKeys c hc]
    rfl
  rw [nameMembers, howner]
  exact List.foldlRecOn _ _ ha fun a ha x hx => ha.nameMember hc hx

end Assignment

end Unscramble.Naming
