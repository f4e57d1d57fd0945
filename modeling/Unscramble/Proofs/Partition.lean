import Unscramble.Partition
import Unscramble.Proofs.Lists

/-! # Disjoint sets

What keeps disjoint sets is lawful if single numbers have different numbers standing for them, and
joining two numbers makes the same number stand for both sets and for no others. Two lawful keepers that
are told to join the same numbers tell the same classes. Partitions are lawful: joining two numbers puts
them into one class and splits no class.

Main definitions: `UnionFind.Made`, `UnionFind.Lawful`, `UnionFind.Alike`, `Partition.Same`,
`Partition.ofLinks`. Main statements: `classesBy_eq`, `classesBy_congr`, `UnionFind.Alike.join`,
`Partition.root_join`, `Partition.same_ofLinks`, `Partition.of_same_ofLinks`,
`Partition.lawful_unionFind`. -/

namespace Unscramble

/-! ### Classes by what stands for them -/

section Classes

variable {root root' : Nat → Nat} {size i j : Nat} {c : List Nat}

/-- The numbers that are the least ones of their classes. -/
def leasts (root : Nat → Nat) (size : Nat) : List Nat :=
  (List.range size).filter fun i => ∀ j < i, root j ≠ root i

/-- The numbers that are the least ones are told from those before them. -/
theorem leasts_succ (root : Nat → Nat) (size : Nat) : leasts root (size + 1) =
    if ∃ i < size, root i = root size then leasts root size else leasts root size ++ [size] := by
  rw [leasts, List.range_succ, List.filter_append, ← leasts]
  split
  · next hseen =>
    obtain ⟨i, hi, heq⟩ := hseen
    rw [List.filter_cons_of_neg (by simpa using ⟨i, hi, heq⟩), List.filter_nil, List.append_nil]
  · next hnew =>
    rw [List.filter_cons_of_pos (by simpa using hnew), List.filter_nil]

/-- What a pass over the numbers below a bound has collected. -/
theorem foldl_collectBy (root : Nat → Nat) (size : Nat) :
    ((List.range size).foldl (collectBy root) ([], ∅)).1 = ((leasts root size).map root).reverse ∧
    ∀ r, ((List.range size).foldl (collectBy root) ([], ∅)).2[r]? =
      if ∃ i < size, root i = r then some ((List.range size).filter (root · = r)).reverse
      else none := by
  induction size with
  | zero => exact ⟨rfl, fun r => by simp⟩
  | succ size ih =>
    obtain ⟨hroots, htable⟩ := ih
    rw [List.range_succ, List.foldl_append, List.foldl_cons, List.foldl_nil, leasts_succ, collectBy]
    generalize (List.range size).foldl (collectBy root) ([], ∅) = state at hroots htable
    -- What a number adds to the table is seen at the number that stands for it.
    have hfilter : ∀ r, ((List.range size ++ [size]).filter (root · = r)).reverse =
        if root size = r then size :: ((List.range size).filter (root · = r)).reverse
        else ((List.range size).filter (root · = r)).reverse := by
      intro r
      rw [List.filter_append, List.reverse_append]
      split
      · next h => simp [h]
      · next h => simp [h]
    have hexists : ∀ r, (∃ i < size + 1, root i = r) ↔ root size = r ∨ ∃ i < size, root i = r := by
      intro r
      simp only [Nat.lt_succ_iff_lt_or_eq, or_and_right, exists_or, exists_eq_left, or_comm]
    rw [htable]
    by_cases hseen : ∃ i < size, root i = root size
    · rw [if_pos hseen, if_pos hseen]
      refine ⟨hroots, fun r => ?_⟩
      dsimp only
      rw [Std.HashMap.getElem?_insert, htable, hfilter]
      by_cases hr : root size = r
      · rw [if_pos (beq_iff_eq.2 hr), if_pos ((hexists r).2 (.inl hr)), if_pos hr, hr]
      · rw [if_neg (by simpa using hr), if_neg hr]
        simp only [hexists, hr, false_or]
    · rw [if_neg hseen, if_neg hseen]
      refine ⟨by simp [hroots], fun r => ?_⟩
      dsimp only
      rw [Std.HashMap.getElem?_insert, htable, hfilter]
      by_cases hr : root size = r
      · have hnone : (List.range size).filter (root · = r) = [] := by
          rw [List.filter_eq_nil_iff]
          intro i hi
          simpa [hr] using fun heq => hseen ⟨i, List.mem_range.1 hi, heq.trans hr.symm⟩
        rw [if_pos (beq_iff_eq.2 hr), if_pos ((hexists r).2 (.inl hr)), if_pos hr, hnone]
        rfl
      · rw [if_neg (by simpa using hr), if_neg hr]
        simp only [hexists, hr, false_or]

/-- The classes are those of the least numbers, in order. -/
theorem classesBy_eq (root : Nat → Nat) (size : Nat) : classesBy root size =
    (leasts root size).map fun i => (List.range size).filter fun j => root j = root i := by
  obtain ⟨hroots, htable⟩ := foldl_collectBy root size
  rw [classesBy]
  generalize (List.range size).foldl (collectBy root) ([], ∅) = state at hroots htable
  show state.1.reverse.map (fun r => (state.2.getD r []).reverse) = _
  rw [hroots, List.reverse_reverse, List.map_map]
  refine List.map_congr_left fun i hi => ?_
  have hlt : i < size := List.mem_range.1 (List.mem_of_mem_filter hi)
  rw [Function.comp_apply, Std.HashMap.getD_eq_getD_getElem?, htable, if_pos ⟨i, hlt, rfl⟩,
    Option.getD_some, List.reverse_reverse]

/-- Every class is that of a least number. -/
theorem mem_classesBy (hc : c ∈ classesBy root size) : ∃ i < size, (∀ j < i, root j ≠ root i) ∧
    c = (List.range size).filter fun j => root j = root i := by
  rw [classesBy_eq] at hc
  obtain ⟨i, hi, rfl⟩ := List.mem_map.1 hc
  obtain ⟨hlt, hleast⟩ := List.mem_filter.1 hi
  exact ⟨i, List.mem_range.1 hlt, of_decide_eq_true hleast, rfl⟩

/-- Numbers below the bound in one class are in one list. -/
theorem exists_mem_classesBy (hi : i < size) :
    ∃ c ∈ classesBy root size, ∀ j, j ∈ c ↔ j < size ∧ root j = root i := by
  -- the least number with the same number standing for it
  have hsome : ∃ k, root k = root i := ⟨i, rfl⟩
  have hle : Nat.find hsome ≤ i := Nat.find_min' hsome rfl
  refine ⟨(List.range size).filter fun j => root j = root i, ?_, fun j => by simp⟩
  rw [classesBy_eq]
  refine List.mem_map.2 ⟨Nat.find hsome, List.mem_filter.2 ⟨?_, ?_⟩, ?_⟩
  · exact List.mem_range.2 (hle.trans_lt hi)
  · refine decide_eq_true fun j hj heq => ?_
    exact Nat.find_min hsome hj (heq.trans (Nat.find_spec hsome))
  · rw [Nat.find_spec hsome]

/-- One number stands for what is in one list. -/
theorem eq_of_mem_classesBy (hc : c ∈ classesBy root size) (hi : i ∈ c) (hj : j ∈ c) :
    root i = root j := by
  obtain ⟨k, -, -, rfl⟩ := mem_classesBy hc
  have hik := of_decide_eq_true (List.mem_filter.1 hi).2
  have hjk := of_decide_eq_true (List.mem_filter.1 hj).2
  exact hik.trans hjk.symm

/-- The numbers in a list of classes are below the bound. -/
theorem lt_of_mem_classesBy (hc : c ∈ classesBy root size) (hi : i ∈ c) : i < size := by
  obtain ⟨k, -, -, rfl⟩ := mem_classesBy hc
  exact List.mem_range.1 (List.mem_of_mem_filter hi)

/-- The classes are in order of their least members. -/
theorem pairwise_classesBy (root : Nat → Nat) (size : Nat) :
    (classesBy root size).Pairwise fun c c' => ∃ i ∈ c, ∀ j ∈ c', i < j := by
  rw [classesBy_eq, List.pairwise_map]
  have hsorted : (leasts root size).Pairwise (· < ·) := List.pairwise_lt_range.filter _
  refine hsorted.imp_of_mem fun {a b} ha hb hab => ?_
  obtain ⟨ha, -⟩ := List.mem_filter.1 ha
  obtain ⟨-, hb⟩ := List.mem_filter.1 hb
  have hleast : ∀ j < b, root j ≠ root b := of_decide_eq_true hb
  refine ⟨a, List.mem_filter.2 ⟨ha, decide_eq_true rfl⟩, fun j hj => hab.trans_le ?_⟩
  have hjb := of_decide_eq_true (List.mem_filter.1 hj).2
  exact Nat.le_of_not_lt fun hlt => hleast j hlt hjb

/-- Each number is in one list of classes only, and once. -/
theorem nodup_flatten_classesBy (root : Nat → Nat) (size : Nat) :
    (classesBy root size).flatten.Nodup := by
  rw [List.nodup_flatten]
  constructor
  · intro c hc
    obtain ⟨i, -, -, rfl⟩ := mem_classesBy hc
    exact List.nodup_range.filter _
  · rw [classesBy_eq, List.pairwise_map]
    have hsorted : (leasts root size).Pairwise (· < ·) := List.pairwise_lt_range.filter _
    refine hsorted.imp_of_mem fun {a b} _ hb hab i hia hib => ?_
    have hleast : ∀ j < b, root j ≠ root b := of_decide_eq_true (List.mem_filter.1 hb).2
    have hia := of_decide_eq_true (List.mem_filter.1 hia).2
    have hib := of_decide_eq_true (List.mem_filter.1 hib).2
    exact hleast a hab (hia.symm.trans hib)

/-- The classes depend only on which numbers have the same number standing for them. -/
theorem classesBy_congr (h : ∀ i < size, ∀ j < size, root i = root j ↔ root' i = root' j) :
    classesBy root size = classesBy root' size := by
  have hleasts : leasts root size = leasts root' size := by
    refine List.filter_congr fun i hi => ?_
    have hi := List.mem_range.1 hi
    exact decide_eq_decide.2 (forall₂_congr fun j hj => not_congr (h j (hj.trans hi) i hi))
  rw [classesBy_eq, classesBy_eq, hleasts]
  refine List.map_congr_left fun i hi => List.filter_congr fun j hj => ?_
  have hi := List.mem_range.1 (List.mem_of_mem_filter hi)
  exact decide_eq_decide.2 (h j (List.mem_range.1 hj) i hi)

end Classes

/-! ### What keeps disjoint sets -/

namespace UnionFind

variable {U V : UnionFind} {size : Nat}

/-- The states that joining numbers below a bound leads to from single numbers. -/
inductive Made (U : UnionFind) (size : Nat) : U.State → Prop
  /-- Nothing is joined yet. -/
  | discrete : Made U size (U.discrete size)
  /-- Two sets more are joined. -/
  | join {s : U.State} {i j : Nat} (h : Made U size s) (hi : i < size) (hj : j < size) :
    Made U size (U.join s i j)

/-- What is promised of disjoint sets, one promise for each part. -/
structure Lawful (U : UnionFind) : Prop where
  /-- A number below the bound stands for a set. -/
  root_lt : ∀ {size s i}, U.Made size s → i < size → U.root s i < size
  /-- Single numbers are in sets of their own. -/
  root_discrete : ∀ {size i j}, i < size → j < size →
    U.root (U.discrete size) i = U.root (U.discrete size) j → i = j
  /-- Joining puts the sets of two numbers into one, and no other sets. -/
  root_join : ∀ {size s i j a b}, U.Made size s → i < size → j < size → a < size → b < size →
    (U.root (U.join s i j) a = U.root (U.join s i j) b ↔
      U.root s a = U.root s b ∨
      U.root s a = U.root s i ∧ U.root s j = U.root s b ∨
      U.root s a = U.root s j ∧ U.root s i = U.root s b)

/-- Two keepers tell the same sets of the numbers below a bound. -/
structure Alike (U V : UnionFind) (size : Nat) (s : U.State) (t : V.State) : Prop where
  /-- The one state is made by joining numbers. -/
  left : U.Made size s
  /-- So is the other. -/
  right : V.Made size t
  /-- The same numbers are in one set. -/
  root_eq_iff : ∀ i < size, ∀ j < size, U.root s i = U.root s j ↔ V.root t i = V.root t j

/-- Single numbers are told alike. -/
theorem Alike.discrete (hU : U.Lawful) (hV : V.Lawful) (size : Nat) :
    Alike U V size (U.discrete size) (V.discrete size) := by
  refine ⟨.discrete, .discrete, fun i hi j hj => ⟨fun h => ?_, fun h => ?_⟩⟩
  · rw [hU.root_discrete hi hj h]
  · rw [hV.root_discrete hi hj h]

/-- Joining the same numbers keeps what is told alike. -/
theorem Alike.join (hU : U.Lawful) (hV : V.Lawful) {s : U.State} {t : V.State}
    (h : Alike U V size s t) {i j : Nat} (hi : i < size) (hj : j < size) :
    Alike U V size (U.join s i j) (V.join t i j) := by
  refine ⟨h.left.join hi hj, h.right.join hi hj, fun a ha b hb => ?_⟩
  rw [hU.root_join h.left hi hj ha hb, hV.root_join h.right hi hj ha hb,
    h.root_eq_iff a ha b hb, h.root_eq_iff a ha i hi, h.root_eq_iff j hj b hb,
    h.root_eq_iff a ha j hj, h.root_eq_iff i hi b hb]

/-- Joining all the numbers of a list keeps what is told alike. -/
theorem Alike.foldl_join (hU : U.Lawful) (hV : V.Lawful) {links : List (Nat × Nat)}
    (hlinks : ∀ link ∈ links, link.1 < size ∧ link.2 < size) {s : U.State} {t : V.State}
    (h : Alike U V size s t) :
    Alike U V size (links.foldl (fun s (a, b) => U.join s a b) s)
      (links.foldl (fun t (a, b) => V.join t a b) t) := by
  induction links generalizing s t with
  | nil => exact h
  | cons link links ih =>
    obtain ⟨hi, hj⟩ := hlinks link List.mem_cons_self
    exact ih (fun l hl => hlinks l (List.mem_cons_of_mem _ hl)) (h.join hU hV hi hj)

end UnionFind

namespace Partition

variable {p : Partition} {i j k : Nat}

/-- Two numbers are in one class. -/
def Same (p : Partition) (i j : Nat) : Prop :=
  p.root i = p.root j

/-- A number with a lesser parent has the root of its parent. -/
theorem root_of_lt (h : (p.parent[i]?).getD i < i) : p.root i = p.root ((p.parent[i]?).getD i) := by
  rw [root, if_pos h]

/-- A number without a lesser parent is a root. -/
theorem root_of_not_lt (h : ¬(p.parent[i]?).getD i < i) : p.root i = i := by
  rw [root, if_neg h]

/-- The root of a number is not greater. -/
theorem root_le (p : Partition) (i : Nat) : p.root i ≤ i := by
  induction i using Nat.strong_induction_on with
  | _ i ih =>
    by_cases h : (p.parent[i]?).getD i < i
    · rw [root_of_lt h]
      exact (ih _ h).trans (Nat.le_of_lt h)
    · rw [root_of_not_lt h]

/-- A root is its own root. -/
theorem root_root (p : Partition) (i : Nat) : p.root (p.root i) = p.root i := by
  induction i using Nat.strong_induction_on with
  | _ i ih =>
    by_cases h : (p.parent[i]?).getD i < i
    · rw [root_of_lt h]
      exact ih _ h
    · rw [root_of_not_lt h, root_of_not_lt h]

/-- Joining two numbers makes the lesser root the root of both classes. -/
theorem root_join (hi : i < p.parent.size) (hj : j < p.parent.size) (k : Nat) :
    (p.join i j).root k =
      if p.root k = max (p.root i) (p.root j) then min (p.root i) (p.root j) else p.root k := by
  have hlt : max (p.root i) (p.root j) < p.parent.size :=
    max_lt ((p.root_le i).trans_lt hi) ((p.root_le j).trans_lt hj)
  have hmax : p.root (max (p.root i) (p.root j)) = max (p.root i) (p.root j) := by
    rcases max_choice (p.root i) (p.root j) with h | h <;> rw [h, root_root]
  have hmin : p.root (min (p.root i) (p.root j)) = min (p.root i) (p.root j) := by
    rcases min_choice (p.root i) (p.root j) with h | h <;> rw [h, root_root]
  have hle : min (p.root i) (p.root j) ≤ max (p.root i) (p.root j) := min_le_max
  have hjoin : p.join i j =
      ⟨p.parent.setIfInBounds (max (p.root i) (p.root j)) (min (p.root i) (p.root j))⟩ := rfl
  rw [hjoin]
  generalize max (p.root i) (p.root j) = a at *
  generalize min (p.root i) (p.root j) = b at *
  -- parents are less, so the claim for the parent gives it for the number
  induction k using Nat.strong_induction_on with
  | _ k ih =>
    rw [root]
    dsimp only
    by_cases hk : k = a
    · subst hk
      rw [Array.getElem?_setIfInBounds_self_of_lt hlt, Option.getD_some, if_pos hmax]
      split
      · next h =>
        rw [ih b h, hmin, if_neg (Nat.ne_of_lt h)]
      · next h => exact Nat.le_antisymm (Nat.not_lt.1 h) hle
    · rw [Array.getElem?_setIfInBounds_ne (Ne.symm hk)]
      by_cases h : (p.parent[k]?).getD k < k
      · rw [if_pos h, ih _ h, root_of_lt h]
      · rw [if_neg h, root_of_not_lt h, if_neg hk]

/-- Joining two numbers keeps the bound. -/
theorem size_join (p : Partition) (i j : Nat) : (p.join i j).parent.size = p.parent.size := by
  rw [join, Array.size_setIfInBounds]

/-- Joining puts two numbers into one class. -/
theorem same_join (hi : i < p.parent.size) (hj : j < p.parent.size) : (p.join i j).Same i j := by
  rw [Same, root_join hi hj, root_join hi hj]
  rcases Nat.le_total (p.root i) (p.root j) with h | h
  · rw [max_eq_right h, min_eq_left h, if_pos rfl]
    split
    · rfl
    · rfl
  · rw [max_eq_left h, min_eq_right h, if_pos rfl]
    split
    · rfl
    · rfl

/-- Joining splits no class. -/
theorem Same.join {a b : Nat} (h : p.Same a b) (hi : i < p.parent.size)
    (hj : j < p.parent.size) : (p.join i j).Same a b := by
  rw [Same, root_join hi hj, root_join hi hj, h]

/-- What is in one class after joining two numbers is so before, or related through them. -/
theorem Same.of_join {R : Nat → Nat → Prop} (hR : Equivalence R) (hij : R i j)
    (hi : i < p.parent.size) (hj : j < p.parent.size) (hp : ∀ a b, p.Same a b → R a b) {a b : Nat}
    (h : (p.join i j).Same a b) : R a b := by
  have hroot : ∀ k, R k (p.root k) := fun k => hp k (p.root k) (p.root_root k).symm
  have hroots : R (p.root i) (p.root j) :=
    hR.trans (hR.symm (hroot i)) (hR.trans hij (hroot j))
  -- the new root of a number is related to the old one
  have hnew : ∀ k, R (p.root k) ((p.join i j).root k) := by
    intro k
    rw [root_join hi hj]
    split
    · next hk =>
      rw [hk]
      rcases Nat.le_total (p.root i) (p.root j) with hle | hle
      · rw [max_eq_right hle, min_eq_left hle]
        exact hR.symm hroots
      · rw [max_eq_left hle, min_eq_right hle]
        exact hroots
    · exact hR.refl _
  have ha := hR.trans (hroot a) (hnew a)
  have hb := hR.trans (hroot b) (hnew b)
  rw [Same] at h
  rw [h] at ha
  exact hR.trans ha (hR.symm hb)

section Links

variable {links : List (Nat × Nat)}

/-- The partition that a list of links makes of single numbers. -/
def ofLinks (size : Nat) (links : List (Nat × Nat)) : Partition :=
  links.foldl (fun q (a, b) => q.join a b) (discrete size)

/-- A single number is its own root. -/
theorem root_discrete (size i : Nat) : (discrete size).root i = i := by
  apply root_of_not_lt
  rw [discrete, Array.getElem?_range]
  split <;> simp

/-- Linked numbers are in one class. -/
theorem same_ofLinks {size : Nat} (hlinks : ∀ link ∈ links, link.1 < size ∧ link.2 < size)
    {link : Nat × Nat} (h : link ∈ links) : (ofLinks size links).Same link.1 link.2 := by
  have hfold : ∀ (links : List (Nat × Nat)) (q : Partition), q.parent.size = size →
      (∀ link ∈ links, link.1 < size ∧ link.2 < size) → ∀ a b, q.Same a b ∨ (a, b) ∈ links →
      (links.foldl (fun q (a, b) => q.join a b) q).Same a b := by
    intro links
    induction links with
    | nil =>
      intro q _ _ a b hab
      simpa using hab
    | cons first links ih =>
      intro q hq hlinks a b hab
      obtain ⟨hi, hj⟩ := hlinks first List.mem_cons_self
      rw [← hq] at hi hj
      refine ih _ ((q.size_join _ _).trans hq) (fun l hl => hlinks l (List.mem_cons_of_mem _ hl))
        a b ?_
      rcases hab with hab | hab
      · exact .inl (hab.join hi hj)
      · rcases List.mem_cons.1 hab with rfl | hab
        · exact .inl (same_join hi hj)
        · exact .inr hab
  exact hfold links (discrete size) (by simp [discrete]) hlinks _ _ (.inr h)

/-- Numbers of one class are related by every equivalence that the links keep to. -/
theorem of_same_ofLinks {size : Nat} (hlinks : ∀ link ∈ links, link.1 < size ∧ link.2 < size)
    {R : Nat → Nat → Prop} (hR : Equivalence R) (h : ∀ link ∈ links, R link.1 link.2) {a b : Nat}
    (hab : (ofLinks size links).Same a b) : R a b := by
  have hstart : ∀ a b, (discrete size).Same a b → R a b := by
    intro a b hab
    rw [Same, root_discrete, root_discrete] at hab
    exact hab ▸ hR.refl a
  have hfold : (ofLinks size links).parent.size = size ∧
      ∀ a b, (ofLinks size links).Same a b → R a b := by
    refine List.foldlRecOn links _ (motive := fun q : Partition =>
      q.parent.size = size ∧ ∀ a b, q.Same a b → R a b) ⟨by simp [discrete], hstart⟩ ?_
    rintro q ⟨hsize, hq⟩ link hlink
    obtain ⟨hi, hj⟩ := hlinks link hlink
    rw [← hsize] at hi hj
    exact ⟨(q.size_join _ _).trans hsize, fun a b hab => hab.of_join hR (h link hlink) hi hj hq⟩
  exact hfold.2 a b hab

end Links

/-! ### Partitions as disjoint sets -/

/-- A partition made by joining numbers below a bound has that bound. -/
theorem size_of_made {size : Nat} {s : unionFind.State} (h : unionFind.Made size s) :
    (parent s).size = size := by
  induction h with
  | discrete => exact Array.size_range
  | join _ _ _ ih => exact (size_join _ _ _).trans ih

/-- Joining two numbers puts their classes into one, and no other classes. -/
theorem root_join_eq_iff (hi : i < p.parent.size) (hj : j < p.parent.size) (a b : Nat) :
    (p.join i j).root a = (p.join i j).root b ↔
      p.root a = p.root b ∨ p.root a = p.root i ∧ p.root j = p.root b ∨
        p.root a = p.root j ∧ p.root i = p.root b := by
  rw [root_join hi hj, root_join hi hj]
  grind

/-- Partitions keep what is promised of disjoint sets. -/
theorem lawful_unionFind : unionFind.Lawful where
  root_lt _ hi := (root_le _ _).trans_lt hi
  root_discrete {size i j} _ _ h := by
    have h : (discrete size).root i = (discrete size).root j := h
    rwa [root_discrete, root_discrete] at h
  root_join {_ _ i j a b} hs hi hj _ _ := by
    rw [← size_of_made hs] at hi hj
    exact root_join_eq_iff hi hj a b

end Partition

end Unscramble
