import Mathlib

/-! # Lists and tables item by item

Two lists whose items belong together one by one. What becomes of the items of a list while some of
them are left out, changed and brought into another order: each item that is left has an item of its
own that it stems from. And tables that are filled by a fold over items with an index each: what stands
at an index in the end is told by the items that have this index.

Main definition: `Drawn`. Main statements: `Drawn.trans`, `Drawn.append`, `Drawn.flatMap`,
`Drawn.filterMap`, `getElem?_foldl_set_of_mem`, `getElem?_foldr_modify`, `mem_withNext_iff`. -/

namespace Unscramble

/-! ### Lists side by side -/

/-- A partner of an item of the second of two lists. -/
theorem exists_of_mem_right {α β : Type} {R : α → β → Prop} {xs : List α} {ys : List β}
    (h : List.Forall₂ R xs ys) {y : β} (hy : y ∈ ys) : ∃ x ∈ xs, R x y := by
  induction h with
  | nil => cases hy
  | cons hfirst _ ih =>
    rcases List.mem_cons.1 hy with rfl | hy
    · exact ⟨_, List.mem_cons_self, hfirst⟩
    · obtain ⟨x, hx, hR⟩ := ih hy
      exact ⟨x, List.mem_cons_of_mem _ hx, hR⟩

/-- A partner of an item of the first of two lists. -/
theorem exists_of_mem_left {α β : Type} {R : α → β → Prop} {xs : List α} {ys : List β}
    (h : List.Forall₂ R xs ys) {x : α} (hx : x ∈ xs) : ∃ y ∈ ys, R x y :=
  exists_of_mem_right h.flip hx

/-- Partners may be compared knowing that they belong to the lists. -/
theorem forall₂_of_mem_left {α β : Type} {R S : α → β → Prop} {xs : List α} {ys : List β}
    (h : List.Forall₂ R xs ys) (himp : ∀ x ∈ xs, ∀ y, R x y → S x y) : List.Forall₂ S xs ys := by
  induction h with
  | nil => exact .nil
  | cons hfirst _ ih =>
    exact .cons (himp _ List.mem_cons_self _ hfirst)
      (ih fun x hx => himp x (List.mem_cons_of_mem _ hx))

/-- What is side by side with a list in the middle is side by side with each other. -/
theorem forall₂_trans {α β γ : Type} {R : α → β → Prop} {S : β → γ → Prop} {T : α → γ → Prop}
    (htrans : ∀ x y z, R x y → S y z → T x z) {xs : List α} {ys : List β} {zs : List γ}
    (h : List.Forall₂ R xs ys) (h' : List.Forall₂ S ys zs) : List.Forall₂ T xs zs := by
  induction h generalizing zs with
  | nil =>
    cases h'
    exact .nil
  | cons hfirst _ ih =>
    cases h' with
    | cons hfirst' hrest' => exact .cons (htrans _ _ _ hfirst hfirst') (ih hrest')

/-- The partners of a part of a list are a part of the partners. -/
theorem exists_sublist_of_forall₂ {α β : Type} {R : α → β → Prop} {xs : List α}
    {ys ys' : List β} (h : List.Forall₂ R xs ys) (hsub : ys'.Sublist ys) :
    ∃ xs', xs'.Sublist xs ∧ List.Forall₂ R xs' ys' := by
  induction hsub generalizing xs with
  | slnil =>
    cases h
    exact ⟨[], .slnil, .nil⟩
  | cons y _ ih =>
    cases h with
    | cons _ hrest =>
      obtain ⟨xs', hsub', hxs'⟩ := ih hrest
      exact ⟨xs', hsub'.cons _, hxs'⟩
  | cons_cons y _ ih =>
    cases h with
    | cons hfirst hrest =>
      obtain ⟨xs', hsub', hxs'⟩ := ih hrest
      exact ⟨_ :: xs', hsub'.cons_cons _, .cons hfirst hxs'⟩

/-- A list whose items are told by those of another one. -/
theorem eq_map_of_forall₂ {α β : Type} {f : α → β} {xs : List α} {ys : List β}
    (h : List.Forall₂ (fun x y => y = f x) xs ys) : ys = xs.map f := by
  induction h with
  | nil => rfl
  | cons hfirst _ ih => rw [hfirst, ih, List.map_cons]

/-- A list whose items are those of another one. -/
theorem eq_of_forall₂ {α : Type} {xs ys : List α} (h : List.Forall₂ (fun x y => y = x) xs ys) :
    ys = xs := by
  rw [eq_map_of_forall₂ h, List.map_id']

/-- A map that tells the items of two lists apart tells the lists apart. -/
theorem eq_of_map_eq_map {α β : Type} {g : α → β} {xs ys : List α}
    (hinj : ∀ a ∈ xs, ∀ b ∈ ys, g a = g b → a = b) (h : xs.map g = ys.map g) : xs = ys := by
  induction xs generalizing ys with
  | nil => exact (List.map_eq_nil_iff.1 h.symm).symm
  | cons a xs ih =>
    cases ys with
    | nil => cases h
    | cons b ys =>
      obtain ⟨hhead, htail⟩ := List.cons.inj h
      rw [hinj a List.mem_cons_self b List.mem_cons_self hhead,
        ih (fun a ha b hb => hinj a (List.mem_cons_of_mem _ ha) b (List.mem_cons_of_mem _ hb)) htail]

/-- The partner at the same place. -/
theorem getElem?_of_forall₂ {α β : Type} {R : α → β → Prop} {xs : List α} {ys : List β}
    (h : List.Forall₂ R xs ys) {i : Nat} {x : α} (hi : xs[i]? = some x) :
    ∃ y, ys[i]? = some y ∧ R x y := by
  obtain ⟨hlt, rfl⟩ := List.getElem?_eq_some_iff.1 hi
  have hlt' : i < ys.length := h.length_eq ▸ hlt
  exact ⟨ys[i], List.getElem?_eq_getElem hlt', h.get hlt hlt'⟩

/-- The first place depends on the items of the list only. -/
theorem findIdx?_congr {α : Type} {p q : α → Bool} {xs : List α} (h : ∀ a ∈ xs, p a = q a) :
    xs.findIdx? p = xs.findIdx? q := by
  induction xs with
  | nil => rfl
  | cons a xs ih =>
    rw [List.findIdx?_cons, List.findIdx?_cons, h a List.mem_cons_self,
      ih fun a ha => h a (List.mem_cons_of_mem _ ha)]

/-- The first answer depends on the items of the list only. -/
theorem findSome?_congr {α β : Type} {f g : α → Option β} {xs : List α} (h : ∀ a ∈ xs, f a = g a) :
    xs.findSome? f = xs.findSome? g := by
  induction xs with
  | nil => rfl
  | cons a xs ih =>
    rw [List.findSome?_cons, List.findSome?_cons, h a List.mem_cons_self,
      ih fun a ha => h a (List.mem_cons_of_mem _ ha)]

/-- What is found first stays the first when it is kept and others are left out. -/
theorem find?_filter_of_keep {α : Type} {p q : α → Bool} {xs : List α}
    (hkeep : ∀ a, xs.find? p = some a → q a = true) : (xs.filter q).find? p = xs.find? p := by
  induction xs with
  | nil => rfl
  | cons x xs ih =>
    cases hp : p x with
    | true =>
      have hq : q x = true := hkeep x (List.find?_cons_of_pos hp)
      rw [List.filter_cons_of_pos hq, List.find?_cons_of_pos hp, List.find?_cons_of_pos hp]
    | false =>
      have hne : ¬p x = true := by simp [hp]
      rw [List.find?_cons_of_neg hne] at hkeep ⊢
      rw [List.filter_cons]
      split
      · rw [List.find?_cons_of_neg hne, ih hkeep]
      · exact ih hkeep

/-! ### Origins -/

open scoped List

/-- Each item of the second list stems from an item of its own of the first. -/
def Drawn {α β : Type} (R : α → β → Prop) (xs : List α) (ys : List β) : Prop :=
  ∃ origins, origins <+~ xs ∧ List.Forall₂ R origins ys

namespace Drawn

variable {α β γ ι : Type} {R : α → β → Prop} {xs xs' : List α} {ys ys' : List β}

/-- Items that change one by one. -/
theorem of_forall₂ (h : List.Forall₂ R xs ys) : Drawn R xs ys :=
  ⟨xs, List.Subperm.refl xs, h⟩

/-- Nothing is drawn from a list. -/
theorem nil (xs : List α) : Drawn R xs [] :=
  ⟨[], List.nil_subperm, .nil⟩

/-- Items that do not change. -/
theorem of_subperm {R : α → α → Prop} (hrefl : ∀ a, R a a) {xs xs' : List α} (h : xs' <+~ xs) :
    Drawn R xs xs' :=
  ⟨xs', h, List.forall₂_same.2 fun a _ => hrefl a⟩

/-- A list is drawn from itself. -/
theorem refl {R : α → α → Prop} (hrefl : ∀ a, R a a) (xs : List α) : Drawn R xs xs :=
  of_subperm hrefl (List.Subperm.refl xs)

/-- What is drawn by a relation is drawn by a wider one. -/
theorem mono {S : α → β → Prop} (h : Drawn R xs ys) (himp : ∀ a ∈ xs, ∀ b, R a b → S a b) :
    Drawn S xs ys := by
  obtain ⟨origins, hsub, hall⟩ := h
  exact ⟨origins, hsub, forall₂_of_mem_left hall fun a ha b => himp a (hsub.subset ha) b⟩

/-- What stems from a part of a list stems from the list. -/
theorem of_subperm_left (h : Drawn R xs ys) (hsub : xs <+~ xs') : Drawn R xs' ys := by
  obtain ⟨origins, horigins, hall⟩ := h
  exact ⟨origins, horigins.trans hsub, hall⟩

/-- A part of what stems from a list stems from it. -/
theorem of_subperm_right (h : Drawn R xs ys) (hsub : ys' <+~ ys) : Drawn R xs ys' := by
  obtain ⟨origins, horigins, hall⟩ := h
  obtain ⟨zs, hperm, hzs⟩ := hsub
  obtain ⟨origins', horigins', hall'⟩ := exists_sublist_of_forall₂ hall hzs
  -- the origins follow their items into another order
  obtain ⟨origins'', hall'', hperm'⟩ := List.perm_comp_forall₂ hperm.symm hall'.flip
  exact ⟨origins'', hperm'.subperm.trans (horigins'.subperm.trans horigins), hall''.flip⟩

/-- What is drawn from what is drawn from a list is drawn from that list. -/
theorem trans {S : β → γ → Prop} {T : α → γ → Prop} (htrans : ∀ a b c, R a b → S b c → T a c)
    {zs : List γ} (h : Drawn R xs ys) (h' : Drawn S ys zs) : Drawn T xs zs := by
  obtain ⟨mid, hsub, hall⟩ := h'
  obtain ⟨origins, horigins, hall'⟩ := h.of_subperm_right hsub
  exact ⟨origins, horigins, forall₂_trans htrans hall' hall⟩

/-- Lists side by side are drawn from lists side by side. -/
theorem append (h : Drawn R xs ys) (h' : Drawn R xs' ys') : Drawn R (xs ++ xs') (ys ++ ys') := by
  obtain ⟨origins, hsub, hall⟩ := h
  obtain ⟨origins', hsub', hall'⟩ := h'
  exact ⟨origins ++ origins', hsub.append hsub', List.rel_append hall hall'⟩

/-- The parts of containers that stem from each other one by one. -/
theorem flatMap {κ : Type} {f : ι → List α} {g : κ → List β} {is : List ι} {ks : List κ}
    (h : List.Forall₂ (fun i k => Drawn R (f i) (g k)) is ks) :
    Drawn R (is.flatMap f) (ks.flatMap g) := by
  induction h with
  | nil => exact nil _
  | cons hfirst _ ih =>
    rw [List.flatMap_cons, List.flatMap_cons]
    exact hfirst.append ih

/-- What is made of items that stem from each other. -/
theorem filterMap {α' β' : Type} {S : α' → β' → Prop} {f : α → Option α'} {g : β → Option β'}
    (h : Drawn R xs ys) (hR : ∀ a b, R a b → Option.Rel S (f a) (g b)) :
    Drawn S (xs.filterMap f) (ys.filterMap g) := by
  obtain ⟨origins, hsub, hall⟩ := h
  obtain ⟨part, hperm, hpart⟩ := hsub
  refine ⟨origins.filterMap f, ⟨part.filterMap f, hperm.filterMap f, hpart.filterMap f⟩, ?_⟩
  clear hperm
  induction hall with
  | nil => exact .nil
  | @cons a b origins ys hfirst _ ih =>
    have hfirst := hR a b hfirst
    rw [List.filterMap_cons, List.filterMap_cons]
    generalize f a = fa at hfirst
    generalize g b = gb at hfirst
    cases hfirst with
    | none => exact ih
    | some hfirst => exact .cons hfirst ih

/-- The items of a kind that what stems from each other shares. -/
theorem filter {keep : α → Bool} {keep' : β → Bool} (h : Drawn R xs ys)
    (hR : ∀ a b, R a b → keep' b = keep a) : Drawn R (xs.filter keep) (ys.filter keep') := by
  rw [← List.filterMap_eq_filter, ← List.filterMap_eq_filter]
  refine h.filterMap fun a b hab => ?_
  rw [Option.guard, Option.guard, hR a b hab]
  split
  · exact .some hab
  · exact .none

/-- No more is left than was there. -/
theorem length_le (h : Drawn R xs ys) : ys.length ≤ xs.length := by
  obtain ⟨origins, hsub, hall⟩ := h
  rw [← hall.length_eq]
  exact hsub.length_le

/-- An item stems from one of the list. -/
theorem exists_of_mem (h : Drawn R xs ys) {y : β} (hy : y ∈ ys) : ∃ x ∈ xs, R x y := by
  obtain ⟨origins, hsub, hall⟩ := h
  obtain ⟨x, hx, hR⟩ := exists_of_mem_right hall hy
  exact ⟨x, hsub.subset hx, hR⟩

end Drawn

section

/-! ### Setting entries of a table -/

variable {ι β : Type} (key : ι → Nat) (val : ι → β)

/-- Filling a table leaves every index alone that no item has. -/
theorem getElem?_foldl_set_of_not_mem {items : List ι} {k : Nat} (hk : k ∉ items.map key)
    (table : Array β) :
    (items.foldl (fun table i => table.setIfInBounds (key i) (val i)) table)[k]? = table[k]? := by
  induction items generalizing table with
  | nil => rfl
  | cons i items ih =>
    simp only [List.map_cons, List.mem_cons, not_or] at hk
    rw [List.foldl_cons, ih hk.2, Array.getElem?_setIfInBounds_ne (Ne.symm hk.1)]

/-- A table that is filled with items of different indices holds the value of each item. -/
theorem getElem?_foldl_set_of_mem {items : List ι} (hnodup : (items.map key).Nodup) {i : ι}
    (hm : i ∈ items) (table : Array β) (hk : key i < table.size) :
    (items.foldl (fun table i => table.setIfInBounds (key i) (val i)) table)[key i]? =
      some (val i) := by
  induction items generalizing table with
  | nil => cases hm
  | cons j items ih =>
    rw [List.map_cons, List.nodup_cons] at hnodup
    rw [List.foldl_cons]
    rcases List.mem_cons.1 hm with rfl | hm
    · rw [getElem?_foldl_set_of_not_mem key val hnodup.1,
        Array.getElem?_setIfInBounds_self_of_lt hk]
    · exact ih hnodup.2 hm _ (by simpa using hk)

/-- Filling a table does not change its size. -/
theorem size_foldl_set (items : List ι) (table : Array β) :
    (items.foldl (fun table i => table.setIfInBounds (key i) (val i)) table).size =
      table.size := by
  induction items generalizing table with
  | nil => rfl
  | cons i items ih => rw [List.foldl_cons, ih, Array.size_setIfInBounds]

/-! ### Adding to entries of a table -/

/-- A table to whose entries the values of items are added, the first item last, holds at each index
the values of the items with this index in order. -/
theorem getElem?_foldr_modify (items : List ι) (table : Array (List β)) (k : Nat) :
    (items.foldr (fun i table => table.modify (key i) (val i :: ·)) table)[k]? =
      table[k]?.map (((items.filter fun i => key i = k).map val) ++ ·) := by
  induction items with
  | nil => simp
  | cons i items ih =>
    rw [List.foldr_cons, Array.getElem?_modify, ih]
    by_cases hk : key i = k
    · rw [if_pos hk, List.filter_cons_of_pos (by simpa using hk), Option.map_map]
      rfl
    · rw [if_neg hk, List.filter_cons_of_neg (by simpa using hk)]

/-- Adding to the entries of a table does not change its size. -/
theorem size_foldr_modify (items : List ι) (table : Array (List β)) :
    (items.foldr (fun i table => table.modify (key i) (val i :: ·)) table).size = table.size := by
  induction items with
  | nil => rfl
  | cons i items ih => rw [List.foldr_cons, Array.size_modify, ih]

/-! ### Items with their successors -/

/-- The items of a list, each with the item behind it. -/
def withNext {α : Type} (xs : List α) : List (α × Option α) :=
  xs.zip (xs.drop 1 |>.map some |>.append [none])

/-- The first element is followed by the next one, if there is one. -/
theorem withNext_cons {α : Type} (x : α) (xs : List α) :
    withNext (x :: xs) = (x, xs.head?) :: withNext xs := by
  cases xs with
  | nil => rfl
  | cons y xs => rfl

/-- An item and what stands behind it. -/
theorem mem_withNext_iff {α : Type} {xs : List α} {a : α} {n : Option α} :
    (a, n) ∈ withNext xs ↔ ∃ front back, xs = front ++ a :: back ∧ n = back.head? := by
  induction xs with
  | nil =>
    constructor
    · intro h
      cases h
    · rintro ⟨front, back, h, -⟩
      simp at h
  | cons x xs ih =>
    rw [withNext_cons, List.mem_cons, ih]
    constructor
    · rintro (h | ⟨front, back, rfl, rfl⟩)
      · cases h
        exact ⟨[], xs, rfl, rfl⟩
      · exact ⟨x :: front, back, rfl, rfl⟩
    · rintro ⟨front, back, h, rfl⟩
      cases front with
      | nil =>
        cases h
        exact .inl rfl
      | cons y front =>
        rw [List.cons_append] at h
        exact .inr ⟨front, back, (List.cons.inj h).2, rfl⟩

/-- The items from some item on. -/
theorem exists_withNext_append {α : Type} (front : List α) (x : α) (back : List α) :
    ∃ pairs, withNext (front ++ x :: back) = pairs ++ (x, back.head?) :: withNext back := by
  induction front with
  | nil => exact ⟨[], withNext_cons x back⟩
  | cons y front ih =>
    obtain ⟨pairs, h⟩ := ih
    exact ⟨(y, (front ++ x :: back).head?) :: pairs, by rw [List.cons_append, withNext_cons, h]; rfl⟩

/-- The items alone. -/
theorem map_fst_withNext {α : Type} (xs : List α) : (withNext xs).map (·.1) = xs := by
  induction xs with
  | nil => rfl
  | cons x xs ih => rw [withNext_cons, List.map_cons, ih]

end

end Unscramble
