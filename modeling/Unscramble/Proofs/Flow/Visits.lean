import Unscramble.Proofs.Search

/-! # Depth-first searches as derivations

What a depth-first search lists is told by a derivation that follows its calls: the search of the
successors of a number is a part of the search that visits the number. So a statement about the order
of a search is proved by induction on the calls instead of the states of the stack.

The order changes with the graph: an element can be replaced by a stretch of elements that lead to
each other, an element can lead to the one listed behind it instead, and an element that leads to one
other only can be left out.

Main definitions: `Visits`, `Threaded`, `Expands`, `Precedes`. Main statements: `Visits.unique`,
`exists_visits`, `visits_append_iff`, `Visits.congr_met`, `Visits.finish_eq`,
`exists_visits_finishOrder`, `Expands.visits`, `Visits.redirect`, `Visits.bypass`. -/

namespace Unscramble.Flow

/-- A depth-first search that visits the members of a list in turn, with those of `met` passed over
since they were met before, finishes the members of the last list, the last to be finished first. -/
inductive Visits {α : Type} (next : α → List α) : Set α → List α → List α → Prop
  /-- There is nothing to visit. -/
  | nil {met : Set α} : Visits next met [] []
  /-- What was met before is passed over. -/
  | seen {met : Set α} {v : α} {vs d : List α} (old : v ∈ met) (rest : Visits next met vs d) :
      Visits next met (v :: vs) d
  /-- What is met for the first time is finished when everything it leads to is. -/
  | new {met : Set α} {v : α} {vs d e : List α} (fresh : v ∉ met)
      (below : Visits next (insert v met) (next v) d)
      (rest : Visits next (insert v met ∪ {x | x ∈ d}) vs e) :
      Visits next met (v :: vs) (e ++ v :: d)

section

variable {α : Type} {next : α → List α} {met : Set α} {vs ws d e : List α}

/-- What is met when the two parts of a search are over is what the whole search met. -/
theorem insert_union_listed (met : Set α) (v : α) (d e : List α) :
    insert v met ∪ {x | x ∈ d} ∪ {x | x ∈ e} = met ∪ {x | x ∈ e ++ v :: d} := by
  ext x
  simp only [Set.mem_union, Set.mem_insert_iff, Set.mem_ofPred_eq, List.mem_append, List.mem_cons]
  tauto

namespace Visits

/-! ### What a search lists -/

/-- What a search lists was not met before it. -/
theorem not_mem_met (h : Visits next met vs d) : ∀ x ∈ d, x ∉ met := by
  induction h with
  | nil => simp
  | seen _ _ ih => exact ih
  | new fresh _ _ ihd ihe =>
    intro x hx hm
    rcases List.mem_append.1 hx with hx | hx
    · exact ihe x hx (.inl (.inr hm))
    · rcases List.mem_cons.1 hx with rfl | hx
      · exact fresh hm
      · exact ihd x hx (.inr hm)

/-- A search lists nothing twice. -/
theorem nodup (h : Visits next met vs d) : d.Nodup := by
  induction h with
  | nil => exact List.nodup_nil
  | seen _ _ ih => exact ih
  | new _ below rest ihd ihe =>
    rw [List.nodup_append]
    refine ⟨ihe, List.nodup_cons.2 ⟨?_, ihd⟩, ?_⟩
    · exact fun hv => below.not_mem_met _ hv (.inl rfl)
    · rintro x hx y hy rfl
      rcases List.mem_cons.1 hy with rfl | hy
      · exact rest.not_mem_met _ hx (.inl (.inl rfl))
      · exact rest.not_mem_met _ hx (.inr hy)

/-- What a search is to visit was met before it, or is listed. -/
theorem covers (h : Visits next met vs d) : ∀ v ∈ vs, v ∈ met ∨ v ∈ d := by
  induction h with
  | nil => simp
  | seen old _ ih =>
    intro v hv
    rcases List.mem_cons.1 hv with rfl | hv
    · exact .inl old
    · exact ih v hv
  | new _ _ _ _ ihe =>
    intro v hv
    rw [List.mem_append, List.mem_cons]
    rcases List.mem_cons.1 hv with rfl | hv
    · exact .inr (.inr (.inl rfl))
    · rcases ihe v hv with (h | h) | h
      · rcases h with rfl | h
        · exact .inr (.inr (.inl rfl))
        · exact .inl h
      · exact .inr (.inr (.inr h))
      · exact .inr (.inl h)

/-- What a listed element leads to was met before the search, or is listed. -/
theorem closed (h : Visits next met vs d) : ∀ x ∈ d, ∀ y ∈ next x, y ∈ met ∨ y ∈ d := by
  induction h with
  | nil => simp
  | seen _ _ ih => exact ih
  | @new met v vs d e _ below rest ihd ihe =>
    -- what is met between the two parts of the search is listed by the whole
    have hmet : ∀ y, y ∈ insert v met ∨ y ∈ d → y ∈ met ∨ y ∈ e ++ v :: d := by
      rintro y ((rfl | hy) | hy)
      · exact .inr (by simp)
      · exact .inl hy
      · exact .inr (by simp [hy])
    intro x hx y hy
    rcases List.mem_append.1 hx with hx | hx
    · rcases ihe x hx y hy with h | h
      · exact hmet y h
      · exact .inr (by simp [h])
    · rcases List.mem_cons.1 hx with rfl | hx
      · exact hmet y (below.covers y hy)
      · exact hmet y (ihd x hx y hy)

/-- What holds of everything to visit, and passes on to what follows, holds of everything listed. -/
theorem forall_mem {p : α → Prop} (h : Visits next met vs d) (hvs : ∀ v ∈ vs, p v)
    (hnext : ∀ v, p v → ∀ w ∈ next v, p w) : ∀ x ∈ d, p x := by
  induction h with
  | nil => simp
  | seen _ _ ih => exact ih fun v hv => hvs v (by simp [hv])
  | new _ _ _ ihd ihe =>
    have hv := hvs _ List.mem_cons_self
    intro x hx
    rcases List.mem_append.1 hx with hx | hx
    · exact ihe (fun w hw => hvs w (by simp [hw])) x hx
    · rcases List.mem_cons.1 hx with rfl | hx
      · exact hv
      · exact ihd (hnext _ hv) x hx

/-- A search lists one list only. -/
theorem unique (h : Visits next met vs d) (h' : Visits next met vs e) : d = e := by
  induction h generalizing e with
  | nil =>
    cases h'
    rfl
  | seen old _ ih =>
    cases h' with
    | seen _ rest' => exact ih rest'
    | new fresh' _ _ => exact absurd old fresh'
  | new fresh _ _ ihd ihe =>
    cases h' with
    | seen old' _ => exact absurd old' fresh
    | new _ below' rest' =>
      obtain rfl := ihd below'
      rw [ihe rest']

/-! ### Searches one after the other -/

/-- A search goes on where another one ended. -/
theorem append (h : Visits next met vs d) (h' : Visits next (met ∪ {x | x ∈ d}) ws e) :
    Visits next met (vs ++ ws) (e ++ d) := by
  induction h with
  | nil => simpa using h'
  | seen old _ ih => exact .seen old (ih h')
  | @new met v vs d d' fresh below rest _ ihe =>
    rw [← insert_union_listed] at h'
    rw [← List.append_assoc]
    exact .new fresh below (ihe h')

/-- A search of two lists is a search of the first and then one of the second. -/
theorem exists_of_append (h : Visits next met (vs ++ ws) d) :
    ∃ d₁ d₂, Visits next met vs d₁ ∧ Visits next (met ∪ {x | x ∈ d₁}) ws d₂ ∧ d = d₂ ++ d₁ := by
  induction vs generalizing met d with
  | nil => exact ⟨[], d, .nil, by simpa using h, by simp⟩
  | cons v vs ih =>
    cases h with
    | seen old rest =>
      obtain ⟨d₁, d₂, h₁, h₂, heq⟩ := ih rest
      exact ⟨d₁, d₂, .seen old h₁, h₂, heq⟩
    | @new _ _ _ d' e fresh below rest =>
      obtain ⟨d₁, d₂, h₁, h₂, rfl⟩ := ih rest
      rw [insert_union_listed] at h₂
      exact ⟨d₁ ++ v :: d', d₂, .new fresh below h₁, h₂, by simp⟩

/-! ### What a search depends on -/

/-- A search depends on what was met before it only where it looks. -/
theorem congr_met {met' : Set α} (h : Visits next met vs d)
    (hvs : ∀ v ∈ vs, v ∈ met ↔ v ∈ met')
    (hnext : ∀ x ∈ d, ∀ y ∈ next x, y ∈ met ↔ y ∈ met') : Visits next met' vs d := by
  induction h generalizing met' with
  | nil => exact .nil
  | seen old _ ih =>
    exact .seen ((hvs _ List.mem_cons_self).1 old) (ih (fun v hv => hvs v (by simp [hv])) hnext)
  | @new met v vs d e fresh below rest ihd ihe =>
    refine .new (fun h => fresh ((hvs v List.mem_cons_self).2 h)) (ihd ?_ ?_) (ihe ?_ ?_)
    · intro w hw
      simp only [Set.mem_insert_iff, hnext v (by simp) w hw]
    · intro x hx y hy
      simp only [Set.mem_insert_iff, hnext x (by simp [hx]) y hy]
    · intro w hw
      simp only [Set.mem_union, Set.mem_insert_iff, hvs w (by simp [hw])]
    · intro x hx y hy
      simp only [Set.mem_union, Set.mem_insert_iff, hnext x (by simp [hx]) y hy]

end Visits

/-- Where all but finitely many elements were met before, a search ends. -/
theorem exists_visits (next : α → List α) (open' : Finset α) (met : Set α)
    (h : ∀ v, v ∉ met → v ∈ open') (vs : List α) : ∃ d, Visits next met vs d := by
  classical
  induction hn : open'.card using Nat.strong_induction_on generalizing open' met vs with
  | _ n ih =>
    subst hn
    induction vs with
    | nil => exact ⟨[], .nil⟩
    | cons v vs ihv =>
      by_cases hv : v ∈ met
      · obtain ⟨d, hd⟩ := ihv
        exact ⟨d, .seen hv hd⟩
      · -- both parts of the search have one element less to meet
        have hcard : (open'.erase v).card < open'.card := Finset.card_erase_lt_of_mem (h v hv)
        have hmet : ∀ met', insert v met ⊆ met' → ∀ w, w ∉ met' → w ∈ open'.erase v := by
          intro met' hsub w hw
          refine Finset.mem_erase.2 ⟨?_, h w fun hm => hw (hsub (.inr hm))⟩
          rintro rfl
          exact hw (hsub (.inl rfl))
        obtain ⟨d, hd⟩ := ih _ hcard _ _ (hmet _ (le_refl _)) (next v) rfl
        obtain ⟨e, he⟩ := ih _ hcard _ (insert v met ∪ {x | x ∈ d})
          (hmet _ Set.subset_union_left) vs rfl
        exact ⟨e ++ v :: d, .new hv hd he⟩

/-! ### Searches with a stack -/

/-- A search with a stack visits the successors of the number on the top as a search does, and then
finishes that number. -/
theorem Visits.finish_eq {next : Nat → List Nat} {met : Set Nat} {cs d : List Nat}
    (h : Visits next met cs d) (v : Nat) (rest : List (Nat × List Nat)) (seen : Array Bool)
    (done : List Nat) (hseen : ∀ u, u ∈ met ↔ isMarked seen u = true ∨ seen.size ≤ u) :
    ∃ seen', (∀ u, u ∈ met ∪ {x | x ∈ d} ↔ isMarked seen' u = true ∨ seen'.size ≤ u) ∧
      finish next ((v, cs) :: rest) seen done = finish next rest seen' (v :: (d ++ done)) := by
  -- On the visits, for whatever lies below on the stack; the marks stand for the numbers that have
  -- been met.
  induction h generalizing v rest seen done with
  | nil =>
    refine ⟨seen, by simpa using hseen, ?_⟩
    rw [finish, List.nil_append]
  -- A number met before is skipped.
  | @seen met c cs d old _ ih =>
    obtain ⟨seen', hseen', heq⟩ := ih v rest seen done hseen
    refine ⟨seen', hseen', ?_⟩
    have hold : ¬∃ h : c < seen.size, seen[c] = false := by
      rw [unseen_iff]
      rintro ⟨hlt, hm⟩
      rcases (hseen c).1 old with h | h
      · rw [hm] at h
        cases h
      · exact Nat.not_lt.2 h hlt
    rw [finish, dif_neg hold, heq]
  -- A fresh one is marked and pushed; its own visits end with it on the list, and then the rest is
  -- visited.
  | @new met c cs d e fresh _ _ ihd ihe =>
    have hnew : ∃ h : c < seen.size, seen[c] = false := by
      rw [unseen_iff]
      rw [hseen, not_or, Bool.not_eq_true, Nat.not_le] at fresh
      exact ⟨fresh.2, fresh.1⟩
    obtain ⟨seen₁, hseen₁, heq₁⟩ := ihd c ((v, cs) :: rest) (seen.set c true hnew.1) done (by
      intro u
      rw [Set.mem_insert_iff, hseen, isMarked_set, Array.size_set, or_assoc])
    obtain ⟨seen₂, hseen₂, heq₂⟩ := ihe v rest seen₁ (c :: (d ++ done)) hseen₁
    rw [insert_union_listed] at hseen₂
    refine ⟨seen₂, hseen₂, ?_⟩
    rw [finish, dif_pos hnew, heq₁, heq₂, List.append_assoc, List.cons_append]

/-- The numbers listed from a root are those of a search that visits the root. -/
theorem exists_visits_finishOrder (next : Nat → List Nat) {size root : Nat} (hroot : root < size) :
    ∃ d, Visits next (insert root {u | size ≤ u}) (next root) d ∧
      finishOrder next size root = root :: d := by
  obtain ⟨d, hd⟩ := exists_visits next (Finset.range size) (insert root {u | size ≤ u}) (by
    intro v hv
    rw [Finset.mem_range]
    by_contra h
    exact hv (.inr (Nat.not_lt.1 h))) (next root)
  obtain ⟨seen', -, heq⟩ := hd.finish_eq root [] (mark size [root]) [] (by
    intro u
    rw [isMarked_mark, size_mark, Set.mem_insert_iff, Set.mem_ofPred_eq, List.mem_singleton]
    constructor
    · rintro (rfl | h)
      · exact .inl ⟨rfl, hroot⟩
      · exact .inr h
    · rintro (⟨rfl, -⟩ | h)
      · exact .inl rfl
      · exact .inr h)
  refine ⟨d, hd, ?_⟩
  rw [finishOrder, heq, finish, List.append_nil]

end

section

variable {α β : Type} {met : Set α}

/-! ### Stretches in place of elements -/

/-- Each element of a stretch leads to some elements and then to the next of the stretch; `out` is
what the stretch leads to, in order, besides itself. -/
inductive Threaded (leads : α → List α) : List α → List α → Prop
  /-- The last element leads out of the stretch only. -/
  | last {h : α} : Threaded leads [h] (leads h)
  /-- The other elements lead to their neighbour at last. -/
  | cons {h h' : α} {hs js out : List α} (eq : leads h = js ++ [h'])
      (rest : Threaded leads (h' :: hs) out) : Threaded leads (h :: h' :: hs) (js ++ out)

/-- A stretch whose elements lead to some elements each and then to their right neighbour. -/
theorem threaded_of_neighbours {leads ts : α → List α} {h : α} {hs fall : List α}
    (hinner : ∀ front a c back, h :: hs = front ++ a :: c :: back → leads a = ts a ++ [c])
    (hlast : ∀ front a, h :: hs = front ++ [a] → leads a = ts a ++ fall) :
    Threaded leads (h :: hs) ((h :: hs).flatMap ts ++ fall) := by
  induction hs generalizing h with
  | nil =>
    have heq := hlast [] h rfl
    rw [List.flatMap_singleton, ← heq]
    exact .last
  | cons c hs ih =>
    rw [List.flatMap_cons, List.append_assoc]
    refine .cons (hinner [] h c hs rfl) (ih ?_ ?_)
    · intro front a c' back hs'
      exact hinner (h :: front) a c' back (by rw [hs', List.cons_append])
    · intro front a hs'
      exact hlast (h :: front) a (by rw [hs', List.cons_append])

/-- A search that enters a stretch finishes it as one piece, if what the stretch leads to does not
come back to its inner elements. -/
theorem Threaded.visits {leads : α → List α} {h : α} {hs out d : List α}
    (ht : Threaded leads (h :: hs) out) (hnodup : (h :: hs).Nodup) (hfresh : ∀ x ∈ h :: hs, x ∉ met)
    (hd : Visits leads (met ∪ {x | x ∈ h :: hs}) out d)
    (hinner : ∀ x ∈ hs, x ∉ out ∧ ∀ v ∈ d, x ∉ leads v) :
    Visits leads (insert h met) (leads h) (hs ++ d) := by
  generalize hstretch : h :: hs = stretch at ht
  induction ht generalizing met h hs d with
  | last =>
    cases hstretch
    rw [List.nil_append, Set.insert_eq, Set.union_comm]
    convert hd using 1
    ext x
    simp
  | @cons a b rest js out heq _ ih =>
    cases hstretch
    obtain ⟨d₁, d₂, hd₁, hd₂, rfl⟩ := hd.exists_of_append
    have hb := List.nodup_cons.1 hnodup
    -- what is looked at first is outside the rest of the stretch
    have hoff : ∀ x, x ∉ b :: rest → (x ∈ met ∪ {x | x ∈ a :: b :: rest} ↔ x ∈ insert a met) := by
      intro x hx
      rw [Set.mem_union, Set.mem_insert_iff, Set.mem_ofPred_eq, List.mem_cons]
      tauto
    have hfirst : Visits leads (insert a met) js d₁ := by
      refine hd₁.congr_met (fun v hv => hoff v ?_) fun x hx y hy => hoff y ?_
      · exact fun hm => (hinner v hm).1 (List.mem_append_left _ hv)
      · exact fun hm => (hinner y hm).2 x (List.mem_append_right _ hx) hy
    have hfresh' : ∀ x ∈ b :: rest, x ∉ insert a met ∪ {x | x ∈ d₁} := by
      rintro x hx ((rfl | hm) | hm)
      · exact hb.1 hx
      · exact hfresh x (List.mem_cons_of_mem a hx) hm
      · exact hd₁.not_mem_met x hm (.inr (List.mem_cons_of_mem a hx))
    have hsecond : Visits leads (insert a met ∪ {x | x ∈ d₁} ∪ {x | x ∈ b :: rest}) out d₂ := by
      convert hd₂ using 1
      ext x
      simp only [Set.mem_union, Set.mem_insert_iff, Set.mem_ofPred_eq, List.mem_cons]
      tauto
    have hrest := ih hb.2 hfresh' hsecond (by
      intro x hx
      obtain ⟨hout, hleads⟩ := hinner x (List.mem_cons_of_mem b hx)
      rw [List.mem_append, not_or] at hout
      exact ⟨hout.2, fun v hv => hleads v (List.mem_append_left _ hv)⟩) rfl
    have hlast : Visits leads (insert a met ∪ {x | x ∈ d₁}) [b] ([] ++ b :: (rest ++ d₂)) :=
      .new (hfresh' b List.mem_cons_self) hrest .nil
    rw [heq, List.cons_append, ← List.append_assoc]
    exact hfirst.append hlast

/-- Every element `n` of a graph stands for a stretch `whole n` of another graph, which begins at
`head n` and leads to the stretches of what `n` leads to. -/
structure Expands (next : β → List β) (leads : α → List α) (whole : β → List α) (head : β → α)
    (inside : β → Prop) : Prop where
  /-- The stretch leads where the element does. -/
  threaded : ∀ n, inside n → Threaded leads (whole n) ((next n).map head)
  /-- The stretch begins with its head. -/
  head_eq : ∀ n, inside n → ∃ inner, whole n = head n :: inner ∧
    ∀ x ∈ inner, ∀ m, inside m → ∀ v ∈ whole m, x ∈ leads v → m = n
  /-- What an element leads to stands for a stretch, too. -/
  closed : ∀ n, inside n → ∀ m ∈ next n, inside m
  /-- Nothing stands twice in a stretch. -/
  nodup : ∀ n, inside n → (whole n).Nodup
  /-- Different elements stand for stretches that have nothing in common. -/
  apart : ∀ n m, inside n → inside m → ∀ x, x ∈ whole n → x ∈ whole m → n = m

/-- A search lists the stretches in the order in which it lists the elements that they stand for. -/
theorem Expands.visits {next : β → List β} {leads : α → List α} {whole : β → List α} {head : β → α}
    {inside : β → Prop} (ex : Expands next leads whole head inside) {met : Set β} {vs d : List β}
    (h : Visits next met vs d) {met' : Set α} (hvs : ∀ v ∈ vs, inside v)
    (hold : ∀ n, inside n → n ∈ met → head n ∈ met')
    (hfresh : ∀ n, inside n → n ∉ met → ∀ x ∈ whole n, x ∉ met') :
    Visits leads met' (vs.map head) (d.flatMap whole) := by
  have hhead : ∀ n, inside n → head n ∈ whole n := by
    intro n hn
    obtain ⟨inner, heq, -⟩ := ex.head_eq n hn
    rw [heq]
    exact List.mem_cons_self
  induction h generalizing met' with
  | nil => exact .nil
  | @seen met v vs d old _ ih =>
    exact .seen (hold v (hvs v List.mem_cons_self) old)
      (ih (fun w hw => hvs w (List.mem_cons_of_mem v hw)) hold hfresh)
  | @new met v vs d e fresh below rest ihd ihe =>
    have hv := hvs v List.mem_cons_self
    have hd := below.forall_mem (ex.closed v hv) ex.closed
    obtain ⟨inner, hwhole, hinner⟩ := ex.head_eq v hv
    have hnodup := ex.nodup v hv
    have hthreaded := ex.threaded v hv
    have hfreshv := hfresh v hv fresh
    -- what the stretch leads to is searched when the whole stretch is met
    have hbelow : Visits leads (met' ∪ {x | x ∈ whole v}) ((next v).map head) (d.flatMap whole) := by
      refine ihd (ex.closed v hv) ?_ ?_
      · rintro n hn (rfl | hm)
        · exact .inr (hhead n hn)
        · exact .inl (hold n hn hm)
      · rintro n hn hm x hx (hx' | hx')
        · exact hfresh n hn (fun h => hm (.inr h)) x hx hx'
        · exact hm (.inl (ex.apart n v hn hv x hx hx'))
    rw [hwhole] at hnodup hthreaded hfreshv hbelow
    have hstretch := hthreaded.visits hnodup hfreshv hbelow (by
      intro x hx
      constructor
      · intro hmap
        obtain ⟨m, hm, rfl⟩ := List.mem_map.1 hmap
        have hmi := ex.closed v hv m hm
        obtain rfl := ex.apart m v hmi hv _ (hhead m hmi) (by
          rw [hwhole]
          exact List.mem_cons_of_mem _ hx)
        exact (List.nodup_cons.1 hnodup).1 hx
      · intro w hw hleads
        obtain ⟨m, hm, hwm⟩ := List.mem_flatMap.1 hw
        obtain rfl := hinner x hx m (hd m hm) w hwm hleads
        exact below.not_mem_met m hm (.inl rfl))
    have hrest : Visits leads (insert (head v) met' ∪ {x | x ∈ inner ++ d.flatMap whole})
        (vs.map head) (e.flatMap whole) := by
      refine ihe (fun w hw => hvs w (List.mem_cons_of_mem v hw)) ?_ ?_
      · rintro n hn ((rfl | hm) | hm)
        · exact .inl (.inl rfl)
        · exact .inl (.inr (hold n hn hm))
        · exact .inr (List.mem_append_right _ (List.mem_flatMap.2 ⟨n, hm, hhead n hn⟩))
      · intro n hn hm x hx hx'
        have hne : n ≠ v := fun h => hm (.inl (.inl h))
        have hout : x ∉ whole v := fun h => hne (ex.apart n v hn hv x hx h)
        rw [hwhole, List.mem_cons, not_or] at hout
        rcases hx' with (rfl | hx') | hx'
        · exact hout.1 rfl
        · exact hfresh n hn (fun h => hm (.inl (.inr h))) x hx hx'
        · rcases List.mem_append.1 hx' with hx' | hx'
          · exact hout.2 hx'
          · obtain ⟨m, hmd, hxm⟩ := List.mem_flatMap.1 hx'
            obtain rfl := ex.apart n m hn (hd m hmd) x hx hxm
            exact hm (.inr hmd)
    rw [List.flatMap_append, List.flatMap_cons, hwhole, List.cons_append]
    exact .new (hfreshv _ List.mem_cons_self) hstretch hrest

/-! ### Other ways to what is listed next -/

/-- Wherever `g` stands in a list, `n` stands right behind it. -/
def Precedes (g n : α) (xs : List α) : Prop :=
  ∀ front back, xs = front ++ g :: back → back.head? = some n

/-- What holds of a list holds of its end. -/
theorem Precedes.of_append {g n : α} {xs ys : List α} (h : Precedes g n (xs ++ ys)) :
    Precedes g n ys := by
  intro front back hs
  exact h (xs ++ front) back (by rw [hs, List.append_assoc])

/-- An element that leads to one other only can as well lead to the one that is listed right behind
it. -/
theorem Visits.redirect {next next' : α → List α} {vs d behind : List α} {g a n : α}
    (h : Visits next met vs d) (hg : next g = [a]) (hg' : next' g = [n])
    (hsame : ∀ x, x ≠ g → next' x = next x) (hbehind : ∀ x ∈ behind, x ∈ met)
    (hprec : Precedes g n (d ++ behind)) : Visits next' met vs d := by
  induction h generalizing behind with
  | nil => exact .nil
  | seen old _ ih => exact .seen old (ih hbehind hprec)
  | @new met v vs d e fresh below rest ihd ihe =>
    rw [List.append_assoc, List.cons_append] at hprec
    have hd : Precedes g n (d ++ behind) := by
      have hv : Precedes g n ([v] ++ (d ++ behind)) := hprec.of_append
      exact hv.of_append
    have hbelow := ihd (fun x hx => .inr (hbehind x hx)) hd
    have hmet : ∀ x ∈ v :: (d ++ behind), x ∈ insert v met ∪ {x | x ∈ d} := by
      intro x hx
      rcases List.mem_cons.1 hx with rfl | hx
      · exact .inl (.inl rfl)
      · rcases List.mem_append.1 hx with hx | hx
        · exact .inr hx
        · exact .inl (.inr (hbehind x hx))
    have hrest := ihe hmet hprec
    refine .new fresh ?_ hrest
    by_cases hv : v = g
    · subst hv
      have hhead := hprec e (d ++ behind) rfl
      rw [hg']
      rw [hg] at below hbelow
      cases below with
      | seen old none =>
        -- the element was met before, and so was all that is listed behind
        cases none
        rw [List.nil_append] at hhead
        exact .seen (.inr (hbehind n (List.mem_of_mem_head? hhead))) .nil
      | new _ _ none =>
        -- the element is met here, so it is the one listed next
        cases none
        rw [List.nil_append, List.cons_append, List.head?_cons] at hhead
        cases hhead
        exact hbelow
    · rw [hsame v hv]
      exact hbelow

/-! ### Elements left out -/

variable [DecidableEq α]

/-- An element, or `n` instead of `g`. -/
def instead (g n x : α) : α :=
  if x = g then n else x

/-- The one that is replaced is replaced. -/
@[simp] theorem instead_self (g n : α) : instead g n g = n :=
  if_pos rfl

/-- Others stay. -/
theorem instead_of_ne {g x : α} (n : α) (h : x ≠ g) : instead g n x = x :=
  if_neg h

/-- Leaving an element out of what is met and of what is listed. -/
theorem union_listed_diff (met : Set α) (d : List α) (g : α) :
    (met ∪ {x | x ∈ d}) \ {g} = met \ {g} ∪ {x | x ∈ d.filter (· != g)} := by
  ext x
  simp only [Set.mem_sdiff, Set.mem_union, Set.mem_ofPred_eq, Set.mem_singleton_iff,
    List.mem_filter, bne_iff_ne]
  tauto

/-- An element that leads to one other only can be left out when what leads to it leads to that other
one instead. -/
theorem Visits.bypass {next next' : α → List α} {vs d : List α} {g n : α}
    (h : Visits next met vs d) (hg : next g = [n]) (hne : n ≠ g)
    (hnext : ∀ x, x ≠ g → x ∈ d → next' x = (next x).map (instead g n))
    (hmet : g ∈ met → n ∈ met ∨ vs.head? = some n) :
    Visits next' (met \ {g}) (vs.map (instead g n)) (d.filter (· != g)) := by
  induction h with
  | nil => exact .nil
  | @seen met v vs d old _ ih =>
    have hmet' : g ∈ met → n ∈ met := by
      intro hm
      rcases hmet hm with h | h
      · exact h
      · cases h
        exact old
    refine .seen ?_ (ih hnext fun hm => .inl (hmet' hm))
    by_cases hv : v = g
    · subst hv
      rw [instead_self]
      exact ⟨hmet' old, hne⟩
    · rw [instead_of_ne n hv]
      exact ⟨old, hv⟩
  | @new met v vs d e fresh below rest ihd ihe =>
    have hbelow := ihd fun x hx hm => hnext x hx (by simp [hm])
    have hrest := ihe (fun x hx hm => hnext x hx (by simp [hm])) (by
      rintro ((rfl | hm) | hm)
      · -- the element is the one just visited
        rw [hg] at below
        exact .inl (below.covers n List.mem_cons_self)
      · rcases hmet hm with h | h
        · exact .inl (.inl (.inr h))
        · cases h
          exact .inl (.inl (.inl rfl))
      · exact .inl (below.closed g hm n (by rw [hg]; exact List.mem_cons_self)))
    rw [union_listed_diff] at hrest
    rw [List.map_cons, List.filter_append]
    by_cases hv : v = g
    · subst hv
      have hset : insert v met \ {v} = met \ {v} := Set.insert_sdiff_of_mem met rfl
      rw [hg, hset, List.map_singleton, instead_of_ne n hne] at hbelow
      rw [hset] at hrest
      rw [instead_self, List.filter_cons_of_neg (by simp)]
      exact (hbelow fun _ => .inr rfl).append hrest
    · have hset : insert v met \ {g} = insert v (met \ {g}) := Set.insert_sdiff_of_notMem met hv
      rw [hset] at hbelow hrest
      rw [instead_of_ne n hv, List.filter_cons_of_pos (by simpa using hv)]
      refine .new (fun hm => fresh hm.1) ?_ hrest
      rw [hnext v hv (by simp)]
      refine hbelow ?_
      rintro (rfl | hm)
      · exact absurd rfl hv
      · rcases hmet hm with h | h
        · exact .inl (.inr h)
        · cases h
          exact .inl (.inl rfl)

end

end Unscramble.Flow
