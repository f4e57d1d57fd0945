import Unscramble.Proofs.Naming.Arrival
import Unscramble.Tidy.StaticFields

/-! # The holder

The class that static members are gathered in is added to a codebase if needed, and members become
public there.

Main statements: `Access.contains_privateFlag_publish`, `ensureHolder_cases`, `sound_ensureHolder`,
`extends_ensureHolder`. -/

namespace Unscramble

/-- What is public is not private. -/
theorem Access.contains_privateFlag_publish (a : Access) :
    a.publish.contains .privateFlag = false := by
  have hbits : a.publish.bits &&& privateFlag.bits = 0 := by
    rw [← UInt16.toBitVec_inj]
    change ((a.bits.toBitVec &&& ~~~7#16) ||| 1#16) &&& 2#16 = 0#16
    rw [BitVec.and_comm, BitVec.and_or_distrib_left, BitVec.and_comm a.bits.toBitVec,
      ← BitVec.and_assoc]
    simp
  rw [contains, hbits]
  rfl

namespace Tidy

open Naming

/-- What a set holds after a pass over a list that adds to it. -/
theorem mem_foldl_insert_iff {α β : Type} [BEq β] [Hashable β] [LawfulBEq β] [LawfulHashable β]
    (g : α → β) (as : List α) (s : Std.HashSet β) (b : β) :
    b ∈ as.foldl (fun s a => s.insert (g a)) s ↔ b ∈ s ∨ ∃ a ∈ as, g a = b := by
  induction as generalizing s with
  | nil => simp
  | cons a as ih =>
    rw [List.foldl_cons, ih, Std.HashSet.mem_insert, beq_iff_eq]
    simp only [List.mem_cons, exists_eq_or_imp]
    tauto

variable {holder : String} {p : Codebase}

/-- The holder is there, or it is added behind the other classes. -/
theorem ensureHolder_cases (holder : String) (p : Codebase) :
    (holder ∈ p.classes.map (·.name) ∧ ensureHolder holder p = p) ∨
      (holder ∉ p.classes.map (·.name) ∧
        ensureHolder holder p = { p with classes := p.classes ++ [emptyHolder holder] }) := by
  have hsome : (p.class? holder).isSome = true ↔ holder ∈ p.classes.map (·.name) := by
    simp [Codebase.class?]
  rw [ensureHolder]
  split
  · next h => exact .inl ⟨hsome.1 h, rfl⟩
  · next h => exact .inr ⟨fun hmem => h (hsome.2 hmem), rfl⟩

/-- The class for static members comes without fields. -/
theorem fields_ensureHolder (holder : String) (p : Codebase) :
    (ensureHolder holder p).fields = p.fields := by
  rcases ensureHolder_cases holder p with ⟨-, heq⟩ | ⟨-, heq⟩
  · rw [heq]
  · rw [heq, Codebase.fields, List.flatMap_append]
    exact List.append_nil _

/-- The class for static members comes without methods. -/
theorem methods_ensureHolder (holder : String) (p : Codebase) :
    (ensureHolder holder p).methods = p.methods := by
  rcases ensureHolder_cases holder p with ⟨-, heq⟩ | ⟨-, heq⟩
  · rw [heq]
  · rw [heq, Codebase.methods, List.flatMap_append]
    exact List.append_nil _

/-- The class for static members is there. -/
theorem holder_mem_ensureHolder (holder : String) (p : Codebase) :
    holder ∈ (ensureHolder holder p).classes.map (·.name) := by
  rcases ensureHolder_cases holder p with ⟨hmem, heq⟩ | ⟨-, heq⟩
  · rwa [heq]
  · rw [heq, List.map_append]
    exact List.mem_append_right _ List.mem_cons_self

/-- The other classes are still there. -/
theorem mem_classes_ensureHolder {c : Class} (hc : c ∈ p.classes) :
    c ∈ (ensureHolder holder p).classes := by
  rcases ensureHolder_cases holder p with ⟨-, heq⟩ | ⟨-, heq⟩ <;> rw [heq]
  · exact hc
  · exact List.mem_append_left _ hc

/-- The names of the other classes are still there. -/
theorem name_mem_ensureHolder {c : Class} (hc : c ∈ p.classes) :
    c.name ∈ (ensureHolder holder p).classes.map (·.name) :=
  List.mem_map_of_mem (mem_classes_ensureHolder hc)

/-- A codebase stays sound with the holder. -/
theorem sound_ensureHolder (hp : p.Sound) (holder : String) : (ensureHolder holder p).Sound := by
  rcases ensureHolder_cases holder p with ⟨-, heq⟩ | ⟨hnew, heq⟩
  · rwa [heq]
  · have hcases : ∀ c ∈ p.classes ++ [emptyHolder holder], c ∈ p.classes ∨ c = emptyHolder holder :=
      fun c hc => by simpa using hc
    rw [heq]
    refine ⟨?_, ?_, ?_⟩
    · rw [List.map_append]
      exact hp.distinct.append (List.nodup_singleton _) (List.disjoint_singleton.2 hnew)
    · intro c hc m hm
      rcases hcases c hc with hc | rfl
      · exact hp.owners c hc m hm
      · cases hm
    · intro c hc
      rcases hcases c hc with hc | rfl
      · exact hp.kinds c hc
      · exact ⟨fun f hf => (List.not_mem_nil hf).elim, fun m hm => (List.not_mem_nil hm).elim⟩

/-- If no class inherits from a holder that is added, the others keep their ancestors with it. -/
theorem extends_ensureHolder (hp : p.Sound)
    (hheirs : holder ∉ p.classes.map (·.name) → ∀ c ∈ p.classes, holder ∉ c.supertypes) :
    Hierarchy.Extends p (ensureHolder holder p) where
  distinct := (sound_ensureHolder hp holder).distinct
  classes i c hi := by
    refine ⟨c, ?_, rfl, rfl⟩
    rcases ensureHolder_cases holder p with ⟨-, heq⟩ | ⟨-, heq⟩
    · rwa [heq]
    · rw [heq]
      exact (List.getElem?_append_left (List.getElem?_eq_some_iff.1 hi).1).trans hi
  others i c' hi hlength := by
    rcases ensureHolder_cases holder p with ⟨-, heq⟩ | ⟨hnew, heq⟩
    · rw [heq] at hi
      exact absurd (List.getElem?_eq_some_iff.1 hi).1 (by omega)
    · rw [heq] at hi
      have hc' : c' = emptyHolder holder := by
        rw [List.getElem?_append_right hlength] at hi
        simpa using List.mem_of_getElem? hi
      rw [hc']
      exact hheirs hnew

/-- Publishing the fields of the holder opens those that stand there. -/
theorem opened_publishFields (holder : String) {q : Codebase} {home : Member → String}
    (hdistinct : (q.classes.map (·.name)).Nodup) (h : Part.ofFields.Settled home p q) :
    Part.ofFields.Opened (fun m => home m = holder) q (q.modifyClass holder publishFields) := by
  rw [Part.Opened, Part.classes_modifyClass hdistinct, List.forall₂_map_right_iff,
    List.forall₂_same]
  intro c hc
  split
  · next hname =>
    refine ⟨rfl, rfl, ?_⟩
    change List.Forall₂ _ c.fields (c.fields.map fun f => { f with access := f.access.publish })
    rw [List.forall₂_map_right_iff, List.forall₂_same]
    intro f hf
    have hpublic : Part.ofFields.isPrivate { f with access := f.access.publish } = false :=
      Access.contains_privateFlag_publish f.access
    refine ⟨⟨f.access.publish, rfl⟩, fun hprivate => ?_, .inr ?_⟩
    · rw [hpublic] at hprivate
      cases hprivate
    · exact ((h.mem_iff c hc f).1 hf).2.trans hname
  · exact ⟨rfl, rfl, List.forall₂_same.2 fun f _ => Part.Widens.refl f⟩

end Tidy

end Unscramble
