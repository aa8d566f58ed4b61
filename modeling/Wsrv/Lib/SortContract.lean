import Mathlib

/-!
# Sorting by contract

A sort by a comparator that promises no more than the contract of the standard
library: the elements are rearranged, and none stands behind one it precedes.
The order of equivalent elements is open, so any of them may come first
(`exists_sorts_first`).  The contract holds only for comparators that are strict
weak orders on the elements.
-/

namespace SortContract

variable {α : Type} {c : α → α → Prop} {l : List α}

/-- The comparator is a strict weak order on the elements of the list: asymmetric, and negatively
transitive. -/
structure StrictWeakOn (c : α → α → Prop) (l : List α) : Prop where
  asymm : ∀ a ∈ l, ∀ b ∈ l, c a b → ¬ c b a
  negTrans : ∀ a ∈ l, ∀ b ∈ l, ∀ d ∈ l, ¬ c a b → ¬ c b d → ¬ c a d

/-- What a sort leaves behind. -/
def Sorts (c : α → α → Prop) (l out : List α) : Prop :=
  out.Perm l ∧ out.Pairwise fun a b => ¬ c b a

theorem StrictWeakOn.subset {l' : List α} (h : StrictWeakOn c l) (hsub : l' ⊆ l) :
    StrictWeakOn c l' where
  asymm a ha b hb := h.asymm a (hsub ha) b (hsub hb)
  negTrans a ha b hb d hd := h.negTrans a (hsub ha) b (hsub hb) d (hsub hd)

/-- An element is inserted into a sorted list behind those that precede it. -/
theorem exists_insert (e : α) (h : StrictWeakOn c (e :: l)) (hl : l.Pairwise fun a b => ¬ c b a) :
    ∃ pre post, l = pre ++ post ∧ (∀ b ∈ pre, c b e) ∧
      (pre ++ e :: post).Pairwise fun a b => ¬ c b a := by
  classical
  induction l with
  | nil => exact ⟨[], [], rfl, by simp, by simp⟩
  | cons b l ih =>
    rw [List.pairwise_cons] at hl
    by_cases hbe : c b e
    · obtain ⟨pre, post, rfl, hpre, hsorted⟩ := ih (h.subset (by simp)) hl.2
      refine ⟨b :: pre, post, rfl, ?_, ?_⟩
      · simpa [hbe] using hpre
      · rw [List.cons_append, List.pairwise_cons]
        refine ⟨fun a ha => ?_, hsorted⟩
        rcases List.mem_append.mp ha with ha | ha
        · exact hl.1 a (List.mem_append_left _ ha)
        · rcases List.mem_cons.mp ha with rfl | ha
          · exact h.asymm b (by simp) a (by simp) hbe
          · exact hl.1 a (List.mem_append_right _ ha)
    · refine ⟨[], b :: l, rfl, by simp, ?_⟩
      rw [List.nil_append, List.pairwise_cons, List.pairwise_cons]
      refine ⟨fun a ha => ?_, hl⟩
      rcases List.mem_cons.mp ha with rfl | hal
      · exact hbe
      · exact h.negTrans a (by simp [hal]) b (by simp) e (by simp) (hl.1 a hal) hbe

/-- **The contract can be met.** -/
theorem exists_sorts (h : StrictWeakOn c l) : ∃ out, Sorts c l out := by
  induction l with
  | nil => exact ⟨[], List.Perm.refl _, by simp⟩
  | cons e l ih =>
    obtain ⟨out, hperm, hsorted⟩ := ih (h.subset (List.subset_cons_self e l))
    obtain ⟨pre, post, rfl, -, hins⟩ :=
      exists_insert e (h.subset (List.cons_subset_cons e hperm.subset)) hsorted
    exact ⟨pre ++ e :: post, List.perm_middle.trans (hperm.cons e), hins⟩

/-- **Any element may come first** among those that are equivalent to it: it stands behind none
but those that precede it. -/
theorem exists_sorts_first (h : StrictWeakOn c l) {e : α} (he : e ∈ l) :
    ∃ pre post, Sorts c l (pre ++ e :: post) ∧ ∀ b ∈ pre, c b e := by
  obtain ⟨l₁, l₂, rfl⟩ := List.append_of_mem he
  have hmiddle : (l₁ ++ e :: l₂).Perm (e :: (l₁ ++ l₂)) := List.perm_middle
  have hrest := h.subset hmiddle.symm.subset
  obtain ⟨out, hperm, hsorted⟩ := exists_sorts (hrest.subset (List.subset_cons_self e _))
  obtain ⟨pre, post, rfl, hpre, hins⟩ :=
    exists_insert e (hrest.subset (List.cons_subset_cons e hperm.subset)) hsorted
  exact ⟨pre, post, ⟨List.perm_middle.trans ((hperm.cons e).trans hmiddle.symm), hins⟩, hpre⟩

end SortContract
