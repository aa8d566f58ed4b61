import Mathlib

/-!
# Joining lists over a separator

`sepJoin s a b` puts exactly one separator between two nonempty lists, whether
or not the left one ends with it and the right one starts with it; the empty
list is its unit.  `sepJoin_assoc`: the operation is associative.  Joining in
front of `b` changes nothing only in two cases (`sepJoin_eq_right_iff`), and a
fold is empty or a lone separator only when all its parts are
(`foldl_sepJoin_eq_nil`, `foldl_sepJoin_eq_sep`).
-/

namespace SepJoin

variable {α : Type} [DecidableEq α]

def dropEnd (s : α) (a : List α) : List α := if a.getLast? = some s then a.dropLast else a

def dropStart (s : α) (a : List α) : List α := if a.head? = some s then a.tail else a

def sepJoin (s : α) (a b : List α) : List α :=
  if a = [] then b
  else if b = [] then a
  else dropEnd s a ++ s :: dropStart s b

variable (s : α)

@[simp] theorem sepJoin_nil_left (b : List α) : sepJoin s [] b = b := by simp [sepJoin]

@[simp] theorem sepJoin_nil_right (a : List α) : sepJoin s a [] = a := by
  unfold sepJoin
  split
  · simp_all
  · rfl

theorem sepJoin_of_ne {a b : List α} (ha : a ≠ []) (hb : b ≠ []) :
    sepJoin s a b = dropEnd s a ++ s :: dropStart s b := by
  simp [sepJoin, ha, hb]

theorem sepJoin_ne_nil {a b : List α} (hb : b ≠ []) : sepJoin s a b ≠ [] := by
  by_cases ha : a = []
  · simpa [ha] using hb
  · simp [sepJoin_of_ne s ha hb]

theorem sepJoin_eq_nil {a b : List α} : sepJoin s a b = [] ↔ a = [] ∧ b = [] := by
  constructor
  · intro h
    have hb : b = [] := by
      by_contra hb
      exact sepJoin_ne_nil s hb h
    subst hb
    exact ⟨by simpa using h, rfl⟩
  · rintro ⟨rfl, rfl⟩
    simp

/-! ## Associativity -/

theorem dropEnd_append {a b : List α} (hb : b ≠ []) : dropEnd s (a ++ b) = a ++ dropEnd s b := by
  unfold dropEnd
  rw [List.getLast?_append_of_ne_nil _ hb]
  split
  · rw [List.dropLast_append_of_ne_nil hb]
  · rfl

theorem dropStart_append {a b : List α} (ha : a ≠ []) :
    dropStart s (a ++ b) = dropStart s a ++ b := by
  unfold dropStart
  rw [List.head?_append_of_ne_nil _ ha]
  split
  · rw [List.tail_append_of_ne_nil ha]
  · rfl

theorem dropEnd_concat (a : List α) : dropEnd s (a ++ [s]) = a := by
  simp [dropEnd]

theorem dropStart_cons (a : List α) : dropStart s (s :: a) = a := by
  simp [dropStart]

/-- Both ends can be stripped in either order, unless the list is one lone separator. -/
theorem dropStart_dropEnd {b : List α} (hb : b ≠ [s]) :
    dropStart s (dropEnd s b) = dropEnd s (dropStart s b) := by
  cases b with
  | nil => simp [dropStart, dropEnd]
  | cons x b =>
    by_cases hbe : b = []
    · subst hbe
      have hx : x ≠ s := fun h => hb (by rw [h])
      simp [dropStart, dropEnd, hx]
    · rw [show x :: b = [x] ++ b from rfl, dropEnd_append s hbe]
      by_cases hx : x = s
      · subst hx
        simp [dropStart]
      · have hne : dropStart s ([x] ++ dropEnd s b) = [x] ++ dropEnd s b := by
          simp [dropStart, hx]
        have hne' : dropStart s ([x] ++ b) = [x] ++ b := by simp [dropStart, hx]
        rw [hne, hne', dropEnd_append s hbe]

theorem dropEnd_eq_nil {b : List α} : dropEnd s b = [] ↔ b = [] ∨ b = [s] := by
  unfold dropEnd
  split
  · rename_i h
    cases b with
    | nil => simp
    | cons x b =>
      cases b with
      | nil => simpa using h
      | cons y b => simp
  · rename_i h
    constructor
    · exact Or.inl
    · rintro (rfl | rfl)
      · rfl
      · simp at h

theorem dropStart_eq_nil {b : List α} : dropStart s b = [] ↔ b = [] ∨ b = [s] := by
  cases b with
  | nil => simp [dropStart]
  | cons x b =>
    by_cases hx : x = s
    · subst hx; simp [dropStart]
    · simp [dropStart, hx]

/-- **One separator between three parts**, however they are grouped. -/
theorem sepJoin_assoc (a b c : List α) :
    sepJoin s (sepJoin s a b) c = sepJoin s a (sepJoin s b c) := by
  by_cases ha : a = []
  · simp [ha]
  by_cases hb : b = []
  · simp [hb]
  by_cases hc : c = []
  · simp [hc]
  rw [sepJoin_of_ne s (sepJoin_ne_nil s hb) hc, sepJoin_of_ne s ha (sepJoin_ne_nil s hc),
    sepJoin_of_ne s ha hb, sepJoin_of_ne s hb hc]
  by_cases hs : b = [s]
  · subst hs
    have hd : dropStart s [s] = [] := by simp [dropStart]
    have he : dropEnd s [s] = [] := by simp [dropEnd]
    rw [hd, he, dropEnd_concat, List.nil_append, dropStart_cons]
  · have hd : dropStart s b ≠ [] := fun h => by
      rcases (dropStart_eq_nil s).mp h with h | h
      · exact hb h
      · exact hs h
    have he : dropEnd s b ≠ [] := fun h => by
      rcases (dropEnd_eq_nil s).mp h with h | h
      · exact hb h
      · exact hs h
    rw [show s :: dropStart s b = [s] ++ dropStart s b from rfl, ← List.append_assoc,
      dropEnd_append s hd, dropStart_append s he, dropStart_dropEnd s hs]
    simp

/-- What a fold starts from stands in front of the rest. -/
theorem foldl_sepJoin (l : List (List α)) (a : List α) :
    l.foldl (sepJoin s) a = sepJoin s a (l.foldl (sepJoin s) []) := by
  induction l generalizing a with
  | nil => exact (sepJoin_nil_right s a).symm
  | cons p l ih => rw [List.foldl_cons, List.foldl_cons, ih (sepJoin s a p), ih (sepJoin s [] p),
      sepJoin_nil_left, sepJoin_assoc]

/-! ## When a part in front is invisible -/

theorem sepJoin_eq_right_iff {a b : List α} :
    sepJoin s a b = b ↔ a = [] ∨ (a = [s] ∧ b.head? = some s) := by
  constructor
  · intro h
    by_cases ha : a = []
    · exact Or.inl ha
    right
    have hb : b ≠ [] := by
      rintro rfl
      simp [ha] at h
    rw [sepJoin_of_ne s ha hb] at h
    have hlen := congrArg List.length h
    by_cases hh : b.head? = some s
    · have hl : (dropStart s b).length = b.length - 1 := by simp [dropStart, hh]
      have hpos : 0 < b.length := List.length_pos_iff.mpr hb
      simp only [List.length_append, List.length_cons, hl] at hlen
      have hnil : dropEnd s a = [] := List.length_eq_zero_iff.mp (by omega)
      rcases (dropEnd_eq_nil s).mp hnil with h' | h'
      · exact absurd h' ha
      · exact ⟨h', hh⟩
    · have hl : dropStart s b = b := by simp [dropStart, hh]
      rw [hl] at hlen
      simp only [List.length_append, List.length_cons] at hlen
      omega
  · rintro (rfl | ⟨rfl, hh⟩)
    · simp
    · cases b with
      | nil => simp at hh
      | cons x b =>
        simp only [List.head?_cons, Option.some.injEq] at hh
        subst hh
        simp [sepJoin, dropEnd, dropStart]

theorem sepJoin_eq_sep {a b : List α} :
    sepJoin s a b = [s] ↔ (a = [] ∨ a = [s]) ∧ (b = [] ∨ b = [s]) ∧ ¬ (a = [] ∧ b = []) := by
  by_cases ha : a = []
  · subst ha
    by_cases hb : b = []
    · subst hb; simp
    · simp [hb]
  by_cases hb : b = []
  · subst hb
    simp [ha]
  rw [sepJoin_of_ne s ha hb]
  simp only [ha, hb, false_or, and_self, not_false_eq_true, and_true]
  constructor
  · intro h
    have hlen := congrArg List.length h
    simp only [List.length_append, List.length_cons, List.length_nil] at hlen
    have hd : dropEnd s a = [] := List.length_eq_zero_iff.mp (by omega)
    have he : dropStart s b = [] := List.length_eq_zero_iff.mp (by omega)
    exact ⟨((dropEnd_eq_nil s).mp hd).resolve_left ha, ((dropStart_eq_nil s).mp he).resolve_left hb⟩
  · rintro ⟨rfl, rfl⟩
    simp [dropEnd, dropStart]

theorem foldl_sepJoin_eq_nil (l : List (List α)) (a : List α) :
    l.foldl (sepJoin s) a = [] ↔ a = [] ∧ ∀ p ∈ l, p = [] := by
  induction l generalizing a with
  | nil => simp
  | cons p l ih =>
    rw [List.foldl_cons, ih, sepJoin_eq_nil, List.forall_mem_cons, and_assoc]

theorem foldl_sepJoin_eq_sep (l : List (List α)) (a : List α) :
    l.foldl (sepJoin s) a = [s] ↔
      (∀ p ∈ a :: l, p = [] ∨ p = [s]) ∧ ¬ ∀ p ∈ a :: l, p = [] := by
  induction l generalizing a with
  | nil => by_cases ha : a = [] <;> simp [ha]
  | cons p l ih =>
    rw [List.foldl_cons, ih]
    simp only [List.forall_mem_cons, sepJoin_eq_nil, sepJoin_eq_sep]
    tauto

end SepJoin
