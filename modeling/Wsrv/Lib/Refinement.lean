import Mathlib

/-!
# Runs and simulation

Labelled transition systems as step relations: their runs, invariants of runs
(`Run.invariant`), and forward simulation.  A simulation of single steps lifts
to runs with the same labels (`Simulates.run`); the labels may be restricted to
those that meet an assumption.
-/

namespace Refinement

variable {σ τ ι : Type*}

/-- The runs of `step` with the labels they show. -/
inductive Run (step : σ → ι → σ → Prop) : σ → List ι → σ → Prop
  | nil (s : σ) : Run step s [] s
  | cons {s s' s'' : σ} {a : ι} {as : List ι} :
      step s a s' → Run step s' as s'' → Run step s (a :: as) s''

variable {step : σ → ι → σ → Prop} {step' : τ → ι → τ → Prop}

theorem Run.append {s s' s'' : σ} {as bs : List ι} (h : Run step s as s')
    (h' : Run step s' bs s'') : Run step s (as ++ bs) s'' := by
  induction h with
  | nil => exact h'
  | cons hstep _ ih => exact .cons hstep (ih h')

/-- **Invariants**: what every step keeps holds at the end of every run. -/
theorem Run.invariant {inv : σ → Prop} (hstep : ∀ s a s', inv s → step s a s' → inv s')
    {s s' : σ} {as : List ι} (h : Run step s as s') (hinv : inv s) : inv s' := by
  induction h with
  | nil => exact hinv
  | cons hs _ ih => exact ih (hstep _ _ _ hinv hs)

/-- The runs of a function are its folds. -/
theorem Run.eq_foldl {f : σ → ι → σ} {s s' : σ} {as : List ι}
    (h : Run (fun s a s' => s' = f s a) s as s') : s' = as.foldl f s := by
  induction h with
  | nil => rfl
  | cons hs _ ih =>
    subst hs
    exact ih

/-- Every step of the first system from related states, with a label that meets the assumption,
is a step of the second with the same label, and the states stay related. -/
def Simulates (step : σ → ι → σ → Prop) (step' : τ → ι → τ → Prop) (assume : ι → Prop)
    (R : σ → τ → Prop) : Prop :=
  ∀ s t a s', R s t → assume a → step s a s' → ∃ t', step' t a t' ∧ R s' t'

/-- **Forward simulation** of whole runs. -/
theorem Simulates.run {assume : ι → Prop} {R : σ → τ → Prop}
    (hsim : Simulates step step' assume R) {s s' : σ} {t : τ} {as : List ι}
    (h : Run step s as s') (hR : R s t) (has : ∀ a ∈ as, assume a) :
    ∃ t', Run step' t as t' ∧ R s' t' := by
  induction h generalizing t with
  | nil => exact ⟨t, .nil t, hR⟩
  | cons hstep _ ih =>
    obtain ⟨t₁, hs, hR₁⟩ := hsim _ _ _ _ hR (has _ List.mem_cons_self) hstep
    obtain ⟨t₂, hrun, hR₂⟩ := ih hR₁ fun a ha => has a (List.mem_cons_of_mem _ ha)
    exact ⟨t₂, .cons hs hrun, hR₂⟩

end Refinement
