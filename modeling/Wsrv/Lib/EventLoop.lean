import Mathlib.Logic.Function.Basic

/-!
# Event loops

A loop runs the callbacks of its tasks one at a time, until it is stopped.  A
task has one loop, its home.  Two tasks with the same home never run at the same
time (`Runs.alone`).
-/

namespace EventLoop

open Function

variable {Loop Task : Type}

/-- What each loop runs, and the loops that begin nothing more. -/
structure Loops (Loop Task : Type) where
  running : Loop → Option Task
  stopped : Loop → Bool

/-- The task runs on its loop. -/
def Runs (home : Task → Loop) (s : Loops Loop Task) (t : Task) : Prop := s.running (home t) = some t

theorem Runs.alone {home : Task → Loop} {s : Loops Loop Task} {t u : Task} (ht : Runs home s t)
    (hu : Runs home s u) (h : home t = home u) : t = u := by
  unfold Runs at ht hu
  rw [h, hu] at ht
  exact (Option.some.inj ht).symm

namespace Loops

def idle : Loops Loop Task := ⟨fun _ => none, fun _ => false⟩

variable [DecidableEq Loop]

/-- A task begins where the loop is free and not stopped. -/
def begin (s : Loops Loop Task) (l : Loop) (t : Task) : Option (Loops Loop Task) :=
  if s.stopped l then none
  else
    match s.running l with
    | some _ => none
    | none => some { s with running := update s.running l (some t) }

def finish (s : Loops Loop Task) (l : Loop) : Loops Loop Task :=
  { s with running := update s.running l none }

def stop (s : Loops Loop Task) (l : Loop) : Loops Loop Task :=
  { s with stopped := update s.stopped l true }

variable {home : Task → Loop} {s s' : Loops Loop Task} {t u : Task}

omit [DecidableEq Loop] in
theorem not_runs_idle : ¬ Runs home (idle : Loops Loop Task) t := fun h => Option.some_ne_none t h.symm

theorem begin_eq {l : Loop} (h : s.begin l t = some s') :
    s.stopped l = false ∧ s.running l = none ∧ s' = { s with running := update s.running l (some t) } := by
  unfold begin at h
  split at h
  · cases h
  · rename_i hstopped
    split at h
    · cases h
    · rename_i hfree
      exact ⟨by simpa using hstopped, hfree, (Option.some.inj h).symm⟩

/-- What runs on a loop that was free. -/
theorem runs_begin (h : s.begin (home t) t = some s') : Runs home s' u ↔ u = t ∨ Runs home s u := by
  obtain ⟨-, hfree, rfl⟩ := begin_eq h
  unfold Runs
  by_cases hu : home u = home t
  · simp only [hu, update_self, hfree, Option.some.injEq, reduceCtorEq, or_false]
    exact eq_comm
  · have hne : u ≠ t := by
      rintro rfl
      exact hu rfl
    simp only [update_of_ne hu, hne, false_or]

theorem runs_finish (ht : Runs home s t) : Runs home (s.finish (home t)) u ↔ Runs home s u ∧ u ≠ t := by
  unfold Runs at ht ⊢
  by_cases hu : home u = home t
  · simp only [finish, hu, update_self, ht, Option.some.injEq, reduceCtorEq, false_iff, not_and, not_not]
    exact Eq.symm
  · have hne : u ≠ t := by
      rintro rfl
      exact hu rfl
    simp only [finish, update_of_ne hu, ne_eq, hne, not_false_eq_true, and_true]

end Loops

end EventLoop
