import Mathlib

/-!
# Call traces of nested frames

Frames numbered by natural numbers call each other in a nested fashion: a trace
records every `enter` and `leave`, every `call` a running frame makes, and every
run of the `target` the frames stand in front of.  `active` is the stack of the
frames that are running after a trace, innermost first.

`Repeats n t` says that some frame other than the last of `n` has called twice.
The two facts a run maintains are `Sound` (nobody repeated a call, so the
running frames are exactly those entered so far) and `Skipped` (somebody did,
so some entered frame is no longer running); `Sound.target` and
`Skipped.target` read off what that means when the target runs.
-/

namespace CallTrace

inductive Event
  | enter (i : Nat)
  | leave (i : Nat)
  | call (i : Nat)
  | target
  deriving DecidableEq, Repr

def step : List Nat → Event → List Nat
  | st, .enter i => i :: st
  | st, .leave _ => st.tail
  | st, .call _ => st
  | st, .target => st

/-- The running frames after a trace, innermost first. -/
def active (t : List Event) : List Nat := t.foldl step []

/-- All of `n` frames, innermost first. -/
def full (n : Nat) : List Nat := (List.range n).reverse

/-- A frame before the last of `n` has called at least twice. -/
def Repeats (n : Nat) (t : List Event) : Prop := ∃ i, i + 1 < n ∧ 2 ≤ t.count (.call i)

/-- At every run of the target the property `p` holds of the trace before it. -/
def AtTarget (p : List Event → Prop) (t : List Event) : Prop :=
  ∀ pre post, t = pre ++ .target :: post → p pre

theorem active_append (t u : List Event) : active (t ++ u) = u.foldl step (active t) := by
  simp [active, List.foldl_append]

@[simp] theorem active_enter (t : List Event) (i : Nat) :
    active (t ++ [.enter i]) = i :: active t := by
  simp [active_append, step]

@[simp] theorem active_leave (t : List Event) (i : Nat) :
    active (t ++ [.leave i]) = (active t).tail := by
  simp [active_append, step]

@[simp] theorem active_call (t : List Event) (i : Nat) :
    active (t ++ [.call i]) = active t := by
  simp [active_append, step]

@[simp] theorem active_target (t : List Event) : active (t ++ [.target]) = active t := by
  simp [active_append, step]

theorem full_succ (n : Nat) : full (n + 1) = n :: full n := by
  simp [full, List.range_succ]

theorem mem_full {n i : Nat} : i ∈ full n ↔ i < n := by
  simp [full]

/-! ## Repeated calls -/

theorem Repeats.mono {n : Nat} {t : List Event} (h : Repeats n t) (u : List Event) :
    Repeats n (t ++ u) := by
  obtain ⟨i, hi, hc⟩ := h
  exact ⟨i, hi, by rw [List.count_append]; omega⟩

theorem count_call_other {t : List Event} {e : Event} (he : ∀ i, e ≠ .call i) (j : Nat) :
    (t ++ [e]).count (.call j) = t.count (.call j) := by
  rw [List.count_append, List.count_singleton]
  simp [he j]

theorem repeats_of_other {n : Nat} {t : List Event} {e : Event} (he : ∀ i, e ≠ .call i)
    (h : Repeats n (t ++ [e])) : Repeats n t := by
  obtain ⟨i, hi, hc⟩ := h
  exact ⟨i, hi, by rwa [count_call_other he] at hc⟩

theorem repeats_call {n i : Nat} {t : List Event} (h : Repeats n (t ++ [.call i])) :
    Repeats n t ∨ (i + 1 < n ∧ 1 ≤ t.count (.call i)) := by
  obtain ⟨j, hj, hc⟩ := h
  rw [List.count_append, List.count_singleton] at hc
  by_cases hij : i = j
  · subst hij
    right
    simp only [beq_self_eq_true, ↓reduceIte] at hc
    exact ⟨hj, by omega⟩
  · left
    have hne : (Event.call i == Event.call j) = false := by simpa using hij
    rw [hne] at hc
    exact ⟨j, hj, by simpa using hc⟩

theorem not_repeats_nil (n : Nat) : ¬ Repeats n [] := by
  rintro ⟨i, _, hc⟩
  simp at hc

/-! ## What a run maintains

`next` is the number of the frame that will be entered next. -/

/-- The running frames are exactly the ones entered so far. -/
def Sound (t : List Event) (next : Nat) : Prop := active t = full next

/-- Some frame has been entered and is no longer running. -/
def Skipped (n : Nat) (t : List Event) (next : Nat) : Prop :=
  ∃ j, j < next ∧ j < n ∧ j ∉ active t

theorem Sound.target {n : Nat} {t : List Event} (h : Sound t n) : active t = full n := h

theorem Skipped.target {n next : Nat} {t : List Event} (h : Skipped n t next) :
    active t ≠ full n := by
  obtain ⟨j, _, hj, hnot⟩ := h
  intro e
  exact hnot (by rw [e]; exact mem_full.mpr hj)

theorem Skipped.mono {n next next' : Nat} {t t' : List Event} (h : Skipped n t next)
    (hle : next ≤ next') (ha : active t' = active t) : Skipped n t' next' := by
  obtain ⟨j, hj, hn, hnot⟩ := h
  exact ⟨j, by omega, hn, by rwa [ha]⟩

/-! ## Runs of the target -/

theorem atTarget_nil (p : List Event → Prop) : AtTarget p [] := by
  intro pre post h
  simp at h

theorem atTarget_append {p : List Event → Prop} {t u : List Event} (ht : AtTarget p t)
    (hu : AtTarget (fun pre => p (t ++ pre)) u) : AtTarget p (t ++ u) := by
  intro pre post h
  rcases List.append_eq_append_iff.mp h with ⟨m, rfl, hm⟩ | ⟨m, hm, hpost⟩
  · exact hu m post hm
  · cases m with
    | nil =>
      simp only [List.append_nil] at hm
      subst hm
      have := hu [] post (by simpa using hpost.symm)
      simpa using this
    | cons e m =>
      simp only [List.cons_append, List.cons.injEq] at hpost
      obtain ⟨rfl, rfl⟩ := hpost
      exact ht pre m hm

theorem atTarget_other {p : List Event → Prop} {e : Event} (he : e ≠ .target) :
    AtTarget p [e] := by
  intro pre post h
  cases pre with
  | nil => simp at h; exact absurd h.1 he
  | cons e' pre => simp at h

theorem atTarget_singleton {p : List Event → Prop} (h : p []) : AtTarget p [.target] := by
  intro pre post hpre
  cases pre with
  | nil => exact h
  | cons e pre => simp at hpre

theorem AtTarget.congr {p q : List Event → Prop} {t : List Event}
    (h : AtTarget (fun pre => p pre ↔ q pre) t) : AtTarget p t ↔ AtTarget q t := by
  constructor
  · intro hp pre post e
    exact (h pre post e).mp (hp pre post e)
  · intro hq pre post e
    exact (h pre post e).mpr (hq pre post e)

end CallTrace
