import Mathlib.Data.List.Basic

/-!
# Brackets with names

A word of opening and closing brackets is read with a stack of the names that
are open: a closing bracket takes the top off, which must have its name.  What
is read from the empty stack to the empty stack are the balanced words
(`run_eq_nil_iff`).
-/

inductive Delim (α : Type)
  | opening (a : α)
  | closing (a : α)
  deriving DecidableEq

namespace Delim

variable {α : Type}

/-- Every bracket has its partner, and what stands between the two is balanced. -/
inductive Balanced : List (Delim α) → Prop
  | nil : Balanced []
  | wrap (a : α) {l l' : List (Delim α)} : Balanced l → Balanced l' →
      Balanced (opening a :: (l ++ closing a :: l'))

/-- A word that closes the names of a stack, with balanced words in front of each of them. -/
inductive Closes : List α → List (Delim α) → Prop
  | nil {l : List (Delim α)} : Balanced l → Closes [] l
  | cons {a : α} {st : List α} {l l' : List (Delim α)} : Balanced l → Closes st l' →
      Closes (a :: st) (l ++ closing a :: l')

/-- A pair of brackets may be put in front. -/
theorem Closes.wrap {a : α} {st : List α} {l l' : List (Delim α)} (hl : Balanced l)
    (h : Closes st l') : Closes st (opening a :: (l ++ closing a :: l')) := by
  cases h with
  | nil h => exact .nil (.wrap a hl h)
  | @cons b st m m' hm hm' =>
    have hmove : opening a :: (l ++ closing a :: (m ++ closing b :: m')) =
        opening a :: (l ++ closing a :: m) ++ closing b :: m' := by simp
    rw [hmove]
    exact .cons (.wrap a hl hm) hm'

variable [DecidableEq α]

/-! ## Reading with a stack -/

def step (st : List α) : Delim α → Option (List α)
  | opening a => some (a :: st)
  | closing a =>
    match st with
    | [] => none
    | b :: st => if a = b then some st else none

/-- The names that are open behind a word; `none` where a bracket closes what is not open. -/
def run (st : List α) (l : List (Delim α)) : Option (List α) := l.foldlM step st

@[simp] theorem run_cons (st : List α) (x : Delim α) (l : List (Delim α)) :
    run st (x :: l) = (step st x).bind fun st' => run st' l := rfl

theorem run_append (st : List α) (l l' : List (Delim α)) :
    run st (l ++ l') = (run st l).bind fun st' => run st' l' :=
  List.foldlM_append

theorem step_closing (a : α) (st : List α) : step (a :: st) (closing a) = some st := if_pos rfl

theorem Balanced.run {l : List (Delim α)} (h : Balanced l) (st : List α) :
    run st l = some st := by
  induction h generalizing st with
  | nil => rfl
  | wrap a _ _ ih ih' =>
    rw [run_cons, step, Option.bind_some, run_append, ih, Option.bind_some, run_cons, step_closing,
      Option.bind_some, ih']

theorem closes_of_run {st : List α} {l : List (Delim α)} (h : Delim.run st l = some []) :
    Closes st l := by
  induction l generalizing st with
  | nil =>
    obtain rfl : st = [] := Option.some.inj h
    exact .nil .nil
  | cons x l ih =>
    obtain ⟨st', hstep, hrun⟩ := Option.bind_eq_some_iff.mp h
    cases x with
    | opening a =>
      obtain rfl : a :: st = st' := Option.some.inj hstep
      cases ih hrun with
      | cons hl hl' => exact hl'.wrap hl
    | closing a =>
      cases st with
      | nil => cases hstep
      | cons b st =>
        have hname : a = b := by
          by_contra hne
          rw [step, if_neg hne] at hstep
          cases hstep
        subst hname
        rw [step_closing] at hstep
        obtain rfl : st = st' := Option.some.inj hstep
        exact Closes.cons .nil (ih hrun)

/-- **The words that leave nothing open are the balanced ones.** -/
theorem run_eq_nil_iff (l : List (Delim α)) : Delim.run [] l = some [] ↔ Balanced l := by
  constructor
  · intro h
    cases closes_of_run h with
    | nil h => exact h
  · exact fun h => h.run []

end Delim
