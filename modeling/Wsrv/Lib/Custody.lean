import Mathlib.Data.List.Nodup
import Mathlib.Logic.Equiv.Basic

/-!
# Custody

Tokens are free, in a list, or held, each by one holder.  Taking a free token,
giving one back and passing one on keep every token in exactly one place.
-/

namespace Custody

open Function

variable {Token Holder : Type}

/-- Every token of `all` is free once or held once. -/
structure Sound (all : Token → Prop) (free : List Token) (held : Holder → Option Token) : Prop where
  nodup : free.Nodup
  apart : ∀ h t, held h = some t → t ∉ free
  sole : ∀ h h' t, held h = some t → held h' = some t → h = h'
  total : ∀ t, all t ↔ t ∈ free ∨ ∃ h, held h = some t

variable {all : Token → Prop} {free : List Token} {held : Holder → Option Token}

theorem Sound.start {free : List Token} (h : free.Nodup) :
    Sound (· ∈ free) free (fun _ : Holder => none) where
  nodup := h
  apart := fun _ _ h => nomatch h
  sole := fun _ _ _ h => nomatch h
  total := fun t => by simp

/-- A token is free and nobody holds it, or it is held by one and not free. -/
theorem Sound.exclusive [DecidableEq Token] (h : Sound all free held) {t : Token} (ht : all t) :
    (free.count t = 1 ∧ ∀ v, held v ≠ some t) ∨ (free.count t = 0 ∧ ∃! v, held v = some t) := by
  rcases (h.total t).mp ht with hfree | ⟨v, hv⟩
  · exact .inl ⟨List.count_eq_one_of_mem h.nodup hfree, fun v hv => h.apart v t hv hfree⟩
  · exact .inr ⟨List.count_eq_zero.mpr (h.apart v t hv), v, hv, fun w hw => h.sole w v t hw hv⟩

variable [DecidableEq Holder]

theorem Sound.take {v : Holder} {t : Token} (h : Sound all (t :: free) held) (hv : held v = none) :
    Sound all free (update held v (some t)) where
  nodup := (List.nodup_cons.mp h.nodup).2
  apart := fun w u hw => by
    by_cases hwv : w = v
    · subst hwv
      obtain rfl : t = u := by simpa using hw
      exact (List.nodup_cons.mp h.nodup).1
    · rw [update_of_ne hwv] at hw
      exact fun hu => h.apart w u hw (List.mem_cons_of_mem t hu)
  sole := fun w w' u hw hw' => by
    have hnew : ∀ x, x ≠ v → update held v (some t) x = some u → u ≠ t := fun x hx hxu hut => by
      rw [update_of_ne hx] at hxu
      exact h.apart x u hxu (hut ▸ List.mem_cons_self)
    by_cases hwv : w = v <;> by_cases hwv' : w' = v
    · exact hwv.trans hwv'.symm
    · subst hwv
      exact absurd (by simpa using hw.symm : u = t) (hnew w' hwv' hw')
    · subst hwv'
      exact absurd (by simpa using hw'.symm : u = t) (hnew w hwv hw)
    · rw [update_of_ne hwv] at hw
      rw [update_of_ne hwv'] at hw'
      exact h.sole w w' u hw hw'
  total := fun u => by
    rw [h.total u, List.mem_cons]
    constructor
    · rintro ((rfl | hu) | ⟨w, hw⟩)
      · exact .inr ⟨v, update_self ..⟩
      · exact .inl hu
      · have hwv : w ≠ v := by
          rintro rfl
          exact nomatch hv.symm.trans hw
        exact .inr ⟨w, by rw [update_of_ne hwv, hw]⟩
    · rintro (hu | ⟨w, hw⟩)
      · exact .inl (.inr hu)
      · by_cases hwv : w = v
        · subst hwv
          exact .inl (.inl (by simpa using hw.symm))
        · exact .inr ⟨w, by rwa [update_of_ne hwv] at hw⟩

theorem Sound.give {v : Holder} {t : Token} (h : Sound all free held) (hv : held v = some t) :
    Sound all (free ++ [t]) (update held v none) := by
  have hheld : ∀ w u, update held v none w = some u → w ≠ v ∧ held w = some u := fun w u hw => by
    have hwv : w ≠ v := by
      rintro rfl
      exact nomatch (update_self w none held).symm.trans hw
    exact ⟨hwv, by rwa [update_of_ne hwv] at hw⟩
  constructor
  · rw [List.nodup_append]
    refine ⟨h.nodup, List.nodup_singleton t, fun u hu u' hu' => ?_⟩
    rw [List.mem_singleton.mp hu']
    rintro rfl
    exact h.apart v u hv hu
  · intro w u hw hu
    obtain ⟨hwv, hw⟩ := hheld w u hw
    rcases List.mem_append.mp hu with hu | hu
    · exact h.apart w u hw hu
    · rw [List.mem_singleton] at hu
      exact hwv (h.sole w v t (hu ▸ hw) hv)
  · exact fun w w' u hw hw' => h.sole w w' u (hheld w u hw).2 (hheld w' u hw').2
  · intro u
    rw [h.total u, List.mem_append, List.mem_singleton]
    constructor
    · rintro (hu | ⟨w, hw⟩)
      · exact .inl (.inl hu)
      · by_cases hwv : w = v
        · subst hwv
          exact .inl (.inr (Option.some.inj (hw.symm.trans hv)))
        · exact .inr ⟨w, by rw [update_of_ne hwv, hw]⟩
    · rintro ((hu | rfl) | ⟨w, hw⟩)
      · exact .inl hu
      · exact .inr ⟨v, hv⟩
      · exact .inr ⟨w, (hheld w u hw).2⟩

/-- What one holder has goes to another one that has nothing. -/
theorem Sound.pass {v w : Holder} (h : Sound all free held) (hw : held w = none) (hne : w ≠ v) :
    Sound all free (update (update held v none) w (held v)) := by
  -- The new holder of a token is the old one up to the exchange of `v` and `w`.
  have hheld : ∀ x, update (update held v none) w (held v) x = held (Equiv.swap v w x) := fun x => by
    by_cases hxw : x = w
    · subst hxw
      rw [update_self, Equiv.swap_apply_right]
    · by_cases hxv : x = v
      · subst hxv
        rw [update_of_ne hxw, update_self, Equiv.swap_apply_left, hw]
      · rw [update_of_ne hxw, update_of_ne hxv, Equiv.swap_apply_of_ne_of_ne hxv hxw]
  constructor
  · exact h.nodup
  · intro x t hx
    exact h.apart _ t ((hheld x).symm.trans hx)
  · intro x x' t hx hx'
    exact (Equiv.swap v w).injective
      (h.sole _ _ t ((hheld x).symm.trans hx) ((hheld x').symm.trans hx'))
  · intro t
    rw [h.total t]
    refine or_congr_right ⟨fun ⟨x, hx⟩ => ⟨Equiv.swap v w x, ?_⟩, fun ⟨x, hx⟩ => ⟨_, (hheld x).symm.trans hx⟩⟩
    rw [hheld, Equiv.swap_apply_self, hx]

end Custody
