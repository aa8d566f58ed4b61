import Mathlib.Control.Monad.Basic

/-!
# Computations on a state that may throw

An `Effect` keeps the state it has reached when it throws.  What a sequence of
two does is said by the outcome of the first (`bind_ok`, `bind_error`).  A
triple says what holds behind a computation that starts where `P` holds: `Q`
when it returns, `E` when it throws.
-/

/-- A computation on a state that may throw. -/
abbrev Effect (σ ε : Type) := ExceptT ε (StateM σ)

namespace Effect

variable {σ ε α β : Type}

/-- `if ( p ) throw e`. -/
def throwIf (p : Prop) [Decidable p] (e : ε) : Effect σ ε Unit := if p then throw e else pure ()

/-! ## Outcomes -/

theorem bind_ok {x : Effect σ ε α} {f : α → Effect σ ε β} {s s' : σ} {a : α}
    (h : x s = (.ok a, s')) : (x >>= f) s = f a s' := by
  simp only [bind, ExceptT.bind, ExceptT.mk, StateT.bind, h, ExceptT.bindCont]

theorem bind_error {x : Effect σ ε α} {f : α → Effect σ ε β} {s s' : σ} {e : ε}
    (h : x s = (.error e, s')) : (x >>= f) s = (.error e, s') := by
  simp only [bind, ExceptT.bind, ExceptT.mk, StateT.bind, h, ExceptT.bindCont]
  rfl

@[simp] theorem pure_run (a : α) (s : σ) : (pure a : Effect σ ε α) s = (.ok a, s) := rfl

@[simp] theorem get_run (s : σ) : (get : Effect σ ε σ) s = (.ok s, s) := rfl

@[simp] theorem modify_run (f : σ → σ) (s : σ) :
    (modify f : Effect σ ε PUnit) s = (.ok ⟨⟩, f s) := rfl

@[simp] theorem throwIf_run (p : Prop) [Decidable p] (e : ε) (s : σ) :
    (throwIf p e : Effect σ ε Unit) s = (if p then .error e else .ok (), s) := by
  unfold throwIf
  split <;> rfl

@[simp] theorem ite_run (p : Prop) [Decidable p] (x y : Effect σ ε α) (s : σ) :
    (if p then x else y) s = if p then x s else y s := by
  split <;> rfl

/-! ## Triples -/

/-- What holds behind a computation. -/
def Triple (P : σ → Prop) (x : Effect σ ε α) (Q : α → σ → Prop) (E : ε → σ → Prop) : Prop :=
  ∀ s, P s → (∀ a s', x s = (.ok a, s') → Q a s') ∧ ∀ e s', x s = (.error e, s') → E e s'

variable {P : σ → Prop} {Q : α → σ → Prop} {R : β → σ → Prop} {E : ε → σ → Prop}

theorem Triple.pure {a : α} (h : ∀ s, P s → Q a s) :
    Triple P (pure a : Effect σ ε α) Q E := fun s hs => by
  refine ⟨fun a' s' heq => ?_, fun e s' heq => ?_⟩
  · cases heq
    exact h s hs
  · cases heq

theorem Triple.throw {e : ε} (h : ∀ s, P s → E e s) :
    Triple P (throw e : Effect σ ε α) Q E := fun s hs => by
  refine ⟨fun a s' heq => ?_, fun e' s' heq => ?_⟩
  · cases heq
  · cases heq
    exact h s hs

theorem Triple.get {Q : σ → σ → Prop} (h : ∀ s, P s → Q s s) :
    Triple P (get : Effect σ ε σ) Q E := fun s hs => by
  refine ⟨fun a s' heq => ?_, fun e s' heq => ?_⟩
  · cases heq
    exact h s hs
  · cases heq

theorem Triple.modify {Q : PUnit → σ → Prop} {f : σ → σ} (h : ∀ s, P s → Q ⟨⟩ (f s)) :
    Triple P (modify f : Effect σ ε PUnit) Q E := fun s hs => by
  refine ⟨fun a s' heq => ?_, fun e s' heq => ?_⟩
  · cases heq
    exact h s hs
  · cases heq

theorem Triple.bind {x : Effect σ ε α} {f : α → Effect σ ε β} (hx : Triple P x Q E)
    (hf : ∀ a, Triple (Q a) (f a) R E) : Triple P (x >>= f) R E := fun s hs => by
  rcases hrun : x s with ⟨e | a, s'⟩
  · rw [bind_error hrun]
    refine ⟨fun b s'' heq => ?_, fun e' s'' heq => ?_⟩
    · cases heq
    · cases heq
      exact (hx s hs).2 e s' hrun
  · rw [bind_ok hrun]
    exact hf a s' ((hx s hs).1 a s' hrun)

theorem Triple.ite {p : Prop} [Decidable p] {x y : Effect σ ε α}
    (hx : p → Triple P x Q E) (hy : ¬ p → Triple P y Q E) :
    Triple P (if p then x else y) Q E := by
  split
  · exact hx ‹p›
  · exact hy ‹¬ p›

theorem Triple.throwIf {p : Prop} [Decidable p] {e : ε} (h : ∀ s, p → P s → E e s) :
    Triple P (throwIf p e) (fun _ s => ¬ p ∧ P s) E := by
  refine Triple.ite (fun hp => .throw fun s hs => h s hp hs) fun hp => .pure fun s hs => ⟨hp, hs⟩

theorem Triple.weaken {P' : σ → Prop} {Q' : α → σ → Prop} {x : Effect σ ε α}
    (h : Triple P x Q E) (hP : ∀ s, P' s → P s) (hQ : ∀ a s, Q a s → Q' a s) :
    Triple P' x Q' E := fun s hs =>
  ⟨fun a s' heq => hQ a s' ((h s (hP s hs)).1 a s' heq), fun e s' heq => (h s (hP s hs)).2 e s' heq⟩

/-! ## What a computation leaves alone -/

/-- A computation leads from `P` to `P`, also when it throws. -/
def Stays (P : σ → Prop) (x : Effect σ ε α) : Prop := Triple P x (fun _ => P) fun _ => P

namespace Stays

theorem of_run {x : Effect σ ε α} (h : ∀ s, P s → P (x s).2) : Stays P x := fun s hs => by
  have hrun := h s hs
  refine ⟨fun a s' heq => ?_, fun e s' heq => ?_⟩ <;>
    rwa [heq] at hrun

theorem pure (a : α) : Stays P (Pure.pure a : Effect σ ε α) := Triple.pure fun _ h => h

theorem throw (e : ε) : Stays P (MonadExcept.throw e : Effect σ ε α) := Triple.throw fun _ h => h

theorem bind {x : Effect σ ε α} {f : α → Effect σ ε β} (hx : Stays P x) (hf : ∀ a, Stays P (f a)) :
    Stays P (x >>= f) := Triple.bind hx hf

theorem ite {p : Prop} [Decidable p] {x y : Effect σ ε α} (hx : Stays P x) (hy : Stays P y) :
    Stays P (if p then x else y) := Triple.ite (fun _ => hx) fun _ => hy

theorem get : Stays P (MonadState.get : Effect σ ε σ) := Triple.get fun _ h => h

theorem modify {f : σ → σ} (h : ∀ s, P s → P (f s)) :
    Stays P (modify f : Effect σ ε PUnit) := Triple.modify h

/-- The state behind a computation, whatever its outcome. -/
theorem run {x : Effect σ ε α} (h : Stays P x) {s : σ} (hs : P s) : P (x s).2 := by
  rcases hrun : x s with ⟨e | a, s'⟩
  · exact (h s hs).2 e s' hrun
  · exact (h s hs).1 a s' hrun

end Stays

end Effect
