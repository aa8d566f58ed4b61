import Wsrv.Middleware

/-!
# Pipelines as flat compositions

A middleware that calls `next` at most once falls in two: its code before the
call, and its code after.  `descend` runs the codes before in their order and
stacks the codes after; `ascend` runs the stack, the innermost first.  `compose`
is the descent, the handler and the ascent.

`next_compose` says that `MiddlewareContext::next` comes to that where every
middleware calls `next` at most once, and `compose_append` that one composition
inside another is the composition of both lists.
-/

namespace Wsrv.Middleware

variable {ε σ : Type}

/-- How a call has ended, and the state it leaves. -/
abbrev Ended (ε σ : Type) := Except ε Unit × σ

/-- The code of a middleware after its call of `next`. -/
abbrev After (ε σ : Type) := Except ε Unit → σ → Prog ε σ

/-- Behind the codes before `next`. -/
structure Descent (ε σ : Type) where
  /-- How the middleware has ended that makes no call; `none` where all of them make one. -/
  answer : Option (Except ε Unit)
  state : σ
  /-- The codes to run on the way back, innermost first. -/
  afters : List (After ε σ)

/-- The codes before `next`, in order. -/
def descend : List (IMiddleware ε σ) → σ → List (After ε σ) → Descent ε σ
  | [], s, ks => ⟨none, s, ks⟩
  | m :: ms, s, ks =>
    match m s with
    | .ret outcome s => ⟨some outcome, s, ks⟩
    | .next s k => descend ms s (k :: ks)

/-- The codes after `next`, in the order of the stack; `none` where one makes a second call. -/
def ascend : List (After ε σ) → Ended ε σ → Option (Ended ε σ)
  | [], r => some r
  | k :: ks, r =>
    match k r.1 r.2 with
    | .ret outcome s => ascend ks (outcome, s)
    | .next _ _ => none

/-- The flat composition of `ms` around `h`. -/
def compose (ms : List (IMiddleware ε σ)) (h : σ → Option (Ended ε σ)) (s : σ) :
    Option (Ended ε σ) :=
  let d := descend ms s []
  match d.answer with
  | some outcome => ascend d.afters (outcome, d.state)
  | none => (h d.state).bind (ascend d.afters)

/-- The state the handler is given, where it is reached. -/
def arriving (ms : List (IMiddleware ε σ)) (s : σ) : σ := (descend ms s []).state

/-! ## The stack -/

/-- What is on the stack already stays below. -/
theorem descend_stack (ms : List (IMiddleware ε σ)) (s : σ) (ks : List (After ε σ)) :
    descend ms s ks = { descend ms s [] with afters := (descend ms s []).afters ++ ks } := by
  induction ms generalizing s ks with
  | nil => rfl
  | cons m ms ih =>
    simp only [descend]
    cases m s with
    | ret outcome s => rfl
    | next s k =>
      simp only
      rw [ih s (k :: ks), ih s [k]]
      simp

theorem ascend_append (ks ls : List (After ε σ)) (r : Ended ε σ) :
    ascend (ks ++ ls) r = (ascend ks r).bind (ascend ls) := by
  induction ks generalizing r with
  | nil => rfl
  | cons k ks ih =>
    simp only [List.cons_append, ascend]
    cases k r.1 r.2 with
    | ret outcome s => exact ih _
    | next s k => rfl

/-! ## Composition -/

theorem compose_nil (h : σ → Option (Ended ε σ)) (s : σ) : compose [] h s = h s := by
  simp only [compose, descend]
  cases h s with
  | none => rfl
  | some r => rfl

/-- The outermost middleware: its code before, the others, its code after. -/
theorem compose_cons (m : IMiddleware ε σ) (ms : List (IMiddleware ε σ))
    (h : σ → Option (Ended ε σ)) (s : σ) :
    compose (m :: ms) h s =
      match m s with
      | .ret outcome s => some (outcome, s)
      | .next s k => (compose ms h s).bind (ascend [k]) := by
  simp only [compose, descend]
  cases m s with
  | ret outcome s => rfl
  | next s k =>
    simp only
    rw [descend_stack ms s [k]]
    cases (descend ms s []).answer with
    | some outcome => exact ascend_append _ _ _
    | none =>
      simp only
      rw [Option.bind_assoc]
      exact congrArg _ (funext fun r => ascend_append _ _ r)

/-- **One composition inside another is flat.** -/
theorem compose_append (gs ms : List (IMiddleware ε σ)) (h : σ → Option (Ended ε σ)) (s : σ) :
    compose (gs ++ ms) h s = compose gs (compose ms h) s := by
  induction gs generalizing s with
  | nil => rw [List.nil_append, compose_nil]
  | cons g gs ih =>
    rw [List.cons_append, compose_cons, compose_cons]
    cases g s with
    | ret outcome s => rfl
    | next s k => simp only [ih]

/-- Only what the handler does with the state it is given counts. -/
theorem compose_congr {ms : List (IMiddleware ε σ)} {h h' : σ → Option (Ended ε σ)} {s : σ}
    (heq : h (arriving ms s) = h' (arriving ms s)) : compose ms h s = compose ms h' s := by
  unfold arriving at heq
  simp only [compose, heq]

/-! ## `MiddlewareContext::next` -/

/-- A program that makes its one call: the code after it ends the run. -/
theorem Prog.run_next_once (next : Nat → σ → Result ε σ) (i index : Nat) {s : σ} {k : After ε σ}
    (hp : (Prog.next s k).AtMostOnce) :
    ascend [k] ((next index s).outcome, (next index s).state) =
      some (((Prog.next s k).run next i index).outcome, ((Prog.next s k).run next i index).state) := by
  have hk := hp (next index s).outcome (next index s).state
  simp only [ascend, Prog.run]
  cases hrest : k (next index s).outcome (next index s).state with
  | ret outcome s' => rfl
  | next s' k' =>
    rw [hrest] at hk
    exact hk.elim

/-- **Where every middleware calls `next` at most once, a call of `next` is the flat composition
of the middlewares that are left.** -/
theorem next_compose {ctx : MiddlewareContext ε σ} {h : RequestHandler ε σ}
    (hh : ctx.handler = some h) (honce : ∀ m ∈ ctx.middlewares, ∀ s, (m s).AtMostOnce)
    (index : Nat) (s : σ) :
    compose (ctx.middlewares.drop index) (fun s => some (h s)) s =
      some ((ctx.next index s).outcome, (ctx.next index s).state) := by
  -- on the number of middlewares left
  generalize hk : ctx.middlewares.length - index = k
  induction k generalizing index s with
  | zero =>
    have hge : ctx.middlewares.length ≤ index := by omega
    rw [List.drop_eq_nil_of_le hge, compose_nil, ctx.next_eq, List.getElem?_eq_none hge]
    simp only [MiddlewareContext.runHandler, hh]
  | succ k ih =>
    have hlt : index < ctx.middlewares.length := by omega
    have hm : ctx.middlewares[index] ∈ ctx.middlewares := List.getElem_mem hlt
    rw [List.drop_eq_getElem_cons hlt, compose_cons, ctx.next_eq, List.getElem?_eq_getElem hlt]
    simp only
    have hone := honce _ hm s
    cases hprog : ctx.middlewares[index] s with
    | ret outcome s' => rfl
    | next s' k' =>
      rw [hprog] at hone
      simp only
      rw [ih (index + 1) s' (by omega), Option.bind_some]
      exact Prog.run_next_once ctx.next index (index + 1) hone

/-- A whole pipeline. -/
theorem run_compose {ms : List (IMiddleware ε σ)} (h : RequestHandler ε σ)
    (honce : ∀ m ∈ ms, ∀ s, (m s).AtMostOnce) (s : σ) :
    let r := (MiddlewareContext.mk ms (some h)).run s
    compose ms (fun s => some (h s)) s = some (r.outcome, r.state) :=
  let ctx : MiddlewareContext ε σ := ⟨ms, some h⟩
  have hh : ctx.handler = some h := rfl
  next_compose hh honce 0 s

end Wsrv.Middleware
