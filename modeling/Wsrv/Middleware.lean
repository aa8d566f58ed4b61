import Wsrv.Lib.CallTrace

/-!
# Middlewares and their context

`MiddlewareContext` walks through a pipeline with one shared `index_`: each call
of `next` hands the request to the middleware at the index and moves the index
on, and once the index has passed the last middleware it runs the handler.

What a middleware does is a program that may call `ctx.next` any number of
times and goes on with what comes back, a return or an exception.  `σ` is all
the state in reach (request, response, stores), `ε` the exceptions.

The handler runs inside every middleware exactly as long as no middleware
before the last one has called `next` a second time
(`handler_inside_all_iff`).
-/

namespace Wsrv.Middleware

open CallTrace

variable {σ ε : Type}

/-- The body of `IMiddleware::handle`, cut at its calls of `ctx.next(req, res)`. -/
inductive Prog (ε σ : Type)
  | ret (outcome : Except ε Unit) (s : σ)
  | next (s : σ) (k : Except ε Unit → σ → Prog ε σ)

/-- `IMiddleware`, given by its `handle`. -/
abbrev IMiddleware (ε σ : Type) := σ → Prog ε σ

/-- `RequestHandler`, given by its `handle`. -/
abbrev RequestHandler (ε σ : Type) := σ → Except ε Unit × σ

/-- What a call of `next` or `handle` leaves behind: the shared index, how the call ended,
the state, and the calls that were made. -/
structure Result (ε σ : Type) where
  index : Nat
  outcome : Except ε Unit
  state : σ
  trace : List Event

/-- Run the body of the middleware at position `i`; `next` is `MiddlewareContext::next` at the
current index. -/
def Prog.run (next : Nat → σ → Result ε σ) (i : Nat) : Prog ε σ → Nat → Result ε σ
  | .ret outcome s, index => ⟨index, outcome, s, []⟩
  | .next s k, index =>
    let a := next index s
    let b := (k a.outcome a.state).run next i a.index
    { b with trace := .call i :: (a.trace ++ b.trace) }

structure MiddlewareContext (ε σ : Type) where
  middlewares : List (IMiddleware ε σ)
  /-- `none` is the null pointer. -/
  handler : Option (RequestHandler ε σ)

namespace MiddlewareContext

def runHandler (ctx : MiddlewareContext ε σ) (index : Nat) (s : σ) : Result ε σ :=
  match ctx.handler with
  | some h => ⟨index, (h s).1, (h s).2, [.target]⟩
  | none => ⟨index, .ok (), s, []⟩

/-- `next` for contexts with at most `bound` middlewares left to enter. -/
def nextUpTo (ctx : MiddlewareContext ε σ) : Nat → Nat → σ → Result ε σ
  | 0, index, s => ctx.runHandler index s
  | bound + 1, index, s =>
    match ctx.middlewares[index]? with
    | some m =>
      let r := (m s).run (ctx.nextUpTo bound) index (index + 1)
      { r with trace := .enter index :: (r.trace ++ [.leave index]) }
    | none => ctx.runHandler index s

/-- `MiddlewareContext::next` at the given value of `index_`. -/
def next (ctx : MiddlewareContext ε σ) (index : Nat) (s : σ) : Result ε σ :=
  ctx.nextUpTo (ctx.middlewares.length - index) index s

/-- `Pipeline::run`, and what `Application::handle` does with a context: start the chain. -/
def run (ctx : MiddlewareContext ε σ) (s : σ) : Result ε σ := ctx.next 0 s

end MiddlewareContext

/-! ## `next` unfolds without a bound -/

theorem Prog.run_index_le {next : Nat → σ → Result ε σ}
    (hnext : ∀ index s, index ≤ (next index s).index) (i : Nat) (p : Prog ε σ) (index : Nat) :
    index ≤ (p.run next i index).index := by
  induction p generalizing index with
  | ret outcome s => exact Nat.le_refl _
  | next s k ih =>
    simp only [Prog.run]
    exact Nat.le_trans (hnext index s) (ih _ _ _)

theorem Prog.run_congr {next next' : Nat → σ → Result ε σ} {low : Nat}
    (hmono : ∀ index s, index ≤ (next index s).index)
    (heq : ∀ index s, low ≤ index → next index s = next' index s) (i : Nat) (p : Prog ε σ)
    (index : Nat) (hlow : low ≤ index) : p.run next i index = p.run next' i index := by
  induction p generalizing index with
  | ret outcome s => rfl
  | next s k ih =>
    have hle := hmono index s
    simp only [Prog.run, ← heq index s hlow]
    rw [ih _ _ _ (by omega)]

namespace MiddlewareContext

theorem runHandler_index (ctx : MiddlewareContext ε σ) (index : Nat) (s : σ) :
    (ctx.runHandler index s).index = index := by
  unfold runHandler
  split <;> rfl

theorem nextUpTo_index_le (ctx : MiddlewareContext ε σ) (bound index : Nat) (s : σ) :
    index ≤ (ctx.nextUpTo bound index s).index := by
  induction bound generalizing index s with
  | zero => simp [nextUpTo, runHandler_index]
  | succ bound ih =>
    unfold nextUpTo
    split
    · rename_i m _
      have := Prog.run_index_le ih index (m s) (index + 1)
      simp only
      omega
    · simp [runHandler_index]

/-- Any two bounds that cover the middlewares left give the same result. -/
theorem nextUpTo_eq (ctx : MiddlewareContext ε σ) (b c index : Nat) (s : σ)
    (hb : ctx.middlewares.length ≤ b + index) (hc : ctx.middlewares.length ≤ c + index) :
    ctx.nextUpTo b index s = ctx.nextUpTo c index s := by
  induction b generalizing c index s with
  | zero =>
    cases c with
    | zero => rfl
    | succ c => simp [nextUpTo, List.getElem?_eq_none (show ctx.middlewares.length ≤ index by omega)]
  | succ b ih =>
    rcases Nat.lt_or_ge index ctx.middlewares.length with hlt | hge
    · cases c with
      | zero => omega
      | succ c =>
        have heq : ∀ j s, index + 1 ≤ j → ctx.nextUpTo b j s = ctx.nextUpTo c j s :=
          fun j s hj => ih c j s (by omega) (by omega)
        simp only [nextUpTo, List.getElem?_eq_getElem hlt]
        rw [Prog.run_congr (ctx.nextUpTo_index_le b) heq index _ _ (Nat.le_refl _)]
    · cases c with
      | zero => simp [nextUpTo, List.getElem?_eq_none hge]
      | succ c => simp [nextUpTo, List.getElem?_eq_none hge]

/-- `next` as the source states it. -/
theorem next_eq (ctx : MiddlewareContext ε σ) (index : Nat) (s : σ) :
    ctx.next index s =
      match ctx.middlewares[index]? with
      | some m =>
        let r := (m s).run ctx.next index (index + 1)
        { r with trace := .enter index :: (r.trace ++ [.leave index]) }
      | none => ctx.runHandler index s := by
  rcases Nat.lt_or_ge index ctx.middlewares.length with hlt | hge
  · obtain ⟨b, hb⟩ : ∃ b, ctx.middlewares.length - index = b + 1 :=
      ⟨ctx.middlewares.length - index - 1, by omega⟩
    have heq : ∀ j s, index + 1 ≤ j → ctx.nextUpTo b j s = ctx.next j s :=
      fun j s hj => ctx.nextUpTo_eq b (ctx.middlewares.length - j) j s (by omega) (by omega)
    simp only [List.getElem?_eq_getElem hlt]
    rw [next, hb, nextUpTo, List.getElem?_eq_getElem hlt]
    simp only
    rw [Prog.run_congr (ctx.nextUpTo_index_le b) heq index _ _ (Nat.le_refl _)]
  · rw [next, show ctx.middlewares.length - index = 0 by omega, List.getElem?_eq_none hge]
    rfl

end MiddlewareContext

/-! ## The handler runs inside every middleware

`n` is the length of the pipeline and `h` the trace so far. -/

/-- What holds whenever `next` is called with the shared index at `index`. -/
structure Ready (n : Nat) (h : List Event) (index : Nat) : Prop where
  bound : index ≤ n
  fresh : ∀ j, index ≤ j → h.count (.call j) = 0
  sound : ¬ Repeats n h → Sound h index
  skipped : Repeats n h → Skipped n h index

/-- What holds in the body of the middleware at position `i`, between its calls of `next`. -/
structure InFrame (n : Nat) (h : List Event) (i index : Nat) : Prop where
  lt : i < index
  bound : index ≤ n
  fresh : ∀ j, index ≤ j → h.count (.call j) = 0
  sound : ¬ Repeats n h → Sound h (i + 1)
  first : ¬ Repeats n h → h.count (.call i) = 0 → index = i + 1
  skipped : Repeats n h → Skipped n h index
  second : 1 ≤ h.count (.call i) → i + 1 < n → Skipped n h index

/-- The handler runs inside all `n` middlewares exactly when nobody repeated a call. -/
def Guarded (n : Nat) (pre : List Event) : Prop := active pre = full n ↔ ¬ Repeats n pre

/-- What the calls `t` made after `h` leave unchanged. -/
structure Kept (n : Nat) (h t : List Event) (index index' : Nat) : Prop where
  mono : index ≤ index'
  bound : index' ≤ n
  balanced : active (h ++ t) = active h
  fresh : ∀ j, index' ≤ j → (h ++ t).count (.call j) = 0
  skipped : Repeats n (h ++ t) → Skipped n (h ++ t) index'
  targets : AtTarget (fun pre => Guarded n (h ++ pre)) t

theorem InFrame.ready {n i index : Nat} {h : List Event} (hf : InFrame n h i index) :
    Ready n (h ++ [.call i]) index where
  bound := hf.bound
  fresh := by
    intro j hj
    have hne : (Event.call i == Event.call j) = false := by
      have := hf.lt
      simp; omega
    rw [List.count_append, List.count_singleton, hf.fresh j hj, hne]
    rfl
  sound := by
    intro hno
    have hno' : ¬ Repeats n h := fun hr => hno (hr.mono _)
    have hs : active h = full (i + 1) := hf.sound hno'
    have hi : index = i + 1 := by
      by_cases hc : h.count (.call i) = 0
      · exact hf.first hno' hc
      · -- a second call that is no repetition is one of the last middleware
        have hlast : ¬ i + 1 < n := fun hlt => hno
          ⟨i, hlt, by rw [List.count_append, List.count_singleton_self]; omega⟩
        have := hf.lt
        have := hf.bound
        omega
    rw [Sound, active_call, hs, hi]
  skipped := by
    intro hr
    have hs : Skipped n h index := by
      rcases repeats_call hr with hr | ⟨hlt, hc⟩
      · exact hf.skipped hr
      · exact hf.second hc hlt
    exact hs.mono (Nat.le_refl _) (active_call h i)

/-- The frame goes on after a call of `next` that left `t` behind. -/
theorem InFrame.resume {n i index index' : Nat} {h t : List Event} (hf : InFrame n h i index)
    (hk : Kept n (h ++ [.call i]) t index index') (hstrict : index < n → index < index') :
    InFrame n (h ++ [.call i] ++ t) i index' := by
  have hbal : active (h ++ [.call i] ++ t) = active h := by rw [hk.balanced, active_call]
  have hcount : 1 ≤ (h ++ [Event.call i] ++ t).count (.call i) := by
    rw [List.count_append, List.count_append, List.count_singleton_self]
    omega
  refine ⟨Nat.lt_of_lt_of_le hf.lt hk.mono, hk.bound, hk.fresh, ?_, ?_, hk.skipped, ?_⟩
  · intro hno
    have hno' : ¬ Repeats n h := fun hr => hno ((hr.mono _).mono _)
    rw [Sound, hbal]
    exact hf.sound hno'
  · intro _ hc
    omega
  · intro _ hlt
    by_cases hr : Repeats n (h ++ [.call i])
    · exact (hf.ready.skipped hr).mono hk.mono hk.balanced
    · -- the first call entered the middleware `i + 1`, which has returned by now
      have hno' : ¬ Repeats n h := fun hr' => hr (hr'.mono _)
      have hs : active h = full (i + 1) := hf.sound hno'
      have hc : h.count (.call i) = 0 := by
        by_contra hc
        exact hr ⟨i, hlt, by rw [List.count_append, List.count_singleton_self]; omega⟩
      have hi := hf.first hno' hc
      have := hstrict (by omega)
      refine ⟨i + 1, by omega, hlt, ?_⟩
      rw [hbal, hs]
      exact fun hm => absurd (mem_full.mp hm) (by omega)

theorem Prog.run_kept (next : Nat → σ → Result ε σ) {n i : Nat}
    (hnext : ∀ index s h, i < index → Ready n h index →
      Kept n h (next index s).trace index (next index s).index ∧
        (index < n → index < (next index s).index))
    (p : Prog ε σ) (index : Nat) (h : List Event) (hf : InFrame n h i index) :
    Kept n h (p.run next i index).trace index (p.run next i index).index := by
  induction p generalizing index h with
  | ret outcome s =>
    simp only [Prog.run]
    exact ⟨Nat.le_refl _, hf.bound, by simp, by simpa using hf.fresh,
      by simpa using hf.skipped, atTarget_nil _⟩
  | next s k ih =>
    simp only [Prog.run]
    obtain ⟨hk, hstrict⟩ := hnext index s _ hf.lt hf.ready
    have hr := ih (next index s).outcome (next index s).state _ _ (hf.resume hk hstrict)
    have hassoc : ∀ u : List Event, h ++ .call i :: ((next index s).trace ++ u) =
        h ++ [.call i] ++ (next index s).trace ++ u := by
      intro u; simp
    refine ⟨Nat.le_trans hk.mono hr.mono, hr.bound, ?_, ?_, ?_, ?_⟩
    · rw [hassoc, hr.balanced, hk.balanced, active_call]
    · rw [hassoc]; exact hr.fresh
    · rw [hassoc]; exact hr.skipped
    · refine atTarget_append (t := [.call i]) (atTarget_other (by simp)) ?_
      refine atTarget_append ?_ ?_
      · simpa using hk.targets
      · simpa using hr.targets

theorem InFrame.enter {n index : Nat} {h : List Event} (hr : Ready n h index) (hlt : index < n) :
    InFrame n (h ++ [.enter index]) index (index + 1) where
  lt := by omega
  bound := by omega
  fresh := by
    intro j hj
    rw [count_call_other (by simp)]
    exact hr.fresh j (by omega)
  sound := by
    intro hno
    have hs : active h = full index := hr.sound fun h' => hno (h'.mono _)
    rw [Sound, active_enter, hs, full_succ]
  first := fun _ _ => rfl
  skipped := by
    intro h'
    obtain ⟨j, hj, hn, hnot⟩ := hr.skipped (repeats_of_other (by simp) h')
    refine ⟨j, by omega, hn, ?_⟩
    rw [active_enter, List.mem_cons]
    rintro (e | hm)
    · omega
    · exact hnot hm
  second := by
    intro hc
    rw [count_call_other (by simp), hr.fresh index (Nat.le_refl _)] at hc
    omega

theorem runHandler_kept (ctx : MiddlewareContext ε σ) {n : Nat} {h : List Event}
    (hr : Ready n h n) (s : σ) : Kept n h (ctx.runHandler n s).trace n (ctx.runHandler n s).index := by
  rw [ctx.runHandler_index]
  have hguard : Guarded n h :=
    ⟨fun ha hrep => (hr.skipped hrep).target ha, fun hno => (hr.sound hno).target⟩
  unfold MiddlewareContext.runHandler
  cases ctx.handler with
  | none =>
    exact ⟨Nat.le_refl _, Nat.le_refl _, by simp, by simpa using hr.fresh,
      by simpa using hr.skipped, atTarget_nil _⟩
  | some handler =>
    refine ⟨Nat.le_refl _, Nat.le_refl _, active_target h, ?_, ?_, atTarget_singleton ?_⟩
    · intro j hj
      rw [count_call_other (by simp)]
      exact hr.fresh j hj
    · intro hrep
      exact (hr.skipped (repeats_of_other (by simp) hrep)).mono (Nat.le_refl _) (active_target h)
    · simpa using hguard

/-- **One call of `next`** keeps the stack and the index, and whatever it makes the handler do is
guarded. -/
theorem next_kept (ctx : MiddlewareContext ε σ) (index : Nat) (s : σ) (h : List Event)
    (hr : Ready ctx.middlewares.length h index) :
    Kept ctx.middlewares.length h (ctx.next index s).trace index (ctx.next index s).index ∧
      (index < ctx.middlewares.length → index < (ctx.next index s).index) := by
  -- on the number of middlewares left
  generalize hk : ctx.middlewares.length - index = k
  induction k using Nat.strong_induction_on generalizing index s h with
  | _ k ih =>
    rw [ctx.next_eq]
    rcases Nat.lt_or_ge index ctx.middlewares.length with hlt | hge
    · rw [List.getElem?_eq_getElem hlt]
      simp only
      have hrun := Prog.run_kept ctx.next (i := index)
        (fun j s h hj hready => ih _ (by have := hready.bound; omega) j s h hready rfl)
        (ctx.middlewares[index] s) (index + 1) _ (InFrame.enter hr hlt)
      refine ⟨?_, fun _ => hrun.mono⟩
      have hassoc : ∀ u : List Event, h ++ .enter index :: (u ++ [.leave index]) =
          h ++ [.enter index] ++ u ++ [.leave index] := by
        intro u; simp
      have hbal : active (h ++ .enter index :: ((Prog.run ctx.next index
          (ctx.middlewares[index] s) (index + 1)).trace ++ [.leave index])) = active h := by
        rw [hassoc, active_leave, hrun.balanced, active_enter, List.tail_cons]
      refine ⟨by have := hrun.mono; omega, hrun.bound, hbal, ?_, ?_, ?_⟩
      · intro j hj
        rw [hassoc, count_call_other (by simp)]
        exact hrun.fresh j hj
      · intro hrep
        rw [hassoc] at hrep
        obtain ⟨j, hj, hn, hnot⟩ := hrun.skipped (repeats_of_other (by simp) hrep)
        refine ⟨j, hj, hn, fun hm => hnot ?_⟩
        rw [hrun.balanced, active_enter]
        rw [hbal] at hm
        exact List.mem_cons_of_mem _ hm
      · refine atTarget_append (t := [.enter index]) (atTarget_other (by simp)) ?_
        refine atTarget_append ?_ (atTarget_other (by simp))
        simpa using hrun.targets
    · have hidx : index = ctx.middlewares.length := Nat.le_antisymm hr.bound hge
      rw [List.getElem?_eq_none hge]
      subst hidx
      exact ⟨runHandler_kept ctx hr s, fun h => absurd h (Nat.lt_irrefl _)⟩

theorem ready_nil (n : Nat) : Ready n [] 0 where
  bound := Nat.zero_le _
  fresh := fun _ _ => rfl
  sound := fun _ => rfl
  skipped := fun hr => absurd hr (not_repeats_nil n)

/-- Every run of the handler, taken by itself. -/
theorem run_guarded (ctx : MiddlewareContext ε σ) (s : σ) :
    AtTarget (Guarded ctx.middlewares.length) (ctx.run s).trace := by
  have h := (next_kept ctx 0 s [] (ready_nil _)).1.targets
  simp only [List.nil_append] at h
  exact h

/-- **The handler runs inside all middlewares.**  In the run of a pipeline every invocation of the
handler happens inside an active `handle` of every middleware, in pipeline order, if and only if
before every invocation no middleware other than the last has called `next` a second time. -/
theorem handler_inside_all_iff (ctx : MiddlewareContext ε σ) (s : σ) :
    AtTarget (fun pre => active pre = full ctx.middlewares.length) (ctx.run s).trace ↔
      AtTarget (fun pre => ¬ Repeats ctx.middlewares.length pre) (ctx.run s).trace :=
  AtTarget.congr (run_guarded ctx s)

/-! ### A second call after a refusal -/

/-- Calls `next` again when the first call comes back. -/
def retry : IMiddleware Unit Nat :=
  fun s => .next s fun _ s => .next s fun outcome s => .ret outcome s

/-- Answers by itself and calls nothing. -/
def refuse : IMiddleware Unit Nat := fun s => .ret (.ok ()) s

/-- Counts its invocations. -/
def countHandler : RequestHandler Unit Nat := fun s => (.ok (), s + 1)

theorem refused_handler_runs :
    let ctx : MiddlewareContext Unit Nat := ⟨[retry, refuse], some countHandler⟩
    (ctx.run 0).state = 1 ∧
      ¬ AtTarget (fun pre => active pre = full ctx.middlewares.length) (ctx.run 0).trace := by
  refine ⟨by decide, fun h => ?_⟩
  have := h [.enter 0, .call 0, .enter 1, .leave 1, .call 0] [.leave 0] (by decide)
  exact absurd this (by decide)

/-! ## Middlewares that call `next` at most once -/

/-- Makes no call of `next`. -/
def Prog.Silent : Prog ε σ → Prop
  | .ret _ _ => True
  | .next _ _ => False

/-- Makes at most one call of `next`, whatever comes back from it. -/
def Prog.AtMostOnce : Prog ε σ → Prop
  | .ret _ _ => True
  | .next _ k => ∀ outcome s, (k outcome s).Silent

/-- The calls of `next` in `t` come from middlewares at positions from `index` up to `index'`,
one call at most from each before the last. -/
structure Once (n : Nat) (t : List Event) (index index' : Nat) : Prop where
  mono : index ≤ index'
  range : ∀ j, .call j ∈ t → index ≤ j ∧ j < index'
  count : ∀ j, j + 1 < n → t.count (.call j) ≤ 1

theorem Once.count_zero {n index index' j : Nat} {t : List Event} (h : Once n t index index')
    (hj : j < index ∨ index' ≤ j) : t.count (.call j) = 0 :=
  List.count_eq_zero.mpr fun hm => by
    have := h.range j hm
    omega

/-- Calls made one after the other come from disjoint ranges. -/
theorem Once.append {n a b c : Nat} {t u : List Event} (ht : Once n t a b) (hu : Once n u b c) :
    Once n (t ++ u) a c where
  mono := Nat.le_trans ht.mono hu.mono
  range := by
    intro j hm
    have := ht.mono
    have := hu.mono
    rcases List.mem_append.mp hm with h | h
    · have := ht.range j h
      omega
    · have := hu.range j h
      omega
  count := by
    intro j hj
    rw [List.count_append]
    rcases Nat.lt_or_ge j b with hlt | hge
    · rw [hu.count_zero (Or.inl hlt)]
      exact ht.count j hj
    · rw [ht.count_zero (Or.inr hge), Nat.zero_add]
      exact hu.count j hj

/-- What the body of the middleware at position `i` adds to the calls made below it. -/
theorem Prog.run_once (next : Nat → σ → Result ε σ) {n i : Nat}
    (hnext : ∀ index s, i < index → index ≤ n →
      (next index s).index ≤ n ∧ Once n (next index s).trace index (next index s).index)
    (p : Prog ε σ) (hp : i + 1 < n → p.AtMostOnce) (index : Nat) (hi : i < index)
    (hn : index ≤ n) :
    (p.run next i index).index ≤ n ∧
      Once n ((p.run next i index).trace.filter (· ≠ .call i)) index (p.run next i index).index ∧
      (i + 1 < n → (p.run next i index).trace.count (.call i) ≤ 1) := by
  induction p generalizing index with
  | ret outcome s => exact ⟨hn, ⟨Nat.le_refl _, by simp [Prog.run], by simp [Prog.run]⟩, by simp [Prog.run]⟩
  | next s k ih =>
    obtain ⟨hle, ha⟩ := hnext index s hi hn
    have hi' : i < (next index s).index := Nat.lt_of_lt_of_le hi ha.mono
    have hno : ∀ e ∈ (next index s).trace, decide (e ≠ .call i) = true := by
      intro e he
      refine decide_eq_true ?_
      rintro rfl
      have := ha.range i he
      omega
    have hk := ih (next index s).outcome (next index s).state
      (fun hlt => by
        have := hp hlt (next index s).outcome (next index s).state
        cases hkp : k (next index s).outcome (next index s).state with
        | ret outcome s => trivial
        | next s k => rw [hkp] at this; exact this.elim)
      _ hi' hle
    refine ⟨hk.1, ?_, fun hlt => ?_⟩
    · simp only [Prog.run, List.filter_cons, ne_eq, not_true_eq_false, decide_false,
        Bool.false_eq_true, ↓reduceIte, List.filter_append]
      rw [List.filter_eq_self.mpr hno]
      exact ha.append hk.2.1
    · have hsilent := hp hlt (next index s).outcome (next index s).state
      simp only [Prog.run, List.count_cons_self, List.count_append, ha.count_zero (Or.inl hi)]
      cases hkp : k (next index s).outcome (next index s).state with
      | ret outcome s => simp [Prog.run]
      | next s k => rw [hkp] at hsilent; exact hsilent.elim

theorem next_once (ctx : MiddlewareContext ε σ)
    (hm : ∀ i m, ctx.middlewares[i]? = some m → i + 1 < ctx.middlewares.length →
      ∀ s, (m s).AtMostOnce)
    (index : Nat) (s : σ) (hn : index ≤ ctx.middlewares.length) :
    (ctx.next index s).index ≤ ctx.middlewares.length ∧
      Once ctx.middlewares.length (ctx.next index s).trace index (ctx.next index s).index := by
  generalize hk : ctx.middlewares.length - index = k
  induction k using Nat.strong_induction_on generalizing index s with
  | _ k ih =>
    rw [ctx.next_eq]
    rcases Nat.lt_or_ge index ctx.middlewares.length with hlt | hge
    · rw [List.getElem?_eq_getElem hlt]
      simp only
      obtain ⟨hle, hrun, hcount⟩ := Prog.run_once ctx.next (i := index)
        (fun j s hj hjn => ih _ (by omega) j s hjn rfl) (ctx.middlewares[index] s)
        (fun hlast => hm index _ (List.getElem?_eq_getElem hlt) hlast s) (index + 1)
        (Nat.lt_succ_self _) hlt
      have hmono := hrun.mono
      refine ⟨hle, by omega, ?_, ?_⟩
      · intro j hj
        simp only [List.mem_cons, reduceCtorEq, List.mem_append, List.not_mem_nil, or_false,
          false_or] at hj
        by_cases hji : j = index
        · omega
        · have := hrun.range j (List.mem_filter.mpr ⟨hj, by simpa using hji⟩)
          omega
      · intro j hj
        rw [List.count_cons_of_ne (by simp), count_call_other (by simp)]
        by_cases hji : j = index
        · subst hji
          exact hcount hj
        · have := hrun.count j hj
          rwa [List.count_filter (by simpa using hji)] at this
    · rw [List.getElem?_eq_none hge]
      simp only [MiddlewareContext.runHandler_index]
      refine ⟨hn, Nat.le_refl _, ?_, ?_⟩
      all_goals
        unfold MiddlewareContext.runHandler
        cases ctx.handler <;> simp

/-- **No middleware is bypassed** when each one before the last calls `next` at most once. -/
theorem atMostOnce_guards (ctx : MiddlewareContext ε σ)
    (hm : ∀ i m, ctx.middlewares[i]? = some m → i + 1 < ctx.middlewares.length →
      ∀ s, (m s).AtMostOnce) (s : σ) :
    AtTarget (fun pre => active pre = full ctx.middlewares.length) (ctx.run s).trace := by
  rw [handler_inside_all_iff]
  rintro pre post he ⟨i, hi, hc⟩
  have hle := (next_once ctx hm 0 s (Nat.zero_le _)).2.count i hi
  rw [MiddlewareContext.run] at he
  rw [he, List.count_append] at hle
  omega

end Wsrv.Middleware
