import Wsrv.Lib.Effect

/-!
# A database connection

A call of the database may fail with an exception.  A statement outside of a
transaction is stored at once; inside of one it is stored by the commit, and a
transaction that ends in another way is rolled back.
-/

namespace Database

open Effect

variable {Rows α β : Type}

/-- What is stored, what an open transaction has made of it, and the number of calls so far. -/
structure Connection (Rows : Type) where
  stored : Rows
  work : Option Rows := none
  calls : Nat := 0

abbrev Action (Rows : Type) := Effect (Connection Rows) Unit

/-! ## Calls -/

variable (fails : Nat → Bool)

/-- A call that throws when it is one of those that fail. -/
def call (f : Connection Rows → α × Connection Rows) : Action Rows α := fun s =>
  let s' := { s with calls := s.calls + 1 }
  if fails s.calls then (.error (), s') else (.ok (f s').1, (f s').2)

def statement (f : Rows → α × Rows) : Action Rows α :=
  call fails fun s =>
    match s.work with
    | some rows => ((f rows).1, { s with work := some (f rows).2 })
    | none => ((f s.stored).1, { s with stored := (f s.stored).2 })

def begin : Action Rows Unit := call fails fun s => ((), { s with work := some s.stored })

def commit : Action Rows Unit :=
  call fails fun s => ((), { s with stored := s.work.getD s.stored, work := none })

/-- The object of a transaction, which is destroyed behind `body`. -/
def transaction (body : Action Rows α) : Action Rows α := do
  begin fails
  fun s => ((body s).1, { (body s).2 with work := none })

/-! ## What a call does -/

variable {fails}

theorem call_fails {f : Connection Rows → α × Connection Rows} {s : Connection Rows}
    (h : fails s.calls = true) : call fails f s = (.error (), { s with calls := s.calls + 1 }) :=
  if_pos h

theorem call_ok {f : Connection Rows → α × Connection Rows} {s : Connection Rows}
    (h : fails s.calls = false) :
    call fails f s =
      (.ok (f { s with calls := s.calls + 1 }).1, (f { s with calls := s.calls + 1 }).2) :=
  if_neg (by rw [h]; exact Bool.false_ne_true)

/-- A computation inside of a transaction: it stores nothing, and it returns what `f` gives, or
one of its `n` calls fails. -/
def Works (fails : Nat → Bool) (x : Action Rows α) (n : Nat) (f : Rows → α × Rows) : Prop :=
  ∀ stored rows c,
    ((∀ i < n, fails (c + i) = false) ∧
        x ⟨stored, some rows, c⟩ = (.ok (f rows).1, ⟨stored, some (f rows).2, c + n⟩)) ∨
      ((∃ i < n, fails (c + i) = true) ∧
        ∃ rows' c', x ⟨stored, some rows, c⟩ = (.error (), ⟨stored, some rows', c'⟩))

namespace Works

theorem pure (a : α) : Works fails (Pure.pure a : Action Rows α) 0 fun rows => (a, rows) :=
  fun _ _ _ => .inl ⟨fun _ h => (Nat.not_lt_zero _ h).elim, rfl⟩

theorem statement (f : Rows → α × Rows) : Works fails (statement fails f) 1 f := fun stored rows c => by
  cases h : fails c with
  | false => exact .inl ⟨fun i hi => by rwa [Nat.lt_one_iff.mp hi], call_ok h⟩
  | true => exact .inr ⟨⟨0, Nat.one_pos, h⟩, rows, c + 1, call_fails h⟩

theorem bind {x : Action Rows α} {g : α → Action Rows β} {n m : Nat} {f : Rows → α × Rows}
    {f' : α → Rows → β × Rows} (hx : Works fails x n f) (hg : ∀ a, Works fails (g a) m (f' a)) :
    Works fails (x >>= g) (n + m) fun rows => f' (f rows).1 (f rows).2 := fun stored rows c => by
  rcases hx stored rows c with ⟨hok, hrun⟩ | ⟨⟨i, hi, hfail⟩, rows', c', hrun⟩
  · rcases hg (f rows).1 stored (f rows).2 (c + n) with
      ⟨hok', hrun'⟩ | ⟨⟨i, hi, hfail⟩, rows', c', hrun'⟩
    · refine .inl ⟨fun i hi => ?_, by rw [bind_ok hrun, hrun', Nat.add_assoc]⟩
      by_cases hlt : i < n
      · exact hok i hlt
      · have hrest := hok' (i - n) (by omega)
        rwa [show c + n + (i - n) = c + i by omega] at hrest
    · exact .inr ⟨⟨n + i, by omega, by rwa [← Nat.add_assoc]⟩, rows', c',
        by rw [bind_ok hrun, hrun']⟩
  · exact .inr ⟨⟨i, by omega, hfail⟩, rows', c', by rw [bind_error hrun]⟩

end Works

/-- **A transaction** that commits at its end stores all or nothing. -/
theorem transaction_cases {x : Action Rows α} {n : Nat} {f : Rows → α × Rows}
    (h : Works fails x n f) (g : α → β) (stored : Rows) (c : Nat) :
    let body : Action Rows β := do
      let a ← x
      commit fails
      return g a
    ((∀ i < n + 2, fails (c + i) = false) ∧
        ∃ c', transaction fails body ⟨stored, none, c⟩ = (.ok (g (f stored).1), ⟨(f stored).2, none, c'⟩)) ∨
      ((∃ i < n + 2, fails (c + i) = true) ∧
        ∃ c', transaction fails body ⟨stored, none, c⟩ = (.error (), ⟨stored, none, c'⟩)) := by
  intro body
  cases hbegin : fails c with
  | true =>
    have hrun : begin fails (⟨stored, none, c⟩ : Connection Rows) = (.error (), ⟨stored, none, c + 1⟩) :=
      call_fails hbegin
    exact .inr ⟨⟨0, by omega, hbegin⟩, c + 1, bind_error hrun⟩
  | false =>
    have hrun : begin fails (⟨stored, none, c⟩ : Connection Rows) =
        (.ok (), ⟨stored, some stored, c + 1⟩) := call_ok hbegin
    unfold transaction
    rw [bind_ok hrun]
    rcases h stored stored (c + 1) with ⟨hok, hx⟩ | ⟨⟨i, hi, hfail⟩, rows', c', hx⟩
    · have hbody : body ⟨stored, some stored, c + 1⟩ =
          (do commit fails; return g (f stored).1 : Action Rows β)
            ⟨stored, some (f stored).2, c + 1 + n⟩ := bind_ok hx
      cases hcommit : fails (c + 1 + n) with
      | false =>
        have hrun' : commit fails (⟨stored, some (f stored).2, c + 1 + n⟩ : Connection Rows) =
            (.ok (), ⟨(f stored).2, none, c + 1 + n + 1⟩) := call_ok hcommit
        rw [bind_ok hrun'] at hbody
        refine .inl ⟨fun i hi => ?_, c + 1 + n + 1, by rw [hbody]; rfl⟩
        rcases i with _ | i
        · exact hbegin
        · rcases Nat.lt_succ_iff_lt_or_eq.mp (Nat.lt_of_succ_lt_succ hi) with hlt | rfl
          · have hrest := hok i hlt
            rwa [show c + 1 + i = c + (i + 1) by omega] at hrest
          · rwa [show c + (i + 1) = c + 1 + i by omega]
      | true =>
        have hrun' : commit fails (⟨stored, some (f stored).2, c + 1 + n⟩ : Connection Rows) =
            (.error (), ⟨stored, some (f stored).2, c + 1 + n + 1⟩) := call_fails hcommit
        rw [bind_error hrun'] at hbody
        exact .inr ⟨⟨n + 1, by omega, by rwa [show c + (n + 1) = c + 1 + n by omega]⟩,
          c + 1 + n + 1, by rw [hbody]⟩
    · have hbody : body ⟨stored, some stored, c + 1⟩ = (.error (), ⟨stored, some rows', c'⟩) :=
        bind_error hx
      exact .inr ⟨⟨i + 1, by omega, by rwa [show c + (i + 1) = c + 1 + i by omega]⟩, c',
        by rw [hbody]⟩

end Database
