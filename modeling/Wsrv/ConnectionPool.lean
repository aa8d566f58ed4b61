import Mathlib
import Wsrv.Lib.Custody

/-!
# The connection pool

`acquireConnection` takes the connection at the front of a queue or waits until
there is one.  It gives a `ConnectionPtr`, whose deleter puts the connection
back.  The pointers are objects of the callers, at places `Var`, and what the
threads do with them comes in any order.
-/

namespace Wsrv

open Function

/-- A connection is named by its number in the loop of the constructor. -/
abbrev XdbConnection := Nat

/-- A `std::unique_ptr` and its deleter. -/
structure ConnectionPtr where
  session : Option XdbConnection := none
  /-- `pool_ptr_` is set. -/
  poolPtr : Bool := false

/-- The pool, the pointers that are alive, and the threads inside of `cv_.wait`, each with the
place of the pointer that it is to return. -/
structure ConnectionPool (Thread Var : Type) where
  pool : List XdbConnection := []
  ptrs : Var → Option ConnectionPtr := fun _ => none
  waiting : Thread → Option Var := fun _ => none

/-- What a thread may do. -/
inductive PoolAct (Thread Var : Type)
  | acquire (t : Thread) (v : Var)
  | wake (t : Thread)
  | default (v : Var)
  | moveConstruct (v w : Var)
  | moveAssign (v w : Var)
  | destroy (v : Var)

namespace ConnectionPool

variable {Thread Var : Type}

/-! ## Operations -/

/-- `ConnectionPool::ConnectionPool` -/
def construct (poolSize : Nat) : ConnectionPool Thread Var :=
  { pool := (List.range poolSize).foldl (fun pool session => pool ++ [session]) [] }

def releaseConnection (session : XdbConnection) (s : ConnectionPool Thread Var) :
    ConnectionPool Thread Var :=
  { s with pool := s.pool ++ [session] }

/-- `ConnectionDeleter`, which is called with a pointer that is not null. -/
def deleter (p : ConnectionPtr) (s : ConnectionPool Thread Var) : ConnectionPool Thread Var :=
  match p.session with
  | some session => if p.poolPtr then s.releaseConnection session else s
  | none => s

section

variable [DecidableEq Thread] [DecidableEq Var]

/-- From the test of the queue: either the thread sleeps, or the call returns. -/
def acquireConnection (t : Thread) (v : Var) (s : ConnectionPool Thread Var) :
    ConnectionPool Thread Var × Option XdbConnection :=
  match s.pool with
  | [] => ({ s with waiting := update s.waiting t (some v) }, none)
  | session :: pool =>
    ({ pool
       ptrs := update s.ptrs v (some ⟨some session, true⟩)
       waiting := update s.waiting t none }, some session)

/-- A pointer is left null, and another one has what it had. -/
def passOn (v w : Var) (p : ConnectionPtr) (s : ConnectionPool Thread Var) :
    ConnectionPool Thread Var :=
  { s with ptrs := update (update s.ptrs v (some { p with session := none })) w (some p) }

/-- One operation, and what a call of `acquireConnection` that completes returns.  An object is
constructed where none is alive, and assigned or destroyed where one is. -/
def step (s : ConnectionPool Thread Var) :
    PoolAct Thread Var → Option (ConnectionPool Thread Var × Option XdbConnection)
  | .acquire t v =>
    match s.waiting t, s.ptrs v with
    | none, none => some (s.acquireConnection t v)
    | _, _ => none
  | .wake t =>
    match s.waiting t with
    | some v =>
      match s.ptrs v with
      | none => some (s.acquireConnection t v)
      | some _ => none
    | none => none
  | .default v =>
    match s.ptrs v with
    | none => some ({ s with ptrs := update s.ptrs v (some {}) }, none)
    | some _ => none
  | .moveConstruct v w =>
    match s.ptrs v, s.ptrs w with
    | some p, none => some (s.passOn v w p, none)
    | _, _ => none
  | .moveAssign v w =>
    match s.ptrs v, s.ptrs w with
    | some p, some q => some (if v = w then s else deleter q (s.passOn v w p), none)
    | _, _ => none
  | .destroy v =>
    match s.ptrs v with
    | some p => some (deleter p { s with ptrs := update s.ptrs v none }, none)
    | none => none

def run : ConnectionPool Thread Var → List (PoolAct Thread Var) → Option (ConnectionPool Thread Var)
  | s, [] => some s
  | s, act :: acts => (s.step act).bind fun r => run r.1 acts

end

/-! ## Owners -/

/-- What the pointer at a place owns. -/
def owned (s : ConnectionPool Thread Var) (v : Var) : Option XdbConnection :=
  (s.ptrs v).bind ConnectionPtr.session

/-- Every connection of the constructor has its place, and every pointer that owns one gives it
back. -/
structure Inv (poolSize : Nat) (s : ConnectionPool Thread Var) : Prop where
  sound : Custody.Sound (· < poolSize) s.pool s.owned
  armed : ∀ v p, s.ptrs v = some p → p.session ≠ none → p.poolPtr = true

variable {poolSize : Nat} {s s' : ConnectionPool Thread Var}

theorem owned_of_ptrs {v : Var} {p : Option ConnectionPtr} (h : s.ptrs v = p) :
    s.owned v = p.bind ConnectionPtr.session := by
  rw [owned, h]

/-! ## One operation -/

theorem construct_pool (poolSize : Nat) :
    (construct poolSize : ConnectionPool Thread Var).pool = List.range poolSize := by
  have hfold : ∀ l acc : List XdbConnection, l.foldl (fun pool session => pool ++ [session]) acc = acc ++ l := by
    intro l
    induction l with
    | nil => exact fun acc => (List.append_nil acc).symm
    | cons c l ih =>
      intro acc
      rw [List.foldl_cons, ih, List.append_assoc, List.singleton_append]
  exact hfold (List.range poolSize) []

theorem Inv.construct (poolSize : Nat) : Inv poolSize (construct poolSize : ConnectionPool Thread Var) where
  sound := by
    have hstart := @Custody.Sound.start XdbConnection Var _ (@List.nodup_range poolSize)
    simp only [List.mem_range] at hstart
    rw [construct_pool]
    exact hstart
  armed := fun _ _ h => nomatch h

theorem deleter_ptrs (q : ConnectionPtr) (s : ConnectionPool Thread Var) :
    (deleter q s).ptrs = s.ptrs := by
  unfold deleter
  split
  · split <;> rfl
  · rfl

variable [DecidableEq Var]

theorem owned_update (ptrs : Var → Option ConnectionPtr) (v : Var) (p : Option ConnectionPtr) :
    (fun x => (update ptrs v p x).bind ConnectionPtr.session) =
      update (fun x => (ptrs x).bind ConnectionPtr.session) v (p.bind ConnectionPtr.session) :=
  funext fun x => apply_update (fun _ (q : Option ConnectionPtr) => q.bind ConnectionPtr.session) ptrs v p x

/-- A pointer at one more place, which is armed. -/
theorem armed_update {ptrs : Var → Option ConnectionPtr} {v : Var} {p : Option ConnectionPtr}
    (h : ∀ x q, ptrs x = some q → q.session ≠ none → q.poolPtr = true)
    (hp : ∀ q, p = some q → q.session ≠ none → q.poolPtr = true) (x : Var) (q : ConnectionPtr)
    (hq : update ptrs v p x = some q) (hsession : q.session ≠ none) : q.poolPtr = true := by
  by_cases hx : x = v
  · subst hx
    rw [update_self] at hq
    exact hp q hq hsession
  · rw [update_of_ne hx] at hq
    exact h x q hq hsession

/-- A pointer that owns nothing is made or goes. -/
theorem Inv.set_null (h : Inv poolSize s) {v : Var} (hv : s.owned v = none) {p : Option ConnectionPtr}
    (hp : p.bind ConnectionPtr.session = none) :
    Inv poolSize { s with ptrs := update s.ptrs v p } := by
  constructor
  · have hsame : update s.owned v none = s.owned := by rw [← hv, update_eq_self]
    change Custody.Sound _ s.pool fun x => (update s.ptrs v _ x).bind _
    rw [owned_update, hp]
    change Custody.Sound _ s.pool (update s.owned v none)
    rw [hsame]
    exact h.sound
  · refine armed_update h.armed fun q hq hsession => ?_
    subst hq
    exact absurd hp hsession

theorem Inv.destroy (h : Inv poolSize s) {v : Var} {p : ConnectionPtr} (hv : s.ptrs v = some p) :
    Inv poolSize (deleter p { s with ptrs := update s.ptrs v none }) := by
  cases hsession : p.session with
  | none =>
    simp only [deleter, hsession]
    exact h.set_null ((owned_of_ptrs hv).trans hsession) rfl
  | some session =>
    have harmed := h.armed v p hv (by rw [hsession]; exact Option.some_ne_none _)
    simp only [deleter, hsession, harmed, if_true, releaseConnection]
    refine ⟨?_, armed_update h.armed fun q hq => nomatch hq⟩
    change Custody.Sound _ (s.pool ++ [session]) fun x => (update s.ptrs v _ x).bind _
    rw [owned_update]
    exact h.sound.give ((owned_of_ptrs hv).trans hsession)

theorem Inv.passOn (h : Inv poolSize s) {v w : Var} {p : ConnectionPtr} (hv : s.ptrs v = some p)
    (hw : s.owned w = none) (hne : w ≠ v) : Inv poolSize (s.passOn v w p) := by
  constructor
  · have hpass := h.sound.pass hw hne
    rw [owned_of_ptrs hv] at hpass
    change Custody.Sound _ s.pool fun x => (update (update s.ptrs v _) w _ x).bind _
    rw [owned_update, owned_update]
    exact hpass
  · refine armed_update (armed_update h.armed fun q hq hsession => ?_) fun q hq => ?_
    · obtain rfl := Option.some.inj hq
      exact absurd rfl hsession
    · obtain rfl := Option.some.inj hq
      exact h.armed v p hv

/-- An assignment is the end of the old pointer and a construction. -/
theorem deleter_passOn (v w : Var) (p q : ConnectionPtr) (hne : v ≠ w) (s : ConnectionPool Thread Var) :
    deleter q (s.passOn v w p) =
      (deleter q { s with ptrs := update s.ptrs w none }).passOn v w p := by
  have hptrs : update (update s.ptrs v (some { p with session := none })) w (some p) =
      update (update (update s.ptrs w none) v (some { p with session := none })) w (some p) := by
    rw [update_comm hne.symm, update_idem]
  unfold deleter
  split
  · split
    · simp only [passOn, releaseConnection, hptrs]
    · simp only [passOn, hptrs]
  · simp only [passOn, hptrs]

theorem Inv.moveAssign (h : Inv poolSize s) {v w : Var} {p q : ConnectionPtr}
    (hv : s.ptrs v = some p) (hw : s.ptrs w = some q) (hne : v ≠ w) :
    Inv poolSize (deleter q (s.passOn v w p)) := by
  rw [deleter_passOn v w p q hne]
  refine (h.destroy hw).passOn ?_ ?_ hne.symm
  · rw [deleter_ptrs]
    exact (update_of_ne hne _ _).trans hv
  · rw [owned, deleter_ptrs]
    exact congrArg (Option.bind · _) (update_self w none s.ptrs)

variable [DecidableEq Thread]

/-- Either nothing changes but the thread, or the front of the queue goes to a new pointer. -/
theorem acquire_cases (t : Thread) (v : Var) (s : ConnectionPool Thread Var) :
    (∃ waiting, s.acquireConnection t v = ({ s with waiting }, none)) ∨
      ∃ session pool waiting, s.pool = session :: pool ∧
        s.acquireConnection t v =
          ({ pool, ptrs := update s.ptrs v (some ⟨some session, true⟩), waiting }, some session) := by
  unfold acquireConnection
  cases hpool : s.pool with
  | nil => exact .inl ⟨_, rfl⟩
  | cons session pool => exact .inr ⟨session, pool, _, rfl, rfl⟩

theorem Inv.acquire (h : Inv poolSize s) (t : Thread) {v : Var} (hv : s.ptrs v = none) :
    Inv poolSize (s.acquireConnection t v).1 := by
  rcases acquire_cases t v s with ⟨waiting, hrun⟩ | ⟨session, pool, waiting, hpool, hrun⟩
  · rw [hrun]
    exact ⟨h.sound, h.armed⟩
  · rw [hrun]
    refine ⟨?_, armed_update h.armed fun q hq _ => by rw [← Option.some.inj hq]⟩
    have hsound := h.sound
    rw [hpool] at hsound
    have htake := hsound.take (owned_of_ptrs hv)
    change Custody.Sound _ pool fun x => (update s.ptrs v _ x).bind _
    rw [owned_update]
    exact htake

/-- **Every operation keeps every connection in its place.** -/
theorem Inv.step (h : Inv poolSize s) {act : PoolAct Thread Var} {ret : Option XdbConnection}
    (hstep : s.step act = some (s', ret)) : Inv poolSize s' := by
  unfold ConnectionPool.step at hstep
  cases act with
  | acquire t v =>
    simp only at hstep
    split at hstep
    · next hwaiting hv =>
      have hacquire := h.acquire t hv
      rwa [Option.some.inj hstep] at hacquire
    · exact nomatch hstep
  | wake t =>
    simp only at hstep
    split at hstep
    · next v hwaiting =>
      split at hstep
      · next hv =>
        have hacquire := h.acquire t hv
        rwa [Option.some.inj hstep] at hacquire
      · exact nomatch hstep
    · exact nomatch hstep
  | default v =>
    simp only at hstep
    split at hstep
    · next hv =>
      obtain ⟨rfl, -⟩ := Prod.mk.inj (Option.some.inj hstep)
      exact h.set_null (owned_of_ptrs hv) rfl
    · exact nomatch hstep
  | moveConstruct v w =>
    simp only at hstep
    split at hstep
    · next p hv hw =>
      obtain ⟨rfl, -⟩ := Prod.mk.inj (Option.some.inj hstep)
      refine h.passOn hv (owned_of_ptrs hw) fun hwv => ?_
      rw [hwv, hv] at hw
      exact nomatch hw
    · exact nomatch hstep
  | moveAssign v w =>
    simp only at hstep
    split at hstep
    · next p q hv hw =>
      obtain ⟨rfl, -⟩ := Prod.mk.inj (Option.some.inj hstep)
      split
      · exact h
      · next hne => exact h.moveAssign hv hw hne
    · exact nomatch hstep
  | destroy v =>
    simp only at hstep
    split at hstep
    · next p hv =>
      obtain ⟨rfl, -⟩ := Prod.mk.inj (Option.some.inj hstep)
      exact h.destroy hv
    · exact nomatch hstep

theorem Inv.run (h : Inv poolSize s) {acts : List (PoolAct Thread Var)} (hrun : s.run acts = some s') :
    Inv poolSize s' := by
  induction acts generalizing s with
  | nil =>
    obtain rfl := Option.some.inj hrun
    exact h
  | cons act acts ih =>
    obtain ⟨⟨s₁, ret⟩, hstep, hrun⟩ := Option.bind_eq_some_iff.mp hrun
    exact ih (h.step hstep) hrun

/-! ## What a caller has -/

/-- The connection of a call that returns was in the queue, and the new pointer has it. -/
theorem acquire_returns {t : Thread} {v : Var} {c : XdbConnection}
    (h : s.acquireConnection t v = (s', some c)) :
    c ∈ s.pool ∧ s'.ptrs = update s.ptrs v (some ⟨some c, true⟩) := by
  rcases acquire_cases t v s with ⟨waiting, hrun⟩ | ⟨session, pool, waiting, hpool, hrun⟩
  · exact nomatch (Prod.mk.inj (hrun.symm.trans h)).2
  · obtain ⟨rfl, hc⟩ := Prod.mk.inj (hrun.symm.trans h)
    obtain rfl := Option.some.inj hc
    exact ⟨hpool ▸ List.mem_cons_self, rfl⟩

theorem step_returns {act : PoolAct Thread Var} {c : XdbConnection} (h : s.step act = some (s', some c)) :
    ∃ v, s.ptrs v = none ∧ c ∈ s.pool ∧ s'.ptrs = update s.ptrs v (some ⟨some c, true⟩) := by
  unfold ConnectionPool.step at h
  cases act with
  | acquire t v =>
    simp only at h
    split at h
    · next hwaiting hv => exact ⟨v, hv, acquire_returns (Option.some.inj h)⟩
    · exact nomatch h
  | wake t =>
    simp only at h
    split at h
    · next v hwaiting =>
      split at h
      · next hv => exact ⟨v, hv, acquire_returns (Option.some.inj h)⟩
      · exact nomatch h
    · exact nomatch h
  | default v =>
    simp only at h
    split at h <;> exact nomatch h
  | moveConstruct v w =>
    simp only at h
    split at h <;> exact nomatch h
  | moveAssign v w =>
    simp only at h
    split at h <;> exact nomatch h
  | destroy v =>
    simp only at h
    split at h <;> exact nomatch h

/-- **Exclusive.** A connection is in the queue once and owned by no pointer, or it is not in the
queue and owned by one. -/
def Exclusive (s : ConnectionPool Thread Var) (c : XdbConnection) : Prop :=
  (s.pool.count c = 1 ∧ ∀ v, s.owned v ≠ some c) ∨ (s.pool.count c = 0 ∧ ∃! v, s.owned v = some c)

/-- **Whatever the threads do**, every connection is exclusive, and a call that returns one gives
it to a pointer that did not exist and is its only owner. -/
theorem pool_exclusive {poolSize : Nat} {acts : List (PoolAct Thread Var)}
    {s : ConnectionPool Thread Var} (h : (construct poolSize).run acts = some s) :
    (∀ c < poolSize, s.Exclusive c) ∧
      ∀ act s' c, s.step act = some (s', some c) →
        (∀ v, s.owned v ≠ some c) ∧
          ∃ v, s.ptrs v = none ∧ s'.owned v = some c ∧ ∀ w, s'.owned w = some c → w = v := by
  have hinv := (Inv.construct poolSize).run h
  refine ⟨fun c hc => hinv.sound.exclusive hc, fun act s' c hstep => ?_⟩
  obtain ⟨v, hv, hc, hptrs⟩ := step_returns hstep
  have hfree : ∀ w, s.owned w ≠ some c := fun w hw => hinv.sound.apart w c hw hc
  refine ⟨hfree, v, hv, by rw [owned, hptrs, update_self]; rfl, fun w hw => ?_⟩
  by_contra hne
  rw [owned, hptrs, update_of_ne hne] at hw
  exact hfree w hw

/-- Two threads and one connection: the second waits until the pointer of the first, which was
moved, is gone. -/
theorem pool_exclusive_one :
    ∃ s : ConnectionPool Nat Nat,
      (construct 1).run [.acquire 0 0, .acquire 1 1, .moveConstruct 0 2, .destroy 2, .wake 1] = some s ∧
        (∀ c < 1, s.Exclusive c) :=
  ⟨_, rfl, (@pool_exclusive Nat Nat _ _ 1
    [.acquire 0 0, .acquire 1 1, .moveConstruct 0 2, .destroy 2, .wake 1] _ rfl).1⟩

end ConnectionPool

end Wsrv
