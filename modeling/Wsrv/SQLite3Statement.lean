import Wsrv.Text
import Wsrv.Lib.Effect

/-!
# The statements of the session storage

Every operation of `SQLite3SessionStorage` prepares one statement, binds its
parameters, makes one step and finalizes the statement.  `finalize` stands at
the end of the function, behind every exception but the last one of `contains`,
so that a bind or a step that fails leaves the statement (`finalized_iff`).

Here the operations are seen from the side of the library: what is called, in
which order, and what every call returns.
-/

namespace Wsrv.SQLite3.Statement

/-! ## The library -/

def SQLITE_OK : Int := 0
def SQLITE_BUSY : Int := 5
def SQLITE_ROW : Int := 100
def SQLITE_DONE : Int := 101

/-- A call of the library; the statement is the number that `sqlite3_prepare_v2` has given it. -/
inductive Call
  | prepare (stmt : Nat) (sql : Str)
  | bindText (stmt : Nat) (index : Nat) (text : Str)
  | bindBlob (stmt : Nat) (index : Nat) (data : Str)
  | bindInt64 (stmt : Nat) (index : Nat) (value : Int)
  | step (stmt : Nat)
  | columnBlob (stmt : Nat) (column : Nat)
  | finalize (stmt : Nat)
  deriving DecidableEq, Repr

/-- What the calls return: the result codes, the blobs of the rows, and the texts of the errors. -/
structure Library where
  rc : Call → Int
  blob : Nat → Nat → Str
  errmsg : List Call → Str

/-- The calls so far, and the number of the next statement. -/
structure Connection where
  next : Nat
  calls : List Call := []

/-- `SQLite3SessionStorageException`. -/
structure StorageException where
  msg : Str
  deriving DecidableEq, Repr

abbrev Storage := Effect Connection StorageException

variable (lib : Library)

/-- A call with a result code. -/
def call (c : Call) : Storage Int := do
  modify fun s => { s with calls := s.calls ++ [c] }
  return lib.rc c

/-- `throw SQLite3SessionStorageException(msg, handle_)`. -/
def raise {α : Type} (msg : String) : Storage α := do
  throw ⟨str msg ++ str ": " ++ lib.errmsg (← get).calls⟩

/-- `sqlite3_prepare_v2`, which has to succeed. -/
def prepare (sql : String) : Storage Nat := do
  let stmt := (← get).next
  if (← call lib (.prepare stmt (str sql))) ≠ SQLITE_OK then raise lib "Error executing sql command"
  else
    modify fun s => { s with next := stmt + 1 }
    return stmt

/-- The operands of `||` over the binds: whether one of them fails. -/
def anyFails : List Call → Storage Bool
  | [] => return false
  | b :: bs => do
    if (← call lib b) ≠ SQLITE_OK then return true else anyFails bs

def bindAll (binds : List Call) : Storage Unit := do
  if ← anyFails lib binds then raise lib "Error executing sql prepared statement bind command"
  else return ()

/-- What four of the operations do: a step with the result `expected`, and `result` of it. -/
def execute {α : Type} (sql : String) (binds : Nat → List Call) (expected : Int) (msg : String)
    (result : Nat → Storage α) : Storage α := do
  let stmt ← prepare lib sql
  bindAll lib (binds stmt)
  if (← call lib (.step stmt)) ≠ expected then raise lib msg
  else
    let a ← result stmt
    let _ ← call lib (.finalize stmt)
    return a

/-! ## The operations -/

/-- `SQLite3SessionStorage::writeSessionData`; `now` is the time of the system clock. -/
def writeSessionData (now : Int) (id data : Str) (sessionExpiration : Int) : Storage Unit :=
  execute lib "REPLACE INTO sessions (sid, data, ts) VALUES (?, ?, ?)"
    (fun stmt => [.bindText stmt 1 id, .bindBlob stmt 2 data,
      .bindInt64 stmt 3 (now + sessionExpiration)])
    SQLITE_DONE "Error writing session data" fun _ => pure ()

/-- `SQLite3SessionStorage::remove`. -/
def remove (id : Str) : Storage Unit :=
  execute lib "DELETE FROM sessions WHERE sid = ?" (fun stmt => [.bindText stmt 1 id])
    SQLITE_DONE "Error writing session data" fun _ => pure ()

/-- `SQLite3SessionStorage::readSessionData`: what is assigned to `data`. -/
def readSessionData (id : Str) : Storage Str :=
  execute lib "SELECT data FROM sessions WHERE sid = ? LIMIT 1" (fun stmt => [.bindText stmt 1 id])
    SQLITE_ROW "Error reading session data" fun stmt => do
      let _ ← call lib (.columnBlob stmt 0)
      return lib.blob stmt 0

/-- `SQLite3SessionStorage::deleteSessions`. -/
def deleteSessions (t : Int) : Storage Unit :=
  execute lib "DELETE FROM sessions WHERE ts < ?" (fun stmt => [.bindInt64 stmt 1 t])
    SQLITE_DONE "Error deleting session data" fun _ => pure ()

/-- `SQLite3SessionStorage::contains`, which finalizes before it looks at the result. -/
def contains (id : Str) (sessionExpiration : Int) : Storage Bool := do
  let stmt ← prepare lib "SELECT sid FROM sessions WHERE sid = ? AND ts > ? LIMIT 1"
  bindAll lib [.bindText stmt 1 id]
  bindAll lib [.bindInt64 stmt 2 sessionExpiration]
  let rc ← call lib (.step stmt)
  let _ ← call lib (.finalize stmt)
  if rc = SQLITE_DONE then return false
  else if rc = SQLITE_ROW then return true
  else raise lib "Error quering session data"

/-- The operations and their arguments. -/
inductive Operation
  | writeSessionData (now : Int) (id data : Str) (sessionExpiration : Int)
  | remove (id : Str)
  | readSessionData (id : Str)
  | deleteSessions (t : Int)
  | contains (id : Str) (sessionExpiration : Int)

namespace Operation

/-- What the library is called with when the operation has returned or thrown. -/
def calls (op : Operation) (stmt : Nat) : List Call :=
  match op with
  | writeSessionData now id data sessionExpiration =>
    (Statement.writeSessionData lib now id data sessionExpiration ⟨stmt, []⟩).2.calls
  | remove id => (Statement.remove lib id ⟨stmt, []⟩).2.calls
  | readSessionData id => (Statement.readSessionData lib id ⟨stmt, []⟩).2.calls
  | deleteSessions t => (Statement.deleteSessions lib t ⟨stmt, []⟩).2.calls
  | contains id sessionExpiration =>
    (Statement.contains lib id sessionExpiration ⟨stmt, []⟩).2.calls

/-- The statement of the operation. -/
def sql : Operation → String
  | writeSessionData .. => "REPLACE INTO sessions (sid, data, ts) VALUES (?, ?, ?)"
  | remove _ => "DELETE FROM sessions WHERE sid = ?"
  | readSessionData _ => "SELECT data FROM sessions WHERE sid = ? LIMIT 1"
  | deleteSessions _ => "DELETE FROM sessions WHERE ts < ?"
  | contains .. => "SELECT sid FROM sessions WHERE sid = ? AND ts > ? LIMIT 1"

/-- The binds of the operation. -/
def binds (op : Operation) (stmt : Nat) : List Call :=
  match op with
  | writeSessionData now id data sessionExpiration =>
    [.bindText stmt 1 id, .bindBlob stmt 2 data, .bindInt64 stmt 3 (now + sessionExpiration)]
  | remove id => [.bindText stmt 1 id]
  | readSessionData id => [.bindText stmt 1 id]
  | deleteSessions t => [.bindInt64 stmt 1 t]
  | contains id sessionExpiration =>
    [.bindText stmt 1 id, .bindInt64 stmt 2 sessionExpiration]

/-- The result of the step without which the operation throws before it finalizes. -/
def expected : Operation → Option Int
  | writeSessionData .. | remove _ | deleteSessions _ => some SQLITE_DONE
  | readSessionData _ => some SQLITE_ROW
  | contains .. => none

end Operation

/-- Every statement that was prepared is finalized, once. -/
def Finalized (calls : List Call) : Prop :=
  ∀ stmt sql, Call.prepare stmt sql ∈ calls → lib.rc (.prepare stmt sql) = SQLITE_OK →
    calls.count (.finalize stmt) = 1

/-- The binds succeed, and the step returns what the operation expects. -/
def Operation.Succeeds (op : Operation) (stmt : Nat) : Prop :=
  (∀ b ∈ op.binds stmt, lib.rc b = SQLITE_OK) ∧ ∀ rc ∈ op.expected, lib.rc (.step stmt) = rc

/-! ## The calls of an operation -/

section

variable {lib} {stmt : Nat} {cs : List Call}

theorem call_run (c : Call) (s : Connection) :
    call lib c s = (.ok (lib.rc c), { s with calls := s.calls ++ [c] }) := rfl

theorem raise_run {α : Type} (msg : String) (s : Connection) :
    (raise lib msg : Storage α) s = (.error ⟨str msg ++ str ": " ++ lib.errmsg s.calls⟩, s) := rfl

theorem prepare_run (sql : String) (stmt : Nat) :
    (lib.rc (.prepare stmt (str sql)) = SQLITE_OK ∧
      prepare lib sql ⟨stmt, []⟩ = (.ok stmt, ⟨stmt + 1, [.prepare stmt (str sql)]⟩)) ∨
    (lib.rc (.prepare stmt (str sql)) ≠ SQLITE_OK ∧
      ∃ e, prepare lib sql ⟨stmt, []⟩ = (.error e, ⟨stmt, [.prepare stmt (str sql)]⟩)) := by
  unfold prepare
  rw [Effect.bind_ok (Effect.get_run _), Effect.bind_ok (call_run _ _)]
  by_cases hrc : lib.rc (.prepare stmt (str sql)) = SQLITE_OK
  · refine .inl ⟨hrc, ?_⟩
    rw [if_neg (not_not.mpr hrc)]
    rfl
  · refine .inr ⟨hrc, ?_⟩
    rw [if_pos hrc]
    exact ⟨_, rfl⟩

/-- A call that neither prepares nor finalizes. -/
def Plain : Call → Prop
  | .prepare .. | .finalize _ => False
  | _ => True

/-- The binds are made in order, up to the first that fails. -/
theorem anyFails_run (bs : List Call) (s : Connection) :
    ∃ made, anyFails lib bs s =
        (.ok (decide (∃ b ∈ bs, lib.rc b ≠ SQLITE_OK)), { s with calls := s.calls ++ made }) ∧
      ∀ c ∈ made, c ∈ bs := by
  induction bs generalizing s with
  | nil => exact ⟨[], by simp [anyFails], by simp⟩
  | cons b bs ih =>
    unfold anyFails
    rw [Effect.bind_ok (call_run b s)]
    by_cases hrc : lib.rc b = SQLITE_OK
    · rw [if_neg (not_not.mpr hrc)]
      obtain ⟨made, hrun, hmade⟩ := ih { s with calls := s.calls ++ [b] }
      refine ⟨b :: made, ?_, fun c hc => ?_⟩
      · rw [hrun]
        simp [hrc]
      · rcases List.mem_cons.mp hc with rfl | hc
        · exact List.mem_cons_self
        · exact List.mem_cons_of_mem _ (hmade c hc)
    · rw [if_pos hrc]
      exact ⟨[b], by simp [hrc], by simp⟩

theorem bindAll_run (bs : List Call) (hbs : ∀ b ∈ bs, Plain b) (s : Connection) :
    ∃ made, (∀ c ∈ made, Plain c) ∧
      (((∀ b ∈ bs, lib.rc b = SQLITE_OK) ∧
          bindAll lib bs s = (.ok (), { s with calls := s.calls ++ made })) ∨
        ((¬ ∀ b ∈ bs, lib.rc b = SQLITE_OK) ∧
          ∃ e, bindAll lib bs s = (.error e, { s with calls := s.calls ++ made }))) := by
  obtain ⟨made, hrun, hmade⟩ := @anyFails_run lib bs s
  refine ⟨made, fun c hc => hbs c (hmade c hc), ?_⟩
  unfold bindAll
  rw [Effect.bind_ok hrun]
  by_cases hall : ∀ b ∈ bs, lib.rc b = SQLITE_OK
  · refine .inl ⟨hall, ?_⟩
    rw [if_neg (by simpa using hall)]
    rfl
  · refine .inr ⟨hall, ?_⟩
    rw [if_pos (by simpa using hall)]
    exact ⟨_, rfl⟩

theorem count_finalize_plain (hcs : ∀ c ∈ cs, Plain c) : cs.count (.finalize stmt) = 0 :=
  List.count_eq_zero.mpr fun hmem => hcs _ hmem

/-- What an operation on the statement `stmt` calls: it is prepared, and behind that finalized once
exactly where `ok` holds. -/
def Runs (lib : Library) (stmt : Nat) (sql : String) (ok : Prop) (calls : List Call) : Prop :=
  ∃ rest, calls = .prepare stmt (str sql) :: rest ∧ (∀ stmt' sql', Call.prepare stmt' sql' ∉ rest) ∧
    (lib.rc (.prepare stmt (str sql)) = SQLITE_OK → (rest.count (.finalize stmt) = 1 ↔ ok))

theorem Runs.closes_iff {sql : String} {ok : Prop} (h : Runs lib stmt sql ok cs) :
    Finalized lib cs ↔ (lib.rc (.prepare stmt (str sql)) = SQLITE_OK → ok) := by
  obtain ⟨rest, rfl, hrest, hok⟩ := h
  have hcount : ∀ stmt', (Call.prepare stmt (str sql) :: rest).count (.finalize stmt') =
      rest.count (.finalize stmt') := by
    intro stmt'
    exact List.count_cons_of_ne (by simp)
  constructor
  · intro hfin hrc
    have hone := hfin stmt (str sql) List.mem_cons_self hrc
    rw [hcount] at hone
    exact (hok hrc).mp hone
  · intro h stmt' sql' hmem hrc
    rcases List.mem_cons.mp hmem with heq | hmem
    · cases heq
      rw [hcount]
      exact (hok hrc).mpr (h hrc)
    · exact absurd hmem (hrest stmt' sql')

/-- The calls behind `prepare`, where only `closing` prepares or finalizes. -/
theorem Runs.of_calls {sql : String} {ok : Prop} {made closing : List Call}
    (hmade : ∀ c ∈ made, Plain c) (hclosing : ∀ stmt' sql', Call.prepare stmt' sql' ∉ closing)
    (hok : lib.rc (.prepare stmt (str sql)) = SQLITE_OK → (closing.count (.finalize stmt) = 1 ↔ ok)) :
    Runs lib stmt sql ok (.prepare stmt (str sql) :: (made ++ closing)) := by
  refine ⟨made ++ closing, rfl, fun stmt' sql' hmem => ?_, fun hrc => ?_⟩
  · rcases List.mem_append.mp hmem with hmem | hmem
    · exact hmade _ hmem
    · exact hclosing stmt' sql' hmem
  · rw [List.count_append, count_finalize_plain hmade, Nat.zero_add]
    exact hok hrc

/-- Nothing finalizes the statement. -/
theorem Runs.never {sql : String} {ok : Prop} {made : List Call} (hmade : ∀ c ∈ made, Plain c)
    (hok : lib.rc (.prepare stmt (str sql)) = SQLITE_OK → ¬ ok) :
    Runs lib stmt sql ok (.prepare stmt (str sql) :: made) := by
  have h := @Runs.of_calls lib stmt sql ok made [] hmade (by simp) fun hrc => by simpa using hok hrc
  rwa [List.append_nil] at h

/-- **The four operations** finalize where the binds succeed and the step is as expected. -/
theorem execute_calls {α : Type} {sql : String} {binds : Nat → List Call} {expected : Int}
    {msg : String} {result : Nat → Storage α} (hbinds : ∀ b ∈ binds stmt, Plain b)
    (hresult : ∀ s, ∃ a made, result stmt s = (.ok a, { s with calls := s.calls ++ made }) ∧
      ∀ c ∈ made, Plain c) :
    Runs lib stmt sql ((∀ b ∈ binds stmt, lib.rc b = SQLITE_OK) ∧ lib.rc (.step stmt) = expected)
      (execute lib sql binds expected msg result ⟨stmt, []⟩).2.calls := by
  unfold execute
  rcases @prepare_run lib sql stmt with ⟨-, hrun⟩ | ⟨hrc, e, hrun⟩
  · rw [Effect.bind_ok hrun]
    obtain ⟨made, hmade, ⟨hall, hbind⟩ | ⟨hall, e, hbind⟩⟩ :=
      @bindAll_run lib (binds stmt) hbinds ⟨stmt + 1, [.prepare stmt (str sql)]⟩
    · rw [Effect.bind_ok hbind, Effect.bind_ok (call_run _ _)]
      have hstep : ∀ c ∈ made ++ [.step stmt], Plain c := by
        intro c hc
        rcases List.mem_append.mp hc with hc | hc
        · exact hmade c hc
        · rw [List.mem_singleton.mp hc]
          trivial
      by_cases hexpected : lib.rc (.step stmt) = expected
      · rw [if_neg (not_not.mpr hexpected)]
        obtain ⟨a, more, hres, hmore⟩ := hresult
          ⟨stmt + 1, [.prepare stmt (str sql)] ++ made ++ [.step stmt]⟩
        have hplain : ∀ c ∈ made ++ [.step stmt] ++ more, Plain c := by
          intro c hc
          rcases List.mem_append.mp hc with hc | hc
          · exact hstep c hc
          · exact hmore c hc
        rw [Effect.bind_ok hres, Effect.bind_ok (call_run _ _)]
        have hclosed := @Runs.of_calls lib stmt sql ((∀ b ∈ binds stmt, lib.rc b = SQLITE_OK) ∧
          lib.rc (.step stmt) = expected) _ [.finalize stmt] hplain (by simp)
          fun _ => by simpa using ⟨hall, hexpected⟩
        simpa using hclosed
      · rw [if_pos hexpected, raise_run]
        simpa using Runs.never hstep fun _ hok => hexpected hok.2
    · rw [Effect.bind_error hbind]
      simpa using Runs.never hmade fun _ hok => hall hok.1
  · rw [Effect.bind_error hrun]
    simpa using @Runs.never lib stmt sql _ [] (by simp) fun hok => absurd hok hrc

/-- `contains` finalizes where the binds succeed, whatever the step returns. -/
theorem contains_calls (id : Str) (sessionExpiration : Int) :
    Runs lib stmt "SELECT sid FROM sessions WHERE sid = ? AND ts > ? LIMIT 1"
      (lib.rc (.bindText stmt 1 id) = SQLITE_OK ∧ lib.rc (.bindInt64 stmt 2 sessionExpiration) = SQLITE_OK)
      (contains lib id sessionExpiration ⟨stmt, []⟩).2.calls := by
  unfold contains
  generalize hsql : "SELECT sid FROM sessions WHERE sid = ? AND ts > ? LIMIT 1" = sql
  rcases @prepare_run lib sql stmt with ⟨-, hrun⟩ | ⟨hrc, e, hrun⟩
  · rw [Effect.bind_ok hrun]
    obtain ⟨made, hmade, ⟨hall, hbind⟩ | ⟨hall, e, hbind⟩⟩ :=
      @bindAll_run lib [.bindText stmt 1 id] (by simp [Plain]) ⟨stmt + 1, [.prepare stmt (str sql)]⟩
    · rw [Effect.bind_ok hbind]
      obtain ⟨made', hmade', ⟨hall', hbind'⟩ | ⟨hall', e, hbind'⟩⟩ :=
        @bindAll_run lib [.bindInt64 stmt 2 sessionExpiration] (by simp [Plain])
          ⟨stmt + 1, [.prepare stmt (str sql)] ++ made⟩
      · rw [Effect.bind_ok hbind', Effect.bind_ok (call_run _ _), Effect.bind_ok (call_run _ _)]
        have hplain : ∀ c ∈ made ++ made' ++ [.step stmt], Plain c := by
          simp only [List.mem_append, List.mem_singleton]
          rintro c ((hc | hc) | rfl)
          · exact hmade c hc
          · exact hmade' c hc
          · trivial
        have hclosed := @Runs.of_calls lib stmt sql (lib.rc (.bindText stmt 1 id) = SQLITE_OK ∧
          lib.rc (.bindInt64 stmt 2 sessionExpiration) = SQLITE_OK) _ [.finalize stmt] hplain (by simp)
          fun _ => by
            simpa using show _ ∧ _ from ⟨hall _ (List.mem_singleton.mpr rfl),
              hall' _ (List.mem_singleton.mpr rfl)⟩
        -- the exception that is thrown behind the last call adds none
        split_ifs <;> simpa [raise_run] using hclosed
      · rw [Effect.bind_error hbind']
        have hplain : ∀ c ∈ made ++ made', Plain c := by
          intro c hc
          exact (List.mem_append.mp hc).elim (hmade c) (hmade' c)
        simpa using Runs.never hplain fun _ hok => hall' (by simpa using hok.2)
    · rw [Effect.bind_error hbind]
      simpa using Runs.never hmade fun _ hok => hall (by simpa using hok.1)
  · rw [Effect.bind_error hrun]
    simpa using @Runs.never lib stmt sql _ [] (by simp) fun hok => absurd hok hrc

end

/-- **No statement leaks** exactly where the statement could not be prepared, or its binds succeed and
the step returns what the operation expects. -/
theorem finalized_iff (op : Operation) (stmt : Nat) :
    Finalized lib (op.calls lib stmt) ↔
      (lib.rc (.prepare stmt (str op.sql)) = SQLITE_OK → op.Succeeds lib stmt) := by
  have hplain : ∀ b ∈ op.binds stmt, Plain b := by
    cases op <;> simp [Operation.binds, Plain]
  have hnothing : ∀ s : Connection, ∃ a made, (pure () : Storage Unit) s =
      (.ok a, { s with calls := s.calls ++ made }) ∧ ∀ c ∈ made, Plain c := by
    intro s
    exact ⟨(), [], by simp, by simp⟩
  have hsome : ∀ rc : Int, (∀ rc' ∈ some rc, lib.rc (.step stmt) = rc') ↔ lib.rc (.step stmt) = rc := by
    simp
  cases op with
  | writeSessionData now id data sessionExpiration =>
    rw [Operation.Succeeds, Operation.expected, hsome]
    exact (execute_calls hplain hnothing).closes_iff
  | remove id =>
    rw [Operation.Succeeds, Operation.expected, hsome]
    exact (execute_calls hplain hnothing).closes_iff
  | readSessionData id =>
    rw [Operation.Succeeds, Operation.expected, hsome]
    refine (execute_calls hplain fun s => ?_).closes_iff
    exact ⟨_, [.columnBlob stmt 0], rfl, by simp [Plain]⟩
  | deleteSessions t =>
    rw [Operation.Succeeds, Operation.expected, hsome]
    exact (execute_calls hplain hnothing).closes_iff
  | contains id sessionExpiration =>
    have hboth : (Operation.contains id sessionExpiration).Succeeds lib stmt ↔
        lib.rc (.bindText stmt 1 id) = SQLITE_OK ∧
          lib.rc (.bindInt64 stmt 2 sessionExpiration) = SQLITE_OK := by
      simp [Operation.Succeeds, Operation.expected, Operation.binds]
    rw [hboth]
    exact (contains_calls id sessionExpiration).closes_iff

/-- A database that another connection has locked. -/
def locked : Library where
  rc
    | .step _ => SQLITE_BUSY
    | _ => SQLITE_OK
  blob _ _ := []
  errmsg _ := str "database is locked"

theorem locked_leaks : ¬ Finalized locked ((Operation.remove (str "sid")).calls locked 1) := by
  intro h
  have hcalls : (Operation.remove (str "sid")).calls locked 1 =
      [.prepare 1 (str "DELETE FROM sessions WHERE sid = ?"), .bindText 1 1 (str "sid"), .step 1] := rfl
  rw [hcalls] at h
  have hone := h 1 (str "DELETE FROM sessions WHERE sid = ?") List.mem_cons_self rfl
  exact absurd hone (by decide +kernel)

end Wsrv.SQLite3.Statement
