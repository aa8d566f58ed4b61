import Wsrv.Session
import Wsrv.SessionData

/-!
# The session store

`SQLite3SessionManager` keeps the sessions as rows of a table: the id, the
serialised dictionary and the second it expires.  The world also holds what the
manager takes from outside: the clock, the draws of the garbage collector, the
random codes of the session ids, and the faults of the SQL statements.

When no statement fails, every call leaves alone the rows that are not expired,
except for the row that is written or removed (`Keeps`): `gc_spec`,
`contains_spec`, `uniqueSID_spec`, `read_spec`, `write_spec`, `remove_spec`.
-/

namespace Wsrv

namespace SQLite3

open SessionData

/-! ## `SQLite3SessionStorage` -/

/-- A row of the table `sessions`, whose primary key is the `sid`. -/
structure Row where
  data : Str
  ts : Int
  deriving DecidableEq

/-- Where an SQL statement fails, with the text of `sqlite3_errmsg`. -/
inductive Fault
  | prepare (errmsg : Str)
  | bind (errmsg : Str)
  | step (errmsg : Str)

structure World where
  sessions : Std.ExtTreeMap Str Row
  clock : Int
  /-- The draws from `uniform_dist(1, 1000)` to come. -/
  gcDraws : Nat → Nat
  /-- The results of `encodeBase64(randomBytes(32))` to come. -/
  codes : Nat → Str
  /-- The faults of the statements to come. -/
  faults : Nat → Option Fault
  /-- What is in the memory of a local variable that is not initialised. -/
  junk : Nat

/-- `SQLite3SessionStorageException`, a `std::runtime_error`. -/
def storageException (msg errmsg : Str) : Exception := .runtimeError (msg ++ str ": " ++ errmsg)

def Fault.exception (stepMsg : Str) : Fault → Exception
  | .prepare errmsg => storageException (str "Error executing sql command") errmsg
  | .bind errmsg =>
    storageException (str "Error executing sql prepared statement bind command") errmsg
  | .step errmsg => storageException stepMsg errmsg

/-- Prepare, bind and step one statement.  Where it does not fail, `effect` is what it does. -/
def statement {α : Type} (stepMsg : Str) (effect : World → α × World) : Action World α := fun w =>
  let w' := { w with faults := fun n => w.faults (n + 1) }
  match w.faults 0 with
  | some fault => (.error (fault.exception stepMsg), w')
  | none => ((.ok (effect w').1), (effect w').2)

def writeSessionData (id data : Str) (sessionExpiration : Int) : Action World Unit :=
  statement (str "Error writing session data") fun w =>
    ((), { w with sessions := w.sessions.insert id ⟨data, w.clock + sessionExpiration⟩ })

def removeSession (id : Str) : Action World Unit :=
  statement (str "Error writing session data") fun w =>
    ((), { w with sessions := w.sessions.erase id })

/-- A step that finds no row is an error too. -/
def readSessionData (id : Str) : Action World Str := do
  match ← statement (str "Error reading session data") fun w => (w.sessions[id]?, w) with
  | some row => return row.data
  | none =>
    throw (storageException (str "Error reading session data") (str "no more rows available"))

def deleteSessions (t : Int) : Action World Unit :=
  statement (str "Error deleting session data") fun w =>
    ((), { w with sessions := w.sessions.filter fun _ row => !decide (row.ts < t) })

def containsSession (id : Str) (sessionExpiration : Int) : Action World Bool :=
  statement (str "Error quering session data") fun w =>
    ((w.sessions[id]?).any fun row => decide (row.ts > sessionExpiration), w)

/-! ## `SQLite3SessionManager` -/

/-- What is thrown by the storage becomes `false`. -/
def caught (x : Action World Unit) (w : World) : Bool × World :=
  match x w with
  | (.ok _, w) => (true, w)
  | (.error _, w) => (false, w)

def gc : Action World Unit := fun w =>
  let p := w.gcDraws 0
  let w := { w with gcDraws := fun n => w.gcDraws (n + 1) }
  if p ≤ 1 then deleteSessions w.clock w else (.ok (), w)

/-- `generateSID` -/
def generateSID (w : World) : Str × World :=
  ((w.codes 0).map fun c => if isalnum c then c else '-'.toUInt8,
    { w with codes := fun n => w.codes (n + 1) })

/-- `contains` -/
def contains (id : Str) : Action World Bool := fun w => containsSession id w.clock w

/-- The loop of `uniqueSID`. -/
def trySID : Nat → Action World Str
  | 0 => pure []
  | tries + 1 => fun w =>
    let (sid, w) := generateSID w
    if sid = [] then trySID tries w
    else (contains sid >>= fun found => if found then trySID tries else pure sid) w

def uniqueSID : Action World Str := trySID 4

/-- `write` -/
def write (host : Endian) (lifetime : Int) (id : Str) (data : Dictionary) : World → Bool × World :=
  caught (writeSessionData id (serializeData host data) lifetime)

/-- `remove` -/
def remove (id : Str) : World → Bool × World := caught (removeSession id)

/-- `read`, which collects garbage when it has read. -/
def read (host : Endian) (id : Str) : Action World (Bool × Dictionary) := fun w =>
  match readSessionData id w with
  | (.error _, w) => (.ok (false, ∅), w)
  | (.ok data, w) =>
    (gc >>= fun _ => pure (true, deserializeData host w.junk data ∅)) w

/-- `SQLite3SessionManager` on a host, with its settings. -/
def manager (host : Endian) (settings : SessionSettings) : SessionManager World :=
  { settings with
    openStore := gc >>= fun _ => pure true
    closeStore := fun w => (true, w)
    write := write host settings.sessionIdLifetime
    read := read host
    uniqueSID := uniqueSID
    isValidId := contains
    remove := remove
    now := World.clock }

/-! ## What the calls do when no statement fails -/

def NoFaults (w : World) : Prop := ∀ n, w.faults n = none

/-- The row of an id that is not expired. -/
def World.live (w : World) (id : Str) : Option Row :=
  (w.sessions[id]?).filter fun row => decide (w.clock < row.ts)

theorem World.live_eq_some {w : World} {id : Str} {row : Row} :
    w.live id = some row ↔ w.sessions[id]? = some row ∧ w.clock < row.ts := by
  simp [World.live, Option.filter_eq_some_iff]

/-- The world `w'` after calls that change no row, except that expired rows may be gone. -/
structure Keeps (w w' : World) : Prop where
  clock : w'.clock = w.clock
  junk : w'.junk = w.junk
  faults : NoFaults w'
  kept : ∀ (id : Str) (row : Row), w.sessions[id]? = some row → w.clock ≤ row.ts → w'.sessions[id]? = some row
  old : ∀ (id : Str) (row : Row), w'.sessions[id]? = some row → w.sessions[id]? = some row

theorem Keeps.trans {w w' w'' : World} (h : Keeps w w') (h' : Keeps w' w'') : Keeps w w'' where
  clock := h'.clock.trans h.clock
  junk := h'.junk.trans h.junk
  faults := h'.faults
  kept id row hrow hts := h'.kept id row (h.kept id row hrow hts) (h.clock ▸ hts)
  old id row hrow := h.old id row (h'.old id row hrow)

theorem Keeps.live {w w' : World} (h : Keeps w w') (id : Str) : w'.live id = w.live id := by
  refine Option.ext fun row => ?_
  rw [World.live_eq_some, World.live_eq_some, h.clock]
  constructor
  · rintro ⟨hrow, hts⟩
    exact ⟨h.old id row hrow, hts⟩
  · rintro ⟨hrow, hts⟩
    exact ⟨h.kept id row hrow (by omega), hts⟩

/-- The world behind the fault of one statement. -/
theorem statement_ok {α : Type} (stepMsg : Str) (effect : World → α × World) {w : World}
    (h : NoFaults w) : ∃ w', Keeps w w' ∧ w'.sessions = w.sessions ∧
      statement stepMsg effect w = (.ok (effect w').1, (effect w').2) := by
  refine ⟨{ w with faults := fun n => w.faults (n + 1) }, ⟨rfl, rfl, fun n => h (n + 1), ?_, ?_⟩,
    rfl, ?_⟩
  · exact fun _ _ hrow _ => hrow
  · exact fun _ _ hrow => hrow
  · simp only [statement, h 0]

theorem gc_spec {w : World} (h : NoFaults w) : ∃ w', gc w = (.ok (), w') ∧ Keeps w w' := by
  unfold gc
  simp only
  split
  · obtain ⟨w', hk, hs, heq⟩ := statement_ok (str "Error deleting session data")
      (fun w' => ((), { w' with
        sessions := w'.sessions.filter fun _ row => !decide (row.ts < w.clock) }))
      (w := { w with gcDraws := fun n => w.gcDraws (n + 1) }) h
    refine ⟨_, heq, hk.clock, hk.junk, hk.faults, ?_, ?_⟩
    · intro id row hrow hts
      simp only [hs, Std.ExtTreeMap.getElem?_filter, hrow]
      simp [hts]
    · intro id row hrow
      simp only [hs, Std.ExtTreeMap.getElem?_filter, Option.pfilter_eq_some_iff] at hrow
      exact hrow.1
  · exact ⟨_, rfl, rfl, rfl, h, fun _ _ hrow _ => hrow, fun _ _ hrow => hrow⟩

theorem contains_spec {w : World} (h : NoFaults w) (id : Str) :
    ∃ w', contains id w = (.ok (w.live id).isSome, w') ∧ Keeps w w' := by
  obtain ⟨w', hk, hs, heq⟩ := statement_ok (str "Error quering session data")
    (fun w' => ((w'.sessions[id]?).any fun row => decide (row.ts > w.clock), w')) h
  refine ⟨w', ?_, hk⟩
  rw [contains, containsSession, heq, hs, World.live, Option.isSome_filter]
  
theorem trySID_spec (tries : Nat) {w : World} (h : NoFaults w) :
    ∃ sid w', trySID tries w = (.ok sid, w') ∧ Keeps w w' ∧ (sid ≠ [] → w.live sid = none) := by
  induction tries generalizing w with
  | zero =>
    exact ⟨[], w, rfl, ⟨rfl, rfl, h, fun _ _ hrow _ => hrow, fun _ _ hrow => hrow⟩, by simp⟩
  | succ tries ih =>
    have hgen : Keeps w (generateSID w).2 :=
      ⟨rfl, rfl, h, fun _ _ hrow _ => hrow, fun _ _ hrow => hrow⟩
    generalize hsid : (generateSID w).1 = sid at *
    simp only [trySID, hsid]
    split
    · obtain ⟨sid', w', heq, hk, hfree⟩ := ih hgen.faults
      exact ⟨sid', w', heq, hgen.trans hk, fun hne => (hgen.live sid') ▸ hfree hne⟩
    · obtain ⟨w₁, hc, hk⟩ := contains_spec hgen.faults sid
      rw [Action.bind_ok hc, hgen.live]
      cases hlive : w.live sid with
      | none => exact ⟨sid, w₁, rfl, hgen.trans hk, fun _ => hlive⟩
      | some row =>
        obtain ⟨sid', w', heq, hk', hfree⟩ := ih hk.faults
        have hall := (hgen.trans hk).trans hk'
        refine ⟨sid', w', heq, hall, fun hne => ?_⟩
        rw [← (hgen.trans hk).live sid']
        exact hfree hne

theorem uniqueSID_spec {w : World} (h : NoFaults w) :
    ∃ sid w', uniqueSID w = (.ok sid, w') ∧ Keeps w w' ∧ (sid ≠ [] → w.live sid = none) :=
  trySID_spec 4 h

theorem read_spec (host : Endian) {w : World} (h : NoFaults w) {id : Str} {row : Row}
    (hrow : w.sessions[id]? = some row) :
    ∃ w', read host id w = (.ok (true, deserializeData host w.junk row.data ∅), w') ∧
      Keeps w w' := by
  obtain ⟨w₁, hk, hs, heq⟩ := statement_ok (str "Error reading session data")
    (fun w => (w.sessions[id]?, w)) h
  have hread : readSessionData id w = (.ok row.data, w₁) := by
    rw [readSessionData, Action.bind_ok heq, hs, hrow]
    rfl
  obtain ⟨w₂, hgc, hk₂⟩ := gc_spec hk.faults
  refine ⟨w₂, ?_, hk.trans hk₂⟩
  simp only [read, hread, Action.bind_ok hgc, hk.junk, Action.pure_run]

theorem write_spec (host : Endian) (lifetime : Int) {w : World} (h : NoFaults w) (id : Str)
    (data : Dictionary) : ∃ w', write host lifetime id data w = (true, w') ∧
      w'.clock = w.clock ∧ w'.junk = w.junk ∧ NoFaults w' ∧
      w'.sessions = w.sessions.insert id ⟨serializeData host data, w.clock + lifetime⟩ := by
  obtain ⟨w₁, hk, hs, heq⟩ := statement_ok (str "Error writing session data")
    (fun w => ((), { w with
      sessions := w.sessions.insert id ⟨serializeData host data, w.clock + lifetime⟩ })) h
  refine ⟨{ w₁ with
    sessions := w₁.sessions.insert id ⟨serializeData host data, w₁.clock + lifetime⟩ }, ?_,
    hk.clock, hk.junk, hk.faults, ?_⟩
  · simp only [write, caught, writeSessionData, heq]
  · simp only [hs, hk.clock]

theorem remove_spec {w : World} (h : NoFaults w) (id : Str) : ∃ w', remove id w = (true, w') ∧
      w'.clock = w.clock ∧ w'.junk = w.junk ∧ NoFaults w' ∧
      w'.sessions = w.sessions.erase id := by
  obtain ⟨w₁, hk, hs, heq⟩ := statement_ok (str "Error writing session data")
    (fun w => ((), { w with sessions := w.sessions.erase id })) h
  refine ⟨{ w₁ with sessions := w₁.sessions.erase id }, ?_, hk.clock, hk.junk, hk.faults, ?_⟩
  · simp only [remove, caught, removeSession, heq]
  · simp only [hs]

end SQLite3

end Wsrv
