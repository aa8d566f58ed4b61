import Wsrv.Message

/-!
# Sessions

`Session` reads the dictionary of a client when it is constructed and writes it
back when it is destroyed, through a `SessionManager`.  `ω` is the state of the
world the manager works on: its store, the clock, sources of randomness.

What the constructor calls may throw, and then there is no `Session` and no
destructor runs.  The destructor is `noexcept`: an exception in there would end
the program, so the functions it calls are total.
-/

namespace Wsrv

/-- A computation on the world that may throw. -/
abbrev Action (ω : Type) := ExceptT Exception (StateM ω)

theorem Action.bind_ok {ω α β : Type} {x : Action ω α} {f : α → Action ω β} {w w' : ω} {a : α}
    (h : x w = (.ok a, w')) : (x >>= f) w = f a w' := by
  simp only [bind, ExceptT.bind, ExceptT.mk, StateT.bind, h, ExceptT.bindCont]

theorem Action.bind_error {ω α β : Type} {x : Action ω α} {f : α → Action ω β} {w w' : ω}
    {e : Exception} (h : x w = (.error e, w')) : (x >>= f) w = (.error e, w') := by
  simp only [bind, ExceptT.bind, ExceptT.mk, StateT.bind, h, ExceptT.bindCont]
  rfl

theorem Action.bind_inv {ω α β : Type} {x : Action ω α} {f : α → Action ω β} {w w'' : ω} {b : β}
    (h : (x >>= f) w = (.ok b, w'')) : ∃ a w', x w = (.ok a, w') ∧ f a w' = (.ok b, w'') := by
  rcases hx : x w with ⟨r, w'⟩
  cases r with
  | error e =>
    rw [Action.bind_error hx] at h
    cases h
  | ok a =>
    rw [Action.bind_ok hx] at h
    exact ⟨a, w', rfl, h⟩

@[simp] theorem Action.pure_run {ω α : Type} (a : α) (w : ω) :
    (pure a : Action ω α) w = (.ok a, w) := rfl

/-- The settings of a `SessionManager`, with their defaults. -/
structure SessionSettings where
  cookiePath : Str := str "/"
  cookieDomain : Str := []
  cookieExpiration : Int := 24 * 60 * 60
  sessionIdLifetime : Int := 24 * 60 * 60
  cookieSecure : Bool := true
  cookieHttpOnly : Bool := true

/-- The interface, and `std::chrono::system_clock` in seconds. -/
structure SessionManager (ω : Type) extends SessionSettings where
  /-- `open` -/
  openStore : Action ω Bool
  /-- `close` -/
  closeStore : ω → Bool × ω
  write : Str → Dictionary → ω → Bool × ω
  /-- The result, and what has been read into the empty dictionary of the session. -/
  read : Str → Action ω (Bool × Dictionary)
  uniqueSID : Action ω Str
  isValidId : Str → Action ω Bool
  remove : Str → ω → Bool × ω
  now : ω → Int

structure Session where
  id : Str := []
  data : Dictionary := ∅
  sessionStarted : Bool := false
  setCookie : Bool := false
  keyName : Str := []
  modified : Bool := false
  deriving DecidableEq

namespace Session

variable {ω : Type}

def cookieName (suffix : Str) : Str := str "WSX_SESSION_ID" ++ suffix

/-- The branch of the constructor that needs a new session id. -/
def start (sm : SessionManager ω) (keyName : Str) : Action ω Session := do
  let id ← sm.uniqueSID
  return if id = [] then { keyName := keyName }
    else { id := id, sessionStarted := true, setCookie := true, keyName := keyName }

/-- The branch with a valid id.  The result of `read` is not looked at. -/
def resume (sm : SessionManager ω) (keyName id : Str) : Action ω Session := do
  let r ← sm.read id
  return { id := id, data := r.2, sessionStarted := true, keyName := keyName }

/-- The constructor. -/
def new (sm : SessionManager ω) (req : HTTPServerRequest) (suffix : Str := []) :
    Action ω Session := do
  if ← sm.openStore then
    let keyName := cookieName suffix
    let id := req.getCookie keyName
    if ← (if id = [] then pure false else sm.isValidId id) then resume sm keyName id
    else start sm keyName
  else
    return {}

/-- A session that has started has an id. -/
theorem id_of_new {sm : SessionManager ω} {req : HTTPServerRequest} {suffix : Str} {w w' : ω}
    {s : Session} (h : new sm req suffix w = (.ok s, w')) (hs : s.sessionStarted = true) :
    s.id ≠ [] := by
  obtain ⟨opened, w₁, -, h⟩ := Action.bind_inv h
  split at h
  · obtain ⟨valid, w₂, hvalid, h⟩ := Action.bind_inv h
    split at h
    · rename_i hv
      obtain ⟨r, w₃, -, h⟩ := Action.bind_inv h
      cases h
      intro hid
      simp only at hid
      rw [if_pos hid] at hvalid
      cases hvalid
      cases hv
    · obtain ⟨id, w₃, -, h⟩ := Action.bind_inv h
      split at h
      · cases h
        cases hs
      · rename_i hid
        cases h
        exact hid
  · cases h
    cases hs

/-- What the destructor does before it closes the manager. -/
def store (sm : SessionManager ω) (s : Session) (resp : HTTPServerResponse) (w : ω) :
    HTTPServerResponse × ω :=
  if s.data = ∅ then
    if s.setCookie then (resp, w)
    else
      (resp.deleteCookie (sm.now w) s.keyName sm.cookiePath sm.cookieDomain sm.cookieSecure
        sm.cookieHttpOnly, (sm.remove s.id w).2)
  else
    (if s.setCookie then
        resp.setCookie s.keyName s.id (sm.now w + sm.cookieExpiration) sm.cookiePath
          sm.cookieDomain sm.cookieSecure sm.cookieHttpOnly
      else resp,
      if s.modified then (sm.write s.id s.data w).2 else w)

/-- The destructor. -/
def destroy (sm : SessionManager ω) (s : Session) (resp : HTTPServerResponse) (w : ω) :
    HTTPServerResponse × ω :=
  if s.sessionStarted then
    let r := s.store sm resp w
    (r.1, (sm.closeStore r.2).2)
  else (resp, w)

/-! ## Reading and changing the data -/

def get (s : Session) (key : Str) (dflt : Str := []) : Str := s.data.getD key dflt

def contains (s : Session) (key : Str) : Bool := s.data.contains key

/-- `add`: `emplace` keeps a value that is there. -/
def add (s : Session) (key val : Str) : Session :=
  { s with modified := true, data := s.data.insertIfNew key val }

def remove (s : Session) (key : Str) : Session :=
  { s with modified := true, data := s.data.erase key }

def clear (s : Session) : Session := { s with modified := true, data := ∅ }

/-- A call that changes the data. -/
inductive Op
  | add (key val : Str)
  | remove (key : Str)
  | clear
  deriving DecidableEq

def Op.apply (s : Session) : Op → Session
  | .add key val => s.add key val
  | .remove key => s.remove key
  | .clear => s.clear

def applyOps (s : Session) (ops : List Op) : Session := ops.foldl Op.apply s

theorem applyOps_cons (s : Session) (op : Op) (ops : List Op) :
    s.applyOps (op :: ops) = (op.apply s).applyOps ops := rfl

/-- The calls change the data and the mark, and the mark is set by the first of them. -/
theorem applyOps_eq (s : Session) (ops : List Op) :
    s.applyOps ops = { s with
      data := (s.applyOps ops).data, modified := s.modified || !ops.isEmpty } := by
  induction ops generalizing s with
  | nil => simp [applyOps]
  | cons op ops ih =>
    rw [applyOps_cons, ih]
    cases op <;> simp [Op.apply, Session.add, Session.remove, Session.clear]

@[simp] theorem applyOps_id (s : Session) (ops : List Op) : (s.applyOps ops).id = s.id := by
  rw [applyOps_eq]

@[simp] theorem applyOps_setCookie (s : Session) (ops : List Op) :
    (s.applyOps ops).setCookie = s.setCookie := by
  rw [applyOps_eq]

@[simp] theorem applyOps_keyName (s : Session) (ops : List Op) :
    (s.applyOps ops).keyName = s.keyName := by
  rw [applyOps_eq]

@[simp] theorem applyOps_sessionStarted (s : Session) (ops : List Op) :
    (s.applyOps ops).sessionStarted = s.sessionStarted := by
  rw [applyOps_eq]

theorem applyOps_modified (s : Session) (ops : List Op) :
    (s.applyOps ops).modified = (s.modified || !ops.isEmpty) := by
  rw [applyOps_eq]

/-! ## What the calls make of a dictionary -/

/-- What a sequence of calls makes of a dictionary. -/
def changed (ops : List Op) (d : Dictionary) : Dictionary :=
  (({ data := d } : Session).applyOps ops).data

theorem applyOps_data (s : Session) (ops : List Op) :
    (s.applyOps ops).data = changed ops s.data := by
  unfold changed
  have hdata : ∀ s' : Session, s'.data = s.data →
      (s.applyOps ops).data = (s'.applyOps ops).data := by
    induction ops generalizing s with
    | nil => exact fun s' h => h.symm
    | cons op ops ih =>
      intro s' h
      rw [applyOps_cons, applyOps_cons]
      refine ih _ _ ?_
      cases op <;> simp [Op.apply, Session.add, Session.remove, Session.clear, h]
  exact hdata _ rfl

theorem changed_cons (op : Op) (ops : List Op) (d : Dictionary) :
    changed (op :: ops) d = changed ops (op.apply { data := d }).data :=
  applyOps_data _ ops

/-- The keys that a call may change. -/
def Op.Touches (k : Str) : Op → Prop
  | .add key _ => key = k
  | .remove key => key = k
  | .clear => True

def Touches (ops : List Op) (k : Str) : Prop := ∃ op ∈ ops, op.Touches k

theorem Op.apply_untouched {op : Op} {k : Str} (h : ¬ op.Touches k) (s : Session) :
    (op.apply s).data[k]? = s.data[k]? := by
  cases op with
  | add key val =>
    have hne : compare key k ≠ .eq := fun he => h (Std.compare_eq_iff_eq.mp he)
    simp [Op.apply, Session.add, Std.ExtTreeMap.getElem?_insertIfNew, hne]
  | remove key =>
    have hne : compare key k ≠ .eq := fun he => h (Std.compare_eq_iff_eq.mp he)
    simp [Op.apply, Session.remove, Std.ExtTreeMap.getElem?_erase, hne]
  | clear => exact absurd trivial h

/-- A key that no call touches keeps its value. -/
theorem changed_untouched {ops : List Op} {k : Str} (h : ¬ Touches ops k) (d : Dictionary) :
    (changed ops d)[k]? = d[k]? := by
  induction ops generalizing d with
  | nil => rfl
  | cons op ops ih =>
    have hop : ¬ op.Touches k := fun ht => h ⟨op, List.mem_cons_self, ht⟩
    have hops : ¬ Touches ops k := fun ⟨o, ho, ht⟩ => h ⟨o, List.mem_cons_of_mem _ ho, ht⟩
    rw [changed_cons, ih hops, Op.apply_untouched hop]

theorem Op.apply_local {s s' : Session} {k : Str} (h : s.data[k]? = s'.data[k]?) (op : Op) :
    (op.apply s).data[k]? = (op.apply s').data[k]? := by
  cases op with
  | add key val =>
    simp only [Op.apply, Session.add, Std.ExtTreeMap.getElem?_insertIfNew, h]
    by_cases hc : compare key k = .eq
    · obtain rfl := Std.compare_eq_iff_eq.mp hc
      simp only [Std.ExtTreeMap.mem_iff_isSome_getElem?, h]
    · simp [hc]
  | remove key =>
    simp only [Op.apply, Session.remove, Std.ExtTreeMap.getElem?_erase, h]
  | clear => rfl

/-- The value of a key depends on its former value only. -/
theorem changed_local {d d' : Dictionary} {k : Str} (h : d[k]? = d'[k]?) (ops : List Op) :
    (changed ops d)[k]? = (changed ops d')[k]? := by
  induction ops generalizing d d' with
  | nil => exact h
  | cons op ops ih =>
    rw [changed_cons, changed_cons]
    exact ih (Op.apply_local h op)

end Session

end Wsrv
