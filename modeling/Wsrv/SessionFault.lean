import Wsrv.SessionStore

/-!
# A read that fails

The constructor of `Session` does not look at the result of `read`, and the
destructor takes an empty dictionary for one that the request has cleared.  So a
fault of the store while the dictionary is read ends the session
(`failedRead_ends_session`).
-/

namespace Wsrv

namespace Session

variable {ω : Type}

/-- A session is opened on a valid id, and the read of its dictionary fails. -/
structure ReadFails (sm : SessionManager ω) (req : HTTPServerRequest) (suffix : Str) (w : ω)
    (s : Session) (w' : ω) : Prop where
  cookie : req.getCookie (cookieName suffix) ≠ []
  run : ∃ w₁ w₂ d, sm.openStore w = (.ok true, w₁) ∧
    sm.isValidId (req.getCookie (cookieName suffix)) w₁ = (.ok true, w₂) ∧
    sm.read (req.getCookie (cookieName suffix)) w₂ = (.ok (false, d), w')
  opened : new sm req suffix w = (.ok s, w')

/-- The session goes on with what the failed read has left in its dictionary. -/
theorem ReadFails.session {sm : SessionManager ω} {req : HTTPServerRequest} {suffix : Str}
    {w w' : ω} {s : Session} (h : ReadFails sm req suffix w s w') :
    ∃ d w₂, sm.read (req.getCookie (cookieName suffix)) w₂ = (.ok (false, d), w') ∧
      s = { id := req.getCookie (cookieName suffix), data := d, sessionStarted := true,
            keyName := cookieName suffix } := by
  obtain ⟨w₁, w₂, d, hopen, hvalid, hread⟩ := h.run
  refine ⟨d, w₂, hread, ?_⟩
  have hnew := h.opened
  unfold new at hnew
  rw [Action.bind_ok hopen] at hnew
  simp only [↓reduceIte, if_neg h.cookie] at hnew
  rw [Action.bind_ok hvalid] at hnew
  simp only [↓reduceIte, resume] at hnew
  rw [Action.bind_ok hread] at hnew
  cases hnew
  rfl

end Session

namespace SQLite3

open SessionData

variable {host : Endian} {settings : SessionSettings}

/-- A read that fails has read nothing. -/
theorem read_false {id : Str} {d : Dictionary} {w w' : World}
    (h : read host id w = (.ok (false, d), w')) : d = ∅ := by
  unfold read at h
  split at h
  · cases h
    rfl
  · obtain ⟨_, w₁, -, h⟩ := Action.bind_inv h
    cases h

/-- The `Set-Cookie` header asks the client to delete the cookie of the session. -/
def CookieDeleted (settings : SessionSettings) (s : Session) (now : Int)
    (resp : HTTPServerResponse) : Prop :=
  resp.headers[str "Set-Cookie"]? = some (HTTPServerResponse.cookieText s.keyName [] (now - 3600)
    settings.cookiePath settings.cookieDomain settings.cookieSecure settings.cookieHttpOnly)

/-- Closing the session leaves its row as it is, and the cookie of the client. -/
def SessionKept (host : Endian) (settings : SessionSettings) (s : Session)
    (resp : HTTPServerResponse) (w : World) : Prop :=
  (s.destroy (manager host settings) resp w).2.sessions[s.id]? = w.sessions[s.id]? ∧
    ¬ CookieDeleted settings s w.clock (s.destroy (manager host settings) resp w).1

/-- **A failed read ends the session**: closing it deletes the cookie, and the row unless that
fails, too. -/
theorem failedRead_ends_session (host : Endian) (settings : SessionSettings)
    {req : HTTPServerRequest} {suffix : Str} {w w' : World} {s : Session}
    (h : Session.ReadFails (manager host settings) req suffix w s w') (resp : HTTPServerResponse)
    (w'' : World) :
    ¬ SessionKept host settings s resp w'' ∧
      (w''.faults 0 = none →
        (s.destroy (manager host settings) resp w'').2.sessions[s.id]? = none) := by
  obtain ⟨d, w₂, hread, rfl⟩ := h.session
  obtain rfl := read_false hread
  constructor
  · rintro ⟨-, hcookie⟩
    refine hcookie ?_
    simp only [CookieDeleted, Session.destroy, Session.store, if_true, Bool.false_eq_true, if_false,
      HTTPServerResponse.deleteCookie, HTTPServerResponse.setCookie, HTTPServerResponse.addHeader,
      Std.ExtTreeMap.getElem?_insert_self, manager]
  · intro hfault
    simp [Session.destroy, Session.store, manager, remove, caught, removeSession, statement, hfault]

/-- The row is live, the first statement finds it, and the second one fails. -/
def faultyWorld : World :=
  { tableWith (str "s1") visitData 1000 100 with
    faults := fun n => if n = 1 then some (.step (str "disk I/O error")) else none }

def visitRequest : HTTPServerRequest :=
  { HTTPServerRequest.init with
    COOKIE := (∅ : Dictionary).insert (str "WSX_SESSION_ID") (str "s1") }

/-- The session that is opened there. -/
def emptySession : Session :=
  { id := str "s1", sessionStarted := true, keyName := str "WSX_SESSION_ID" }

/-- The world in which it is open. -/
def behindFault : World :=
  { tableWith (str "s1") visitData 1000 100 with faults := fun _ => none }

theorem faultyWorld_readFails :
    Session.ReadFails (manager .little {}) visitRequest [] faultyWorld emptySession
      { faultyWorld with
        faults := fun n => faultyWorld.faults (n + 2)
        gcDraws := fun n => faultyWorld.gcDraws (n + 1) } where
  cookie := by decide
  run := ⟨_, _, ∅, rfl, rfl, rfl⟩
  opened := rfl

theorem faultyWorld_ends_session :
    ¬ SessionKept .little {} emptySession .init behindFault :=
  (failedRead_ends_session .little {} faultyWorld_readFails .init behindFault).1

/-- **One disk error**: the session `s1` is live and its request changes nothing, and the row is
gone in the end. -/
theorem diskError_removes_row :
    (faultyWorld.live (str "s1")).isSome ∧
      Session.ReadFails (manager .little {}) visitRequest [] faultyWorld emptySession
        { faultyWorld with
          faults := fun n => faultyWorld.faults (n + 2)
          gcDraws := fun n => faultyWorld.gcDraws (n + 1) } ∧
      (behindFault.sessions[str "s1"]?).isSome ∧
      ((emptySession.destroy (manager .little {}) .init behindFault).2.sessions[str "s1"]?) = none ∧
      ¬ SessionKept .little {} emptySession .init behindFault := by
  have hgone : (emptySession.destroy (manager .little {}) .init behindFault).2.sessions[str "s1"]? =
      none := by decide +kernel
  refine ⟨by decide +kernel, faultyWorld_readFails, by decide +kernel, hgone, ?_⟩
  rintro ⟨hrow, -⟩
  rw [show emptySession.id = str "s1" from rfl, hgone] at hrow
  exact absurd hrow (by decide +kernel)

end SQLite3

end Wsrv
