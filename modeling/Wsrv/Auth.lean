import Wsrv.Middleware
import Wsrv.SessionStore

/-!
# Authentication by session

The middlewares that keep the id of a user in the session: `SessionRequireAuth`
and `SessionCheckAuth` load the user for the handlers downstream,
`SessionLoginController` and `SessionLogoutController` put the id in and take it
out.

* `requireAuth_guards_iff`: `SessionRequireAuth` lets a request through with a
  loaded user, or answers 403, exactly when the provider gives a user for every
  id it is asked for: `set` ignores a null pointer and the request goes on.
* `login_identity_iff`: the request after a login has the identity of the login
  exactly when the session had none, or the same: `add` keeps the old one.
-/

namespace Wsrv

open Middleware

/-- What a middleware works on: the request, the response, and the world of the stores. -/
structure Exchange (ω : Type) where
  req : HTTPServerRequest
  res : HTTPServerResponse
  world : ω

/-- `IAuthenticationProvider`; `none` is the null pointer. -/
structure IAuthenticationProvider (ω : Type) where
  authenticate : Str → Str → Action ω (Option IAuthenticatedUser)
  loadUser : Str → Action ω (Option IAuthenticatedUser)

def USER_KEY : Str := str "user_id"

variable {ω : Type}

/-- The destructor of a local session. -/
def Exchange.close (sm : SessionManager ω) (s : Session) (x : Exchange ω) : Exchange ω :=
  let r := s.destroy sm x.res x.world
  { x with res := r.1, world := r.2 }

/-- `handle` with a local `Session`: `pre` is what comes before `ctx.next`, and says if it is
called.  The destructor runs at the end, also when an exception passes. -/
def withSession (sm : SessionManager ω)
    (pre : Session → Exchange ω → Except Exception Bool × Session × Exchange ω) :
    IMiddleware Exception (Exchange ω) := fun x =>
  match Session.new sm x.req [] x.world with
  | (.error e, w) => .ret (.error e) { x with world := w }
  | (.ok s, w) =>
    match pre s { x with world := w } with
    | (.error e, s, x) => .ret (.error e) (x.close sm s)
    | (.ok false, s, x) => .ret (.ok ()) (x.close sm s)
    | (.ok true, s, x) => .next x fun outcome x => .ret outcome (x.close sm s)

/-- `req.data().set<IAuthenticatedUser>(user)` -/
def Exchange.setUser (x : Exchange ω) (user : Option IAuthenticatedUser) : Exchange ω :=
  { x with req := { x.req with mwData := x.req.mwData.set .authenticatedUser user } }

/-- The user of `req.data()`. -/
def Exchange.user (x : Exchange ω) : Option IAuthenticatedUser :=
  x.req.mwData.get .authenticatedUser

/-- `provider_->loadUser(user_id)`, and the result into `req.data()`. -/
def Exchange.loadUser (provider : IAuthenticationProvider ω) (userId : Str) (x : Exchange ω) :
    Except Exception Bool × Exchange ω :=
  match provider.loadUser userId x.world with
  | (.error e, w) => (.error e, { x with world := w })
  | (.ok user, w) => (.ok true, { x with world := w }.setUser user)

/-- `SessionRequireAuth::handle` -/
def SessionRequireAuth.handle (sm : SessionManager ω) (provider : IAuthenticationProvider ω) :
    IMiddleware Exception (Exchange ω) :=
  withSession sm fun s x =>
    let userId := s.get USER_KEY
    if userId = [] then (.ok false, s, { x with res := .stockReply .forbidden })
    else
      let (r, x) := x.loadUser provider userId
      (r, s, x)

/-- `SessionCheckAuth::handle` -/
def SessionCheckAuth.handle (sm : SessionManager ω) (provider : IAuthenticationProvider ω) :
    IMiddleware Exception (Exchange ω) :=
  withSession sm fun s x =>
    let userId := s.get USER_KEY
    if userId ≠ [] then
      let (r, x) := x.loadUser provider userId
      (r, s, x)
    else (.ok true, s, x)

/-- `SessionLoginController::handle` -/
def SessionLoginController.handle (sm : SessionManager ω) (provider : IAuthenticationProvider ω) :
    IMiddleware Exception (Exchange ω) :=
  withSession sm fun s x =>
    if x.req.method = str "POST" then
      let username := x.req.getPostAttribute (str "username")
      let password := x.req.getPostAttribute (str "password")
      match provider.authenticate username password x.world with
      | (.error e, w) => (.error e, s, { x with world := w })
      | (.ok none, w) => (.ok true, s, { x with world := w })
      | (.ok (some user), w) =>
        (.ok true, s.add USER_KEY user.getUniqueId, { x with world := w }.setUser (some user))
    else
      let userId := s.get USER_KEY
      if userId ≠ [] then
        let (r, x) := x.loadUser provider userId
        (r, s, x)
      else (.ok true, s, x)

/-- `SessionLogoutController::handle` -/
def SessionLogoutController.handle (sm : SessionManager ω) : IMiddleware Exception (Exchange ω) :=
  withSession sm fun s x =>
    let userId := s.get USER_KEY
    let s := if userId ≠ [] then s.remove USER_KEY else s
    (.ok true, s,
      { x with req := { x.req with mwData := x.req.mwData.remove .authenticatedUser } })

/-! ## `SessionRequireAuth` guards what is downstream -/

/-- Closing a session changes the headers of the response only. -/
theorem Exchange.close_status (sm : SessionManager ω) (s : Session) (x : Exchange ω) :
    (x.close sm s).res.status = x.res.status := by
  unfold Exchange.close Session.destroy Session.store
  simp only
  split
  · split
    · split <;> rfl
    · split <;> rfl
  · rfl

/-- The request goes on with the user that was loaded for the `user_id` of its session, or is
answered with 403. -/
def SessionRequireAuth.Guards (sm : SessionManager ω) (provider : IAuthenticationProvider ω)
    (x : Exchange ω) : Prop :=
  match SessionRequireAuth.handle sm provider x with
  | .next x' _ => ∃ s w user w', Session.new sm x.req [] x.world = (.ok s, w) ∧
      s.get USER_KEY ≠ [] ∧ provider.loadUser (s.get USER_KEY) w = (.ok (some user), w') ∧
      x'.user = some user
  | .ret outcome x' => outcome = .ok () ∧ x'.res.status = Status.forbidden.code

/-- **The guard holds** exactly when the session opens without an exception, and holds no id or
one for which the provider gives a user. -/
theorem requireAuth_guards_iff (sm : SessionManager ω) (provider : IAuthenticationProvider ω)
    (x : Exchange ω) : SessionRequireAuth.Guards sm provider x ↔
      ∃ s w, Session.new sm x.req [] x.world = (.ok s, w) ∧
        (s.get USER_KEY = [] ∨
          ∃ user w', provider.loadUser (s.get USER_KEY) w = (.ok (some user), w')) := by
  unfold SessionRequireAuth.Guards SessionRequireAuth.handle withSession
  rcases hnew : Session.new sm x.req [] x.world with ⟨r, w⟩
  cases r with
  | error e =>
    constructor
    · rintro ⟨h, -⟩
      cases h
    · rintro ⟨s, w', hs, -⟩
      cases hs
  | ok s =>
    simp only
    by_cases hid : s.get USER_KEY = []
    · simp only [if_pos hid, Exchange.close_status]
      exact ⟨fun _ => ⟨s, w, rfl, Or.inl hid⟩, fun _ => ⟨trivial, rfl⟩⟩
    · simp only [if_neg hid, Exchange.loadUser]
      rcases hload : provider.loadUser (s.get USER_KEY) w with ⟨r, w'⟩
      cases r with
      | error e =>
        constructor
        · rintro ⟨h, -⟩
          cases h
        · rintro ⟨s', w₁, hs, h | ⟨user', w₂, hu⟩⟩
          · cases hs
            exact absurd h hid
          · cases hs
            rw [hload] at hu
            cases hu
      | ok user =>
        simp only
        constructor
        · rintro ⟨s', w₁, user', w₂, hs, -, hu, -⟩
          exact ⟨s', w₁, hs, Or.inr ⟨user', w₂, hu⟩⟩
        · rintro ⟨s', w₁, hs, hcond⟩
          cases hs
          rcases hcond with h | ⟨user', w₂, hu⟩
          · exact absurd h hid
          · rw [hload] at hu
            cases hu
            refine ⟨s, w, user', w', rfl, hid, hload, ?_⟩
            exact MiddlwareDataStorage.get_set_some ..

/-- A request whose session belongs to user 7. -/
def userExchange : Exchange SQLite3.World :=
  { req := { HTTPServerRequest.init with
      COOKIE := (∅ : Dictionary).insert (str "WSX_SESSION_ID") (str "s1") }
    res := .init
    world := SQLite3.tableWith (str "s1") ((∅ : Dictionary).insert USER_KEY (str "7")) 1000 100 }

/-- Every account has been deleted. -/
def noAccounts : IAuthenticationProvider SQLite3.World where
  authenticate _ _ := pure none
  loadUser _ := pure none

/-- **A deleted account** is let through without a user. -/
theorem requireAuth_passes_deleted :
    (∃ x' k, SessionRequireAuth.handle (SQLite3.manager .little {}) noAccounts userExchange =
        .next x' k ∧ x'.user = none) ∧
      ¬ SessionRequireAuth.Guards (SQLite3.manager .little {}) noAccounts userExchange := by
  have hpass : ∃ x' k, SessionRequireAuth.handle (SQLite3.manager .little {}) noAccounts
      userExchange = .next x' k ∧ x'.user = none := ⟨_, _, rfl, rfl⟩
  refine ⟨hpass, fun h => ?_⟩
  obtain ⟨x', k, hx, hnone⟩ := hpass
  unfold SessionRequireAuth.Guards at h
  rw [hx] at h
  obtain ⟨s, w, user, w', -, -, -, huser⟩ := h
  rw [hnone] at huser
  cases huser

/-! ## The identity of a login -/

/-- What a session holds after `add`: a value that was there stays. -/
theorem Session.get_add (s : Session) (key val : Str) :
    (s.add key val).get key = s.get key val := by
  unfold Session.add Session.get
  rw [Std.ExtTreeMap.getD_eq_getD_getElem?, Std.ExtTreeMap.getD_eq_getD_getElem?,
    Std.ExtTreeMap.getElem?_insertIfNew]
  by_cases hk : key ∈ s.data <;> simp [hk]

theorem requireAuth_of_new {sm : SessionManager ω} {provider : IAuthenticationProvider ω}
    {x : Exchange ω} {s : Session} {w w' : ω} {user : Option IAuthenticatedUser}
    (hnew : Session.new sm x.req [] x.world = (.ok s, w)) (hid : s.get USER_KEY ≠ [])
    (hload : provider.loadUser (s.get USER_KEY) w = (.ok user, w')) :
    ∃ k, SessionRequireAuth.handle sm provider x = .next ({ x with world := w' }.setUser user) k := by
  unfold SessionRequireAuth.handle withSession
  simp only [hnew, if_neg hid, Exchange.loadUser, hload]
  exact ⟨_, rfl⟩

theorem checkAuth_of_new {sm : SessionManager ω} {provider : IAuthenticationProvider ω}
    {x : Exchange ω} {s : Session} {w w' : ω} {user : Option IAuthenticatedUser}
    (hnew : Session.new sm x.req [] x.world = (.ok s, w)) (hid : s.get USER_KEY ≠ [])
    (hload : provider.loadUser (s.get USER_KEY) w = (.ok user, w')) :
    ∃ k, SessionCheckAuth.handle sm provider x = .next ({ x with world := w' }.setUser user) k := by
  unfold SessionCheckAuth.handle withSession
  simp only [hnew, ne_eq, hid, not_false_eq_true, if_true, Exchange.loadUser, hload]
  exact ⟨_, rfl⟩

namespace SQLite3

open SessionData

variable {host : Endian} {settings : SessionSettings}

/-- What the application's provider does for the accounts: it raises nothing, loads users under
their own ids, and knows the user `u`. -/
structure Accounts (provider : IAuthenticationProvider World) (u : IAuthenticatedUser) : Prop where
  total : ∀ id w, ∃ r w', provider.loadUser id w = (.ok r, w')
  identity : ∀ id w user w', provider.loadUser id w = (.ok (some user), w') → user.getUniqueId = id
  known : ∀ w r w', provider.loadUser u.getUniqueId w = (.ok r, w') → r ≠ none

/-- A later request of the session `id`, after the exchange `y`: its cookie names the session,
whose row is as it was and not expired. -/
structure NextOf (y : Exchange World) (id : Str) (x : Exchange World) : Prop where
  cookie : x.req.getCookie (Session.cookieName []) = id
  faults : NoFaults x.world
  row : ∃ row, y.world.sessions[id]? = some row ∧ x.world.live id = some row

/-- The login request exposes `u`, and whatever happens downstream, a later request of the session
that passes a guard has the identity of `u`. -/
def LoggedIn (host : Endian) (settings : SessionSettings)
    (provider : IAuthenticationProvider World) (x : Exchange World) (id : Str)
    (u : IAuthenticatedUser) : Prop :=
  ∃ x' k, SessionLoginController.handle (manager host settings) provider x = .next x' k ∧
    x'.user = some u ∧
    ∀ outcome x'' y, NoFaults x''.world → k outcome x'' = .ret outcome y →
      ∀ x₂, NextOf y id x₂ →
        (∀ x₃ k₃, SessionRequireAuth.handle (manager host settings) provider x₂ = .next x₃ k₃ →
          x₃.user.map IAuthenticatedUser.getUniqueId = some u.getUniqueId) ∧
        ∀ x₃ k₃, SessionCheckAuth.handle (manager host settings) provider x₂ = .next x₃ k₃ →
          x₃.user.map IAuthenticatedUser.getUniqueId = some u.getUniqueId

/-- The session of a later request holds what the session before it was closed with. -/
theorem NextOf.new {x'' x₂ : Exchange World} {s : Session} (hf : NoFaults x''.world)
    (hstarted : s.sessionStarted = true) (hmod : s.modified = true) (hdata : s.data ≠ ∅)
    (hfits : Fits s.data) (hid : s.id ≠ [])
    (hnext : NextOf (x''.close (manager host settings) s) s.id x₂) :
    ∃ s₂ w₂, Session.new (manager host settings) x₂.req [] x₂.world = (.ok s₂, w₂) ∧
      s₂.data = s.data := by
  obtain ⟨w', hd, -, -, -, hsess⟩ := destroy_spec host settings hf hstarted x''.res
  obtain ⟨row, hrow, hlive⟩ := hnext.row
  have hstored : row.data = serializeData host s.data := by
    simp only [Exchange.close, hd, hsess, closed, if_neg hdata, if_pos hmod,
      Std.ExtTreeMap.getElem?_insert_self, Option.some.injEq] at hrow
    rw [← hrow]
  obtain ⟨s₂, w₂, hnew, -, ho⟩ := new_spec host settings hnext.faults x₂.req []
  refine ⟨s₂, w₂, hnew, ?_⟩
  rw [hnext.cookie] at ho
  cases ho with
  | resumed row' _ hrow' =>
    rw [hlive] at hrow'
    cases hrow'
    simp only [hstored]
    exact deserialize_serialize host host _ _ hfits
  | started sid hno _ _ => simp [hid, hlive] at hno
  | noId hno => simp [hid, hlive] at hno

/-- There is a later request of the session, without a user in its data yet. -/
theorem exists_nextOf {x'' : Exchange World} {s : Session} (hf : NoFaults x''.world)
    (hstarted : s.sessionStarted = true) (hmod : s.modified = true) (hdata : s.data ≠ ∅) :
    ∃ x₂, NextOf (x''.close (manager host settings) s) s.id x₂ ∧ x₂.user = none := by
  obtain ⟨w', hd, -, -, hf', hsess⟩ := destroy_spec host settings hf hstarted x''.res
  have hrow : (x''.close (manager host settings) s).world.sessions[s.id]? =
      some ⟨serializeData host s.data, x''.world.clock + settings.sessionIdLifetime⟩ := by
    simp only [Exchange.close, hd, hsess, closed, if_neg hdata, if_pos hmod,
      Std.ExtTreeMap.getElem?_insert_self]
  refine ⟨{ req := { HTTPServerRequest.init with
              COOKIE := (∅ : Dictionary).insert (Session.cookieName []) s.id }
            res := .init
            world := { w' with clock := x''.world.clock + settings.sessionIdLifetime - 1 } },
    ⟨?_, hf', ⟨_, hrow, ?_⟩⟩, rfl⟩
  · simp [HTTPServerRequest.getCookie]
  · rw [World.live_eq_some]
    simp only [Exchange.close, hd] at hrow
    exact ⟨hrow, by simp only; omega⟩

/-- **The identity of a login** lasts to the next request if and only if the session had no user,
or the same one, and the id is not empty. -/
theorem login_identity_iff (host : Endian) (settings : SessionSettings)
    {provider : IAuthenticationProvider World} {u : IAuthenticatedUser}
    (hacc : Accounts provider u) {x : Exchange World} {s : Session} {w w₁ : World}
    (hopen : Session.new (manager host settings) x.req [] x.world = (.ok s, w))
    (hstarted : s.sessionStarted = true) (hpost : x.req.method = str "POST")
    (hauth : provider.authenticate (x.req.getPostAttribute (str "username"))
      (x.req.getPostAttribute (str "password")) w = (.ok (some u), w₁))
    (hfits : Fits (s.add USER_KEY u.getUniqueId).data) :
    LoggedIn host settings provider x s.id u ↔
      s.get USER_KEY u.getUniqueId = u.getUniqueId ∧ u.getUniqueId ≠ [] := by
  have hlogin : SessionLoginController.handle (manager host settings) provider x =
      .next ({ x with world := w₁ }.setUser (some u)) fun outcome x'' =>
        .ret outcome (x''.close (manager host settings) (s.add USER_KEY u.getUniqueId)) := by
    unfold SessionLoginController.handle withSession
    simp only [hopen, if_pos hpost, hauth]
  have hdata : (s.add USER_KEY u.getUniqueId).data ≠ ∅ := by
    intro hempty
    have : USER_KEY ∈ (s.add USER_KEY u.getUniqueId).data := by simp [Session.add]
    rw [hempty] at this
    simp at this
  have hid : s.id ≠ [] := Session.id_of_new hopen hstarted
  have hopenNext : ∀ {x'' x₂ : Exchange World}, NoFaults x''.world →
      NextOf (x''.close (manager host settings) (s.add USER_KEY u.getUniqueId)) s.id x₂ →
      ∃ s₂ w₂, Session.new (manager host settings) x₂.req [] x₂.world = (.ok s₂, w₂) ∧
        s₂.get USER_KEY = s.get USER_KEY u.getUniqueId := by
    intro x'' x₂ hf hx₂
    obtain ⟨s₂, w₂, hnew, hd⟩ := NextOf.new (s := s.add USER_KEY u.getUniqueId) hf hstarted rfl hdata
      hfits hid hx₂
    refine ⟨s₂, w₂, hnew, ?_⟩
    rw [Session.get, hd]
    exact s.get_add USER_KEY u.getUniqueId
  constructor
  · rintro ⟨x', k, hx, -, hnext⟩
    rw [hlogin] at hx
    cases hx
    have hf : NoFaults ({ x with world := tableOf ∅ 0 } : Exchange World).world := fun _ => rfl
    obtain ⟨x₂, hx₂, hfresh⟩ := exists_nextOf (s := s.add USER_KEY u.getUniqueId) hf hstarted rfl
      hdata
    have hcheck := (hnext (.ok ()) _ _ hf rfl x₂ hx₂).2
    obtain ⟨s₂, w₂, hnew, hval⟩ := hopenNext hf hx₂
    by_cases hempty : s₂.get USER_KEY = []
    · have hpass : ∃ k₃, SessionCheckAuth.handle (manager host settings) provider x₂ =
          .next { x₂ with world := w₂ } k₃ := by
        unfold SessionCheckAuth.handle withSession
        simp only [hnew, hempty]
        exact ⟨_, rfl⟩
      obtain ⟨k₃, hpass⟩ := hpass
      have hnone := hcheck _ _ hpass
      rw [show ({ x₂ with world := w₂ } : Exchange World).user = none from hfresh] at hnone
      cases hnone
    · obtain ⟨r, w₃, hload⟩ := hacc.total (s₂.get USER_KEY) w₂
      obtain ⟨k₃, hpass⟩ := checkAuth_of_new hnew hempty hload
      have huser := hcheck _ _ hpass
      cases r with
      | none =>
        rw [show (({ x₂ with world := w₃ } : Exchange World).setUser none).user = none from hfresh]
          at huser
        cases huser
      | some user =>
        have hget : (({ x₂ with world := w₃ } : Exchange World).setUser (some user)).user =
          some user := MiddlwareDataStorage.get_set_some ..
        rw [hget, Option.map_some, Option.some.injEq, hacc.identity _ _ _ _ hload, hval] at huser
        exact ⟨huser, by rw [← huser, ← hval]; exact hempty⟩
  · rintro ⟨hsame, hne⟩
    refine ⟨_, _, hlogin, MiddlwareDataStorage.get_set_some .., ?_⟩
    intro outcome x'' y hf hy x₂ hx₂
    cases hy
    obtain ⟨s₂, w₂, hnew, hval⟩ := hopenNext hf hx₂
    rw [hsame] at hval
    obtain ⟨r, w₃, hload⟩ := hacc.total u.getUniqueId w₂
    obtain ⟨user, rfl⟩ := Option.ne_none_iff_exists'.mp (hacc.known _ _ _ hload)
    have hget : (({ x₂ with world := w₃ } : Exchange World).setUser (some user)).user.map
        IAuthenticatedUser.getUniqueId = some u.getUniqueId := by
      rw [show (({ x₂ with world := w₃ } : Exchange World).setUser (some user)).user = some user from
        MiddlwareDataStorage.get_set_some .., Option.map_some, hacc.identity _ _ _ _ hload]
    rw [← hval] at hload hne
    obtain ⟨k, hrequire⟩ := requireAuth_of_new hnew hne hload
    obtain ⟨k', hcheck⟩ := checkAuth_of_new hnew hne hload
    refine ⟨fun x₃ k₃ h => ?_, fun x₃ k₃ h => ?_⟩
    · rw [hrequire] at h
      cases h
      exact hget
    · rw [hcheck] at h
      cases h
      exact hget

/-- A provider with one account that can log in. -/
def oneAccount : IAuthenticationProvider World where
  authenticate username password := pure <|
    if username = str "bob" ∧ password = str "pw" then some ⟨str "9"⟩ else none
  loadUser id := pure (some ⟨id⟩)

theorem oneAccount_accounts (u : IAuthenticatedUser) : Accounts oneAccount u where
  total id w := ⟨_, w, rfl⟩
  identity id w user w' h := by
    cases h
    rfl
  known w r w' h := by
    cases h
    simp

/-- The login form of user 9, in the session `s1` with the given data. -/
def loginExchange (data : Dictionary) : Exchange World :=
  { req := { HTTPServerRequest.init with
      method := str "POST"
      POST := ((∅ : Dictionary).insert (str "username") (str "bob")).insert (str "password") (str "pw")
      COOKIE := (∅ : Dictionary).insert (str "WSX_SESSION_ID") (str "s1") }
    res := .init
    world := tableWith (str "s1") data 1000 100 }

def anonymousData : Dictionary := (∅ : Dictionary).insert (str "lang") (str "el")

def otherUserData : Dictionary := (∅ : Dictionary).insert USER_KEY (str "7")

def loginSession (data : Dictionary) : Session :=
  { id := str "s1", data := data, sessionStarted := true, keyName := str "WSX_SESSION_ID" }

theorem anonymous_login_lasts :
    LoggedIn .little {} oneAccount (loginExchange anonymousData) (str "s1") ⟨str "9"⟩ :=
  (login_identity_iff .little {} (oneAccount_accounts ⟨str "9"⟩) (s := loginSession anonymousData)
    (w := tableWith (str "s1") anonymousData 1000 100) rfl rfl rfl rfl
    ⟨by decide, by decide, by decide⟩).mpr ⟨by decide, by decide⟩

/-- **A login over another user** leaves the next request to that user. -/
theorem second_login_lost :
    ¬ LoggedIn .little {} oneAccount (loginExchange otherUserData) (str "s1") ⟨str "9"⟩ := by
  have hlogin : ∃ x', SessionLoginController.handle (manager .little {}) oneAccount
      (loginExchange otherUserData) = .next x' fun outcome x'' =>
        .ret outcome (x''.close (manager .little {})
          ((loginSession otherUserData).add USER_KEY (str "9"))) := ⟨_, rfl⟩
  obtain ⟨x', hlogin⟩ := hlogin
  rintro ⟨x₁, k, hx, -, hnext⟩
  rw [hlogin] at hx
  cases hx
  have hrow : NextOf ((loginExchange otherUserData).close (manager .little {})
      ((loginSession otherUserData).add USER_KEY (str "9"))) (str "s1")
      { loginExchange otherUserData with world := tableWith (str "s1") otherUserData 86500 200 } :=
    ⟨by decide, fun _ => rfl, _, rfl, rfl⟩
  have huser := (hnext (.ok ()) (loginExchange otherUserData) _ (fun _ => rfl) rfl _ hrow).2 _ _ rfl
  exact absurd huser (by decide)

end SQLite3

end Wsrv
