import Wsrv.Auth

/-!
# Who is logged in

Requests one after the other, each through one of the middlewares that keep the
id of a user in the session, over an `SQLite3SessionManager`.  A `Ledger` says
which user a session belongs to, and until when.  A login enters the user where
there is none, a logout strikes it out, and what changes the session moves its
expiry.  `SessionRequireAuth` lets through what the ledger has
(`require_passes_iff`), and what it has was put there by a login
(`logged_in_before`).
-/

namespace Wsrv.SQLite3

open Middleware Refinement SessionData

/-- The middlewares with a session.  `other` is one that is not about users. -/
inductive Guard
  | require
  | check
  | login
  | logout
  | other (ops : List Session.Op)

def Guard.handle (sm : SessionManager World) (provider : IAuthenticationProvider World) :
    Guard → IMiddleware Exception (Exchange World)
  | .require => SessionRequireAuth.handle sm provider
  | .check => SessionCheckAuth.handle sm provider
  | .login => SessionLoginController.handle sm provider
  | .logout => SessionLogoutController.handle sm
  | .other ops => withSession sm fun s x => (.ok true, s.applyOps ops, x)

/-- A request, its time, and the handler that is downstream. -/
structure Access where
  guard : Guard
  req : HTTPServerRequest
  now : Int
  below : RequestHandler Exception (Exchange World)

/-- The users of the sessions, with the second they expire. -/
abbrev Ledger := Str → Option (Str × Int)

/-- What a request shows: the id of its session, the id of the user that it logs in, whether it
changes the session, and the data it closes it with. -/
structure Shown where
  session : Str
  granted : Option Str
  changed : Bool
  closed : Dictionary

namespace Access

variable (host : Endian) (settings : SessionSettings) (provider : IAuthenticationProvider World)

def exchange (v : Access) (w : World) : Exchange World := ⟨v.req, .init, { w with clock := v.now }⟩

def cookie (v : Access) : Str := v.req.getCookie (Session.cookieName [])

/-- The world behind the request. -/
def leaves (v : Access) (w : World) : World :=
  ((⟨[v.guard.handle (manager host settings) provider], some v.below⟩ :
    MiddlewareContext Exception (Exchange World)).run (v.exchange w)).state.world

/-- What comes downstream. -/
def passes (v : Access) (w : World) : Option (Exchange World) :=
  match v.guard.handle (manager host settings) provider (v.exchange w) with
  | .next x _ => some x
  | .ret _ _ => none

/-- The id of the user whose login form it is. -/
def granted (v : Access) (w : World) : Option Str :=
  match v.guard with
  | .login =>
    if v.req.method = str "POST" then
      match (provider.authenticate (v.req.getPostAttribute (str "username"))
        (v.req.getPostAttribute (str "password")) w).1 with
      | .ok (some user) => some user.getUniqueId
      | _ => none
    else none
  | _ => none

/-- The calls that change the session. -/
def ops (v : Access) (w : World) (s : Session) : List Session.Op :=
  match v.guard with
  | .login =>
    match v.granted provider w with
    | some u => [.add USER_KEY u]
    | none => []
  | .logout => if s.get USER_KEY ≠ [] then [.remove USER_KEY] else []
  | .other ops => ops
  | _ => []

def shown (v : Access) (w : World) : Shown :=
  match Session.new (manager host settings) v.req [] { w with clock := v.now } with
  | (.ok s, w) =>
    ⟨s.id, v.granted provider w, !(v.ops provider w s).isEmpty, (s.applyOps (v.ops provider w s)).data⟩
  | (.error _, _) => ⟨[], none, false, ∅⟩

/-- Nothing but the middleware touches the sessions, and no other one the user. -/
structure Quiet (v : Access) : Prop where
  below : ∀ x, (v.below x).2.world = x.world
  other : ∀ ops, v.guard = .other ops → ¬ Session.Touches ops USER_KEY

end Access

/-- The accounts are not in the world of the sessions, and are there for every id. -/
structure Provides (provider : IAuthenticationProvider World) : Prop where
  authenticate : ∀ username password w, (provider.authenticate username password w).2 = w
  loadUser : ∀ id w, ∃ user, provider.loadUser id w = (.ok user, w)
  identity : ∀ id w user, provider.loadUser id w = (.ok (some user), w) → user.getUniqueId = id

namespace Ledger

def live (L : Ledger) (now : Int) (id : Str) : Option (Str × Int) :=
  (L id).filter fun e => decide (now < e.2)

/-- The user of a session behind a request, by the one before it. -/
def userBehind (x : Access × Shown) : Option (Str × Int) → Option Str
  | some e =>
    match x.1.guard with
    | .logout => if e.1 ≠ [] then none else some e.1
    | _ => some e.1
  | none => x.2.granted

/-- **What a request does to the ledger.** -/
def next (settings : SessionSettings) (L : Ledger) (x : Access × Shown) : Ledger :=
  if x.2.session = [] then L
  else
    let entry := L.live x.1.now x.2.session
    let expiry := if x.2.changed then x.1.now + settings.sessionIdLifetime else (entry.map (·.2)).getD 0
    Function.update L x.2.session ((userBehind x entry).map (·, expiry))

/-- The ledger behind a run. -/
def behind (settings : SessionSettings) (xs : List (Access × Shown)) : Ledger :=
  xs.foldl (next settings) fun _ => none

/-- The users in the dictionaries of a map. -/
def ofMap (A : ExpiringMap) : Ledger := fun id =>
  (A id).bind fun e => (e.1[USER_KEY]?).map (·, e.2)

end Ledger

/-- A request that is not before the last one. -/
structure Accesses (host : Endian) (settings : SessionSettings) (provider : IAuthenticationProvider World)
    (w : World) (x : Access × Shown) (w' : World) : Prop where
  later : w.clock ≤ x.1.now
  shown : x.2 = x.1.shown host settings provider w
  leaves : w' = x.1.leaves host settings provider w

/-! ## A request on the table -/

variable {host : Endian} {settings : SessionSettings} {provider : IAuthenticationProvider World}

theorem Provides.load (h : Provides provider) (id : Str) (x : Exchange World) :
    ∃ user, x.loadUser provider id = (.ok true, x.setUser user) ∧
      provider.loadUser id x.world = (.ok user, x.world) := by
  obtain ⟨user, hload⟩ := h.loadUser id x.world
  refine ⟨user, ?_, hload⟩
  unfold Exchange.loadUser
  rw [hload]

/-- What a middleware with a session leaves, where nothing else touches the world. -/
theorem withSession_leaves {sm : SessionManager World}
    {pre : Session → Exchange World → Except Exception Bool × Session × Exchange World}
    {below : RequestHandler Exception (Exchange World)} {x y : Exchange World} {s t : Session} {w : World}
    {r : Except Exception Bool} (hnew : Session.new sm x.req [] x.world = (.ok s, w))
    (hpre : pre s { x with world := w } = (r, t, y)) (hy : y.world = w)
    (hbelow : ∀ z, (below z).2.world = z.world) :
    ∃ resp, ((⟨[withSession sm pre], some below⟩ : MiddlewareContext Exception (Exchange World)).run
      x).state.world = (t.destroy sm resp w).2 := by
  simp only [MiddlewareContext.run, MiddlewareContext.next, List.length_singleton, Nat.sub_zero,
    MiddlewareContext.nextUpTo, List.getElem?_cons_zero, withSession, hnew, hpre]
  rcases r with e | _ | _
  · exact ⟨y.res, by simp only [Prog.run, Exchange.close, hy]⟩
  · exact ⟨y.res, by simp only [Prog.run, Exchange.close, hy]⟩
  · refine ⟨(below y).2.res, ?_⟩
    simp only [Prog.run, MiddlewareContext.runHandler, Exchange.close, hbelow, hy]

/-- The body of a middleware makes the calls, and leaves the world. -/
theorem handle_body (hprov : Provides provider) (sm : SessionManager World) (v : Access) :
    ∃ body, v.guard.handle sm provider = withSession sm body ∧ ∀ s x, x.req = v.req →
      ∃ r y, body s x = (r, s.applyOps (v.ops provider x.world s), y) ∧ y.world = x.world := by
  cases hguard : v.guard with
  | require =>
    unfold Guard.handle SessionRequireAuth.handle
    refine ⟨_, rfl, fun s x _ => ?_⟩
    have hops : v.ops provider x.world s = [] := by
      unfold Access.ops
      rw [hguard]
    rw [hops]
    by_cases hid : s.get USER_KEY = []
    · exact ⟨_, _, if_pos hid, rfl⟩
    · obtain ⟨user, hload, -⟩ := hprov.load (s.get USER_KEY) x
      refine ⟨.ok true, x.setUser user, ?_, rfl⟩
      simp only [if_neg hid, hload]
      rfl
  | check =>
    unfold Guard.handle SessionCheckAuth.handle
    refine ⟨_, rfl, fun s x _ => ?_⟩
    have hops : v.ops provider x.world s = [] := by
      unfold Access.ops
      rw [hguard]
    rw [hops]
    by_cases hid : s.get USER_KEY = []
    · exact ⟨_, _, if_neg (not_not_intro hid), rfl⟩
    · obtain ⟨user, hload, -⟩ := hprov.load (s.get USER_KEY) x
      refine ⟨.ok true, x.setUser user, ?_, rfl⟩
      simp only [ne_eq, hid, not_false_eq_true, if_true, hload]
      rfl
  | login =>
    unfold Guard.handle SessionLoginController.handle
    refine ⟨_, rfl, fun s x hreq => ?_⟩
    unfold Access.ops Access.granted
    simp only [hguard, hreq]
    by_cases hpost : v.req.method = str "POST"
    · have hauth := hprov.authenticate (v.req.getPostAttribute (str "username"))
        (v.req.getPostAttribute (str "password")) x.world
      rcases ha : provider.authenticate (v.req.getPostAttribute (str "username"))
        (v.req.getPostAttribute (str "password")) x.world with ⟨e | _ | u, w⟩
      · rw [ha] at hauth
        refine ⟨.error e, { x with req := v.req, world := w }, ?_, hauth⟩
        simp only [if_pos hpost]
        rfl
      · rw [ha] at hauth
        refine ⟨.ok true, { x with req := v.req, world := w }, ?_, hauth⟩
        simp only [if_pos hpost]
        rfl
      · rw [ha] at hauth
        refine ⟨.ok true, { x with req := v.req, world := w }.setUser (some u), ?_, hauth⟩
        simp only [if_pos hpost]
        rfl
    · simp only [if_neg hpost]
      by_cases hid : s.get USER_KEY = []
      · exact ⟨_, _, if_neg (not_not_intro hid), rfl⟩
      · obtain ⟨user, hload, -⟩ := hprov.load (s.get USER_KEY) x
        refine ⟨.ok true, x.setUser user, ?_, rfl⟩
        simp only [ne_eq, hid, not_false_eq_true, if_true, hload]
        rfl
  | logout =>
    unfold Guard.handle SessionLogoutController.handle
    refine ⟨_, rfl, fun s x _ => ?_⟩
    unfold Access.ops
    simp only [hguard]
    by_cases hid : s.get USER_KEY = []
    · simp only [hid, ne_eq, not_true_eq_false, if_false]
      exact ⟨_, _, rfl, rfl⟩
    · simp only [hid, ne_eq, not_false_eq_true, if_true]
      exact ⟨_, _, rfl, rfl⟩
  | other ops =>
    unfold Guard.handle
    refine ⟨_, rfl, fun s x _ => ?_⟩
    unfold Access.ops
    simp only [hguard]
    exact ⟨_, _, rfl, rfl⟩

/-- **The calls of a request**, whatever its middleware. -/
theorem leaves_spec (hprov : Provides provider) {v : Access} (hq : v.Quiet) {w w₁ : World} {s : Session}
    (hnew : Session.new (manager host settings) v.req [] { w with clock := v.now } = (.ok s, w₁)) :
    ∃ resp, v.leaves host settings provider w =
      ((s.applyOps (v.ops provider w₁ s)).destroy (manager host settings) resp w₁).2 := by
  obtain ⟨body, hbody, hspec⟩ := handle_body hprov (manager host settings) v
  obtain ⟨r, y, hpre, hy⟩ := hspec s { v.exchange w with world := w₁ } rfl
  unfold Access.leaves
  rw [hbody]
  exact withSession_leaves (x := v.exchange w) hnew hpre hy hq.below

/-! ## The ledger of a map -/

namespace Ledger

theorem ofMap_live (A : ExpiringMap) (now : Int) (id : Str) :
    (ofMap A).live now id = (A.live now id).bind fun e => (e.1[USER_KEY]?).map (·, e.2) := by
  unfold live ofMap ExpiringMap.live
  rcases A id with _ | ⟨d, ts⟩
  · rfl
  · simp only [Option.bind_some, Option.filter_some]
    by_cases hts : now < ts
    · cases hd : d[USER_KEY]? <;> simp [hts, hd]
    · have hle := Int.not_lt.mp hts
      cases hd : d[USER_KEY]? <;> simp [hts, hle]

end Ledger

/-- The user behind the calls, by the user before them. -/
theorem ops_user {v : Access} (hq : v.Quiet) {x : Access × Shown} (w : World) (s : Session) (ts : Int)
    (hx : x.1 = v) (hgranted : x.2.granted = v.granted provider w) :
    (Session.changed (v.ops provider w s) s.data)[USER_KEY]? =
      Ledger.userBehind x ((s.data[USER_KEY]?).map (·, ts)) := by
  have hnone (hguard : v.guard ≠ .login) : v.granted provider w = none := by
    unfold Access.granted
    split
    · exact absurd ‹_› hguard
    · rfl
  unfold Ledger.userBehind
  rw [hx, hgranted]
  cases hguard : v.guard with
  | require =>
    rw [hnone (by simp [hguard]), Access.ops, hguard]
    change s.data[USER_KEY]? = _
    cases s.data[USER_KEY]? <;> rfl
  | check =>
    rw [hnone (by simp [hguard]), Access.ops, hguard]
    change s.data[USER_KEY]? = _
    cases s.data[USER_KEY]? <;> rfl
  | login =>
    rw [Access.ops, hguard]
    simp only
    rcases v.granted provider w with _ | u
    · change s.data[USER_KEY]? = _
      cases s.data[USER_KEY]? <;> rfl
    · change (s.data.insertIfNew USER_KEY u)[USER_KEY]? = _
      rw [Std.ExtTreeMap.getElem?_insertIfNew]
      cases hd : s.data[USER_KEY]? with
      | none => simp [Std.ExtTreeMap.mem_iff_isSome_getElem?, hd]
      | some old => simp [Std.ExtTreeMap.mem_iff_isSome_getElem?, hd]
  | logout =>
    rw [hnone (by simp [hguard]), Access.ops, hguard]
    simp only [Session.get, Std.ExtTreeMap.getD_eq_getD_getElem?]
    cases hd : s.data[USER_KEY]? with
    | none => exact hd
    | some old =>
      by_cases hold : old = []
      · simp only [hold, Option.getD_some, ne_eq, not_true_eq_false, if_false, Option.map_some]
        rw [← hold]
        exact hd
      · simp only [hold, Option.getD_some, ne_eq, not_false_eq_true, if_true, Option.map_some]
        exact Std.ExtTreeMap.getElem?_erase_self
  | other ops =>
    rw [hnone (by simp [hguard]), Access.ops, hguard, Session.changed_untouched (hq.other ops hguard)]
    cases s.data[USER_KEY]? <;> rfl

/-- What a session of the constructor holds is in the ledger under the cookie. -/
theorem opened_user {w : World} {A : ExpiringMap} (h : Represents host w A) {keyName cookie : Str} {s : Session}
    (ho : Opened host w keyName cookie s) :
    ∃ ts, (Ledger.ofMap A).live w.clock cookie = (s.data[USER_KEY]?).map (·, ts) := by
  rw [Ledger.ofMap_live]
  by_cases hs : s.sessionStarted = true
  · rcases (h.openedFrom ho hs).origin with ⟨ts, hlive, -, -⟩ | ⟨hnone, hdata, -, -⟩
    · exact ⟨ts, by rw [hlive]; rfl⟩
    · exact ⟨0, by rw [hnone, hdata]; rfl⟩
  · cases ho with
    | resumed => exact absurd rfl hs
    | started => exact absurd rfl hs
    | noId hcookie =>
      refine ⟨0, ?_⟩
      have hnone : A.live w.clock cookie = none := by
        rcases hcookie with rfl | hdead
        · simp [ExpiringMap.live, h.noId]
        · exact h.live_none.mp hdead
      rw [hnone]
      rfl

/-- **Closing** a session moves the ledger of the map on. -/
theorem close_ledger {A : ExpiringMap} {keyName cookie : Str} {s : Session} {x : Access × Shown}
    {ops : List Session.Op} (ho : OpenedFrom A x.1.now keyName cookie s) (hid : x.2.session = s.id)
    (hchanged : x.2.changed = !ops.isEmpty)
    (huser : ∀ ts, (Session.changed ops s.data)[USER_KEY]? =
      Ledger.userBehind x ((s.data[USER_KEY]?).map (·, ts))) :
    Ledger.ofMap (A.close (x.1.now + settings.sessionIdLifetime) (s.applyOps ops)) =
      (Ledger.ofMap A).next settings x := by
  obtain ⟨ts, hentry, hkept⟩ : ∃ ts, (Ledger.ofMap A).live x.1.now s.id = (s.data[USER_KEY]?).map (·, ts) ∧
      (s.data ≠ ∅ → A s.id = some (s.data, ts)) := by
    rcases ho.origin with ⟨ts, hlive, hcookie, -⟩ | ⟨-, hdata, hfree, -⟩
    · rw [← hcookie] at hlive
      refine ⟨ts, ?_, fun _ => (ExpiringMap.live_eq_some.mp hlive).1⟩
      rw [Ledger.ofMap_live, hlive]
      rfl
    · refine ⟨0, ?_, fun hne => absurd hdata hne⟩
      rw [Ledger.ofMap_live, hfree, hdata]
      rfl
  funext id
  unfold Ledger.next
  rw [if_neg (by rw [hid]; exact ho.id), hid]
  by_cases hne : id = s.id
  · subst hne
    simp only [Function.update_self, hentry, ← huser ts, hchanged]
    unfold Ledger.ofMap ExpiringMap.close
    simp only [Session.applyOps_id, Function.update_self, Session.applyOps_data,
      Session.applyOps_modified, ho.unmodified, Bool.false_or]
    by_cases hempty : Session.changed ops s.data = ∅
    · rw [if_pos hempty, hempty]
      rfl
    · rw [if_neg hempty]
      cases hops : ops.isEmpty with
      | true =>
        -- nothing was changed, and the entry keeps its second
        obtain rfl := List.isEmpty_iff.mp hops
        rw [hkept hempty]
        change (s.data[USER_KEY]?).map (·, ts) = (s.data[USER_KEY]?).map _
        cases s.data[USER_KEY]? <;> rfl
      | false => rfl
  · rw [Function.update_of_ne hne]
    unfold Ledger.ofMap ExpiringMap.close
    rw [Function.update_of_ne (by simpa using hne)]

/-- **One request** moves the ledger of the table on. -/
theorem leaves_ledger (hprov : Provides provider) {v : Access} (hq : v.Quiet) {w : World} {A : ExpiringMap}
    (h : Represents host w A) (hlater : w.clock ≤ v.now)
    (hfits : Fits (v.shown host settings provider w).closed) :
    ∃ A', Represents host (v.leaves host settings provider w) A' ∧
      Ledger.ofMap A' = (Ledger.ofMap A).next settings (v, v.shown host settings provider w) := by
  have hnow := h.advance hlater
  obtain ⟨s, w₁, hnew, hk, ho⟩ := new_spec host settings hnow.faults v.req []
  have hshown : v.shown host settings provider w = ⟨s.id, v.granted provider w₁,
      !(v.ops provider w₁ s).isEmpty, (s.applyOps (v.ops provider w₁ s)).data⟩ := by
    unfold Access.shown
    rw [hnew]
  rw [hshown] at hfits ⊢
  obtain ⟨resp, hleaves⟩ := leaves_spec hprov hq hnew
  rw [hleaves]
  have hclock₁ : w₁.clock = v.now := hk.clock
  by_cases hs : s.sessionStarted = true
  · have hopened := hnow.openedFrom ho hs
    have hfresh : (s.applyOps (v.ops provider w₁ s)).setCookie = true →
        A.live w₁.clock (s.applyOps (v.ops provider w₁ s)).id = none := by
      rw [Session.applyOps_setCookie, Session.applyOps_id, hclock₁]
      intro hset
      rcases hopened.origin with ⟨_, _, _, hno⟩ | ⟨_, _, hnone, _⟩
      · exact absurd (hset.symm.trans hno) (by decide)
      · exact hnone
    obtain ⟨w', hd, hclock, -, hf, hsess⟩ := destroy_spec host settings hk.faults
      (s := s.applyOps (v.ops provider w₁ s)) (by simpa using hs) resp
    rw [hd]
    refine ⟨A.close (w₁.clock + settings.sessionIdLifetime) (s.applyOps (v.ops provider w₁ s)),
      (hnow.keeps hk).close hfits (by simpa using hopened.id) hfresh hclock hf hsess, ?_⟩
    rw [hclock₁]
    exact close_ledger (x := (v, _)) hopened rfl rfl fun ts => ops_user hq w₁ s ts rfl rfl
  · cases ho with
    | resumed => exact absurd rfl hs
    | started => exact absurd rfl hs
    | noId hcookie =>
      refine ⟨A, ?_, ?_⟩
      · unfold Session.destroy
        rw [if_neg (by simp)]
        exact hnow.keeps hk
      · unfold Ledger.next
        rw [if_pos rfl]

/-- **The table keeps a ledger.** -/
theorem ledger_simulates (hprov : Provides provider) :
    Simulates (Accesses host settings provider) (fun L x L' => L' = Ledger.next settings L x)
      (fun x => x.1.Quiet ∧ Fits x.2.closed) fun w L => ∃ A, Represents host w A ∧ Ledger.ofMap A = L := by
  rintro w L ⟨v, o⟩ w' ⟨A, hrep, rfl⟩ ⟨hq, hfits⟩ ⟨hlater, hshown, hleaves⟩
  simp only at hq hfits hlater hshown hleaves
  subst hshown hleaves
  obtain ⟨A', hrep', hledger⟩ := leaves_ledger hprov hq hrep hlater hfits
  exact ⟨_, rfl, A', hrep', hledger⟩

theorem run_ledger (hprov : Provides provider) {w₀ w : World} {xs : List (Access × Shown)} (h₀ : NoFaults w₀)
    (hempty : w₀.sessions = ∅) (hrun : Run (Accesses host settings provider) w₀ xs w)
    (hxs : ∀ x ∈ xs, x.1.Quiet ∧ Fits x.2.closed) :
    ∃ A, Represents host w A ∧ Ledger.ofMap A = Ledger.behind settings xs := by
  obtain ⟨L, hL, A, hrep, hA⟩ := (ledger_simulates hprov).run hrun
    ⟨_, represents_empty h₀ hempty, rfl⟩ hxs
  exact ⟨A, hrep, hA.trans hL.eq_foldl⟩

/-! ## What the guard lets through -/

/-- `SessionRequireAuth` looks at the id of the user in the session. -/
theorem require_passes (hprov : Provides provider) {v : Access} (hguard : v.guard = .require) {w w₁ : World}
    {s : Session} (hnew : Session.new (manager host settings) v.req [] { w with clock := v.now } = (.ok s, w₁)) :
    v.passes host settings provider w =
      if s.get USER_KEY = [] then none
      else
        some ((({ v.exchange w with world := w₁ } : Exchange World)).setUser
          ((provider.loadUser (s.get USER_KEY) w₁).1.toOption.join)) := by
  unfold Access.passes
  rw [hguard, Guard.handle, SessionRequireAuth.handle, withSession]
  have hnew' : Session.new (manager host settings) (v.exchange w).req [] (v.exchange w).world = (.ok s, w₁) :=
    hnew
  simp only [hnew']
  by_cases hid : s.get USER_KEY = []
  · simp only [if_pos hid]
  · obtain ⟨user, hload, hprovider⟩ := hprov.load (s.get USER_KEY) { v.exchange w with world := w₁ }
    simp only at hprovider
    simp only [if_neg hid, hload, hprovider]
    rfl

/-- A request behind a run, to a path that needs a user. -/
structure Asks (host : Endian) (settings : SessionSettings) (provider : IAuthenticationProvider World)
    (xs : List (Access × Shown)) (w : World) (v : Access) : Prop where
  started : ∃ w₀, NoFaults w₀ ∧ w₀.sessions = ∅ ∧ Run (Accesses host settings provider) w₀ xs w
  accesses : ∀ x ∈ xs, x.1.Quiet ∧ Fits x.2.closed
  later : w.clock ≤ v.now
  guard : v.guard = .require
  fresh : v.req.mwData.get .authenticatedUser = none

/-- What the guard lets through, by the ledger. -/
theorem Asks.passes (hprov : Provides provider) {xs : List (Access × Shown)} {w : World} {v : Access}
    (h : Asks host settings provider xs w v) :
    ((∃ x, v.passes host settings provider w = some x) ↔
      ∃ e, (Ledger.behind settings xs).live v.now v.cookie = some e ∧ e.1 ≠ []) ∧
    ∀ x e, v.passes host settings provider w = some x →
      (Ledger.behind settings xs).live v.now v.cookie = some e →
        ∀ user, x.user = some user → user.getUniqueId = e.1 := by
  obtain ⟨w₀, h₀, hempty, hrun⟩ := h.started
  obtain ⟨A, hrep, hledger⟩ := run_ledger hprov h₀ hempty hrun h.accesses
  have hnow := hrep.advance h.later
  obtain ⟨s, w₁, hnew, hk, ho⟩ := new_spec host settings hnow.faults v.req []
  obtain ⟨ts, hentry⟩ := opened_user hnow ho
  have hentry' : (Ledger.behind settings xs).live v.now v.cookie = (s.data[USER_KEY]?).map (·, ts) := by
    rw [← hledger]
    exact hentry
  rw [require_passes hprov h.guard hnew, hentry']
  have hget : s.get USER_KEY = (s.data[USER_KEY]?).getD [] := Std.ExtTreeMap.getD_eq_getD_getElem?
  cases hd : s.data[USER_KEY]? with
  | none =>
    rw [hd] at hget
    rw [hget, Option.getD_none, if_pos rfl]
    simp
  | some u =>
    rw [hd, Option.getD_some] at hget
    rw [hget]
    by_cases hu : u = []
    · rw [if_pos hu]
      simp [hu]
    · rw [if_neg hu]
      refine ⟨⟨fun _ => ⟨_, rfl, hu⟩, fun _ => ⟨_, rfl⟩⟩, fun x e hx he user huser => ?_⟩
      cases hx
      cases he
      obtain ⟨r, hload⟩ := hprov.loadUser u w₁
      rw [hload] at huser
      cases r with
      | none => exact absurd (h.fresh.symm.trans huser) (by simp)
      | some loaded =>
        have hset : (({ v.exchange w with world := w₁ } : Exchange World).setUser (some loaded)).user =
            some loaded := MiddlwareDataStorage.get_set_some ..
        rw [show (Except.ok (some loaded) : Except Exception _).toOption.join = some loaded from rfl, hset]
          at huser
        cases huser
        exact hprov.identity u w₁ user hload

/-! ## Where an entry comes from -/

/-- A login changes the session. -/
theorem shown_granted {v : Access} {w : World} {u : Str} (h : (v.shown host settings provider w).granted = some u) :
    v.guard = .login ∧ (v.shown host settings provider w).changed = true := by
  unfold Access.shown at h ⊢
  split at h
  · rename_i s w₁ _
    simp only at h ⊢
    have hguard : v.guard = .login := by
      unfold Access.granted at h
      split at h
      · assumption
      · cases h
    refine ⟨hguard, ?_⟩
    unfold Access.ops
    rw [hguard]
    simp only [h]
    rfl
  · cases h

theorem run_granted {w w' : World} {xs : List (Access × Shown)} (hrun : Run (Accesses host settings provider) w xs w') :
    ∀ x ∈ xs, ∀ u, x.2.granted = some u → x.1.guard = .login ∧ x.2.changed = true := by
  induction hrun with
  | nil => simp
  | cons hstep _ ih =>
    intro x hx u hu
    rcases List.mem_cons.mp hx with rfl | hx
    · rw [hstep.shown] at hu ⊢
      exact shown_granted hu
    · exact ih x hx u hu

/-- The requests behind a run that an entry of the ledger comes from: the login, and the last one
that changed the session. -/
structure Entered (settings : SessionSettings) (xs : List (Access × Shown)) (id u : Str) (ts : Int)
    (before : List (Access × Shown)) (l : Access × Shown) (after : List (Access × Shown)) : Prop where
  split : xs = before ++ l :: after
  started : id ≠ []
  session : l.2.session = id
  granted : l.2.granted = some u
  kept : ∀ a ∈ after, a.2.session = id → a.1.guard ≠ .logout
  expiry : ∃ a ∈ l :: after, a.2.session = id ∧ a.2.changed = true ∧
    ts = a.1.now + settings.sessionIdLifetime

/-- A request that does not log the session out leaves where its entry comes from. -/
theorem Entered.concat {xs before after : List (Access × Shown)} {l x : Access × Shown} {id u : Str} {ts : Int}
    (h : Entered settings xs id u ts before l after) (hx : x.2.session = id → x.1.guard ≠ .logout) :
    Entered settings (xs ++ [x]) id u ts before l (after ++ [x]) where
  split := by
    rw [h.split, List.append_assoc]
    rfl
  started := h.started
  session := h.session
  granted := h.granted
  kept a ha := by
    rcases List.mem_append.mp ha with hold | hnew
    · exact h.kept a hold
    · rw [List.mem_singleton.mp hnew]
      exact hx
  expiry := by
    obtain ⟨a, ha, hexpiry⟩ := h.expiry
    refine ⟨a, ?_, hexpiry⟩
    rw [← List.cons_append]
    exact List.mem_append_left _ ha

/-- **An entry of the ledger** was put there by a login. -/
theorem Ledger.entered {xs : List (Access × Shown)}
    (hxs : ∀ x ∈ xs, ∀ u, x.2.granted = some u → x.1.guard = .login ∧ x.2.changed = true) {id u : Str}
    {ts : Int} (he : Ledger.behind settings xs id = some (u, ts)) (hu : u ≠ []) :
    ∃ before l after, Entered settings xs id u ts before l after := by
  induction xs using List.reverseRecOn generalizing u ts with
  | nil => cases he
  | append_singleton xs x ih =>
    have ih := @ih fun y hy => hxs y (List.mem_append_left _ hy)
    have hx := hxs x (List.mem_append_right _ List.mem_cons_self)
    rw [Ledger.behind, List.foldl_append, List.foldl_cons, List.foldl_nil, ← Ledger.behind, Ledger.next] at he
    by_cases hnone : x.2.session = []
    · rw [if_pos hnone] at he
      obtain ⟨before, l, after, hl⟩ := ih he hu
      exact ⟨before, l, after ++ [x], hl.concat fun hid => absurd (hid.symm.trans hnone) hl.started⟩
    · rw [if_neg hnone] at he
      by_cases hid : id = x.2.session
      · subst hid
        rw [Function.update_self] at he
        obtain ⟨u', huser, heq⟩ := Option.map_eq_some_iff.mp he
        obtain ⟨rfl, hts⟩ := Prod.mk.inj heq
        cases hentry : (Ledger.behind settings xs).live x.1.now x.2.session with
        | none =>
          -- the login itself
          rw [hentry] at huser
          have hchanged := (hx u' huser).2
          rw [if_pos hchanged] at hts
          exact ⟨xs, x, [], rfl, hnone, rfl, huser, by simp, x, List.mem_cons_self, rfl, hchanged, hts.symm⟩
        | some e =>
          obtain ⟨hold, -⟩ : (Ledger.behind settings xs) x.2.session = some e ∧ _ := by
            simpa [Ledger.live, Option.filter_eq_some_iff] using hentry
          have hkept : u' = e.1 ∧ x.1.guard ≠ .logout := by
            rw [hentry] at huser
            unfold Ledger.userBehind at huser
            simp only at huser
            split at huser
            · split_ifs at huser with hempty
              cases huser
              exact absurd (not_not.mp hempty) hu
            · rename_i hguard
              exact ⟨(Option.some.inj huser).symm, hguard⟩
          obtain ⟨rfl, hguard⟩ := hkept
          obtain ⟨before, l, after, hl⟩ := ih (show _ = some (e.1, e.2) from hold) hu
          have hl' := hl.concat (x := x) fun _ => hguard
          refine ⟨before, l, after ++ [x], { hl' with expiry := ?_ }⟩
          by_cases hchanged : x.2.changed = true
          · rw [if_pos hchanged] at hts
            exact ⟨x, List.mem_cons_of_mem _ (List.mem_append_right _ List.mem_cons_self), rfl, hchanged, hts.symm⟩
          · rw [if_neg hchanged, hentry] at hts
            rw [← hts]
            exact hl'.expiry
      · rw [Function.update_of_ne hid] at he
        obtain ⟨before, l, after, hl⟩ := ih he hu
        exact ⟨before, l, after ++ [x], hl.concat fun heq => absurd heq.symm hid⟩

/-! ## Results -/

theorem oneAccount_provides : Provides oneAccount where
  authenticate _ _ _ := rfl
  loadUser id _ := ⟨some ⟨id⟩, rfl⟩
  identity id w user h := by
    cases h
    rfl

/-- The login of user 9, without a cookie. -/
def firstLogin : Access where
  guard := .login
  req := { HTTPServerRequest.init with
    method := str "POST"
    POST := ((∅ : Dictionary).insert (str "username") (str "bob")).insert (str "password") (str "pw") }
  now := 100
  below x := (.ok (), x)

/-- A request with the cookie that the login was given. -/
def laterRequest : Access where
  guard := .require
  req := { HTTPServerRequest.init with
    COOKIE := (∅ : Dictionary).insert (Session.cookieName []) (str "k-9") }
  now := 200
  below x := (.ok (), x)

/-- The run of the login alone. -/
def loginRun : List (Access × Shown) :=
  [(firstLogin, firstLogin.shown .little {} oneAccount (tableOf ∅ 100))]

def loginWorld : World := firstLogin.leaves .little {} oneAccount (tableOf ∅ 100)

theorem laterRequest_asks : Asks .little {} oneAccount loginRun loginWorld laterRequest where
  started := ⟨tableOf ∅ 100, fun _ => rfl, rfl, .cons ⟨by decide, rfl, rfl⟩ (.nil _)⟩
  accesses x hx := by
    rw [List.mem_singleton.mp hx]
    exact ⟨⟨fun _ => rfl, fun _ h => by cases h⟩, by decide +kernel, by decide +kernel, by decide +kernel⟩
  later := by decide +kernel
  guard := rfl
  fresh := rfl

/-- **The guard follows the ledger**: behind every run, `SessionRequireAuth` lets a request through if
and only if the ledger has an unexpired user for the session of its cookie, and the user that it
loads is that one. -/
theorem require_passes_iff (hprov : Provides provider) {xs : List (Access × Shown)} {w : World} {v : Access}
    (h : Asks host settings provider xs w v) :
    ((∃ x, v.passes host settings provider w = some x) ↔
      ∃ e, (Ledger.behind settings xs).live v.now v.cookie = some e ∧ e.1 ≠ []) ∧
    ∀ x e, v.passes host settings provider w = some x →
      (Ledger.behind settings xs).live v.now v.cookie = some e →
        ∀ user, x.user = some user → user.getUniqueId = e.1 :=
  h.passes hprov

theorem laterRequest_passes :
    ∃ e, (Ledger.behind {} loginRun).live 200 (str "k-9") = some e ∧ e.1 ≠ [] := by
  have hpass : (laterRequest.passes .little {} oneAccount loginWorld).isSome = true := by decide +kernel
  exact (require_passes_iff oneAccount_provides laterRequest_asks).1.mp (Option.isSome_iff_exists.mp hpass)

/-- **Who passes has logged in before**: in the session of its cookie, as the user that is loaded,
without a logout since, and the session was changed within its lifetime. -/
theorem logged_in_before (hprov : Provides provider) {xs : List (Access × Shown)} {w : World} {v : Access}
    (h : Asks host settings provider xs w v) {x : Exchange World}
    (hpass : v.passes host settings provider w = some x) :
    ∃ before l after u, xs = before ++ l :: after ∧ l.1.guard = .login ∧ l.2.session = v.cookie ∧
      l.2.granted = some u ∧ (∀ user, x.user = some user → user.getUniqueId = u) ∧
      (∀ a ∈ after, a.2.session = v.cookie → a.1.guard ≠ .logout) ∧
      ∃ a ∈ l :: after, a.2.session = v.cookie ∧ a.2.changed = true ∧
        v.now < a.1.now + settings.sessionIdLifetime := by
  obtain ⟨hiff, huser⟩ := h.passes hprov
  obtain ⟨⟨u, ts⟩, hlive, hu⟩ := hiff.mp ⟨x, hpass⟩
  obtain ⟨w₀, -, -, hrun⟩ := h.started
  have hgranted := run_granted hrun
  obtain ⟨hentry, hts⟩ : Ledger.behind settings xs v.cookie = some (u, ts) ∧ v.now < ts := by
    simpa [Ledger.live, Option.filter_eq_some_iff] using hlive
  obtain ⟨before, l, after, hl⟩ := Ledger.entered hgranted hentry hu
  obtain ⟨a, ha, hsession, hchanged, rfl⟩ := hl.expiry
  have hmem : l ∈ xs := by
    rw [hl.split]
    exact List.mem_append_right _ List.mem_cons_self
  exact ⟨before, l, after, u, hl.split, (hgranted l hmem u hl.granted).1, hl.session, hl.granted,
    huser x _ hpass hlive, hl.kept, a, ha, hsession, hchanged, hts⟩

theorem laterRequest_logged_in :
    ∃ l ∈ loginRun, l.1.guard = .login ∧ l.2.session = str "k-9" ∧ l.2.granted = some (str "9") := by
  have hpass : ((laterRequest.passes .little {} oneAccount loginWorld).bind (·.user)).map
      IAuthenticatedUser.getUniqueId = some (str "9") := by decide +kernel
  obtain ⟨user, huser, hid⟩ := Option.map_eq_some_iff.mp hpass
  obtain ⟨x, hx, huser⟩ := Option.bind_eq_some_iff.mp huser
  obtain ⟨before, l, after, u, hsplit, hguard, hsession, hgranted, hidentity, -, -⟩ :=
    logged_in_before oneAccount_provides laterRequest_asks hx
  refine ⟨l, ?_, hguard, hsession, ?_⟩
  · rw [hsplit]
    exact List.mem_append_right _ List.mem_cons_self
  · rw [hgranted, ← hidentity user huser, hid]

end Wsrv.SQLite3
