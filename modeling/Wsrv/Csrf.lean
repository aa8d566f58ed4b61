import Wsrv.Auth

/-!
# The CSRF middleware

`CSRFMiddleware` keeps a token in the session and exposes it to the handlers
downstream.  A request that may change something goes on if it submits that
token.

* `constantTimeCompare_iff`: the loop over the XORs is equality.
* `csrf_gate_iff`: an unsafe request goes on exactly when it submits the token
  of the session its cookie names.  The token that a GET has exposed is that
  token in every later request, exactly when the session did not hold an empty
  one: `add` keeps what is there.
-/

namespace Wsrv

open Middleware

/-! ## The comparison -/

/-- `constant_time_compare` -/
def constantTimeCompare (a b : Str) : Bool :=
  if a.length ≠ b.length then false
  else (a.zip b).foldl (fun result p => result ||| (p.1 ^^^ p.2)) 0 = 0

theorem foldl_or_eq_zero (l : List (UInt8 × UInt8)) (result : UInt8) :
    l.foldl (fun result p => result ||| (p.1 ^^^ p.2)) result = 0 ↔
      result = 0 ∧ ∀ p ∈ l, p.1 = p.2 := by
  induction l generalizing result with
  | nil => simp
  | cons p l ih =>
    rw [List.foldl_cons, ih, UInt8.or_eq_zero_iff, UInt8.xor_eq_zero_iff, List.forall_mem_cons,
      and_assoc]

theorem forall_zip_iff {a b : Str} (hlen : a.length = b.length) :
    (∀ p ∈ a.zip b, p.1 = p.2) ↔ a = b := by
  induction a generalizing b with
  | nil => simp [List.eq_nil_of_length_eq_zero hlen.symm]
  | cons c a ih =>
    cases b with
    | nil => cases hlen
    | cons d b =>
      rw [List.zip_cons_cons, List.forall_mem_cons, ih (Nat.succ.inj hlen), List.cons.injEq]

/-- **The comparison is equality.** -/
theorem constantTimeCompare_iff (a b : Str) : constantTimeCompare a b = true ↔ a = b := by
  unfold constantTimeCompare
  by_cases hlen : a.length = b.length
  · rw [if_neg (not_not.mpr hlen), decide_eq_true_eq, foldl_or_eq_zero, forall_zip_iff hlen]
    simp
  · rw [if_pos hlen]
    exact ⟨(nomatch ·), fun h => absurd (congrArg List.length h) hlen⟩

/-! ## The middleware -/

def CSRF_TOKEN : Str := str "csrf_token"

/-- `generate_secure_token`, from the result of `encodeBase64(randomBytes(32))`. -/
def generateSecureToken (code : Str) : Str := code.map fun c => if isalnum c then c else '-'.toUInt8

variable {ω : Type}

/-- `req.data().set(make_shared<CSRFMiddlewareData>(token))` -/
def Exchange.setToken (x : Exchange ω) (token : Str) : Exchange ω :=
  { x with req := { x.req with mwData := x.req.mwData.set .csrfMiddlewareData (some ⟨token⟩) } }

/-- The token of `req.data()`. -/
def Exchange.token (x : Exchange ω) : Option Str :=
  (x.req.mwData.get .csrfMiddlewareData).map CSRFMiddlewareData.token

@[simp] theorem Exchange.token_setToken (x : Exchange ω) (token : Str) :
    (x.setToken token).token = some token := by
  have hget : (x.setToken token).req.mwData.get .csrfMiddlewareData =
      some (⟨token⟩ : CSRFMiddlewareData) := MiddlwareDataStorage.get_set_some ..
  rw [Exchange.token, hget, Option.map_some]

namespace CSRFMiddleware

/-- `ensure_session_has_token`; `draw` is `encodeBase64(randomBytes(32))`. -/
def ensureSessionHasToken (draw : ω → Str × ω) (s : Session) (x : Exchange ω) :
    Session × Exchange ω :=
  let sessionToken := s.get CSRF_TOKEN
  if sessionToken = [] then
    let (code, w) := draw x.world
    let sessionToken := generateSecureToken code
    (s.add CSRF_TOKEN sessionToken, { x with world := w }.setToken sessionToken)
  else (s, x.setToken sessionToken)

def readOnly (method : Str) : Bool :=
  method = str "GET" ∨ method = str "HEAD" ∨ method = str "OPTIONS"

/-- The form data first, then the headers. -/
def submittedToken (req : HTTPServerRequest) : Str :=
  let submittedToken := req.getPostAttribute CSRF_TOKEN
  if submittedToken = [] then req.getServerAttribute (str "X-CSRF-Token") else submittedToken

/-- `handle` -/
def handle (sm : SessionManager ω) (draw : ω → Str × ω) : IMiddleware Exception (Exchange ω) :=
  withSession sm fun s x =>
    if readOnly x.req.method then
      let (s, x) := ensureSessionHasToken draw s x
      (.ok true, s, x)
    else
      let submittedToken := submittedToken x.req
      let sessionToken := s.get CSRF_TOKEN
      if submittedToken = [] ∨ sessionToken = [] ∨
          ¬ constantTimeCompare submittedToken sessionToken then
        (.ok false, s, { x with res := .stockReply .forbidden })
      else (.ok true, s, x.setToken sessionToken)

/-- An unsafe request goes on with the token of its session, or is answered with 403. -/
theorem handle_unsafe {sm : SessionManager ω} {draw : ω → Str × ω} {x : Exchange ω} {s : Session}
    {w : ω} (hmethod : readOnly x.req.method = false)
    (hnew : Session.new sm x.req [] x.world = (.ok s, w)) :
    handle sm draw x =
      if submittedToken x.req ≠ [] ∧ submittedToken x.req = s.get CSRF_TOKEN then
        .next ({ x with world := w }.setToken (s.get CSRF_TOKEN)) fun outcome x =>
          .ret outcome (x.close sm s)
      else .ret (.ok ()) ({ x with world := w, res := .stockReply .forbidden }.close sm s) := by
  unfold handle withSession
  simp only [hnew, hmethod, constantTimeCompare_iff]
  by_cases hpass : submittedToken x.req ≠ [] ∧ submittedToken x.req = s.get CSRF_TOKEN
  · have hne : s.get CSRF_TOKEN ≠ [] := hpass.2 ▸ hpass.1
    rw [if_pos hpass, if_neg (by simp), if_neg (by simp [hne, hpass.2])]
  · rw [if_neg hpass, if_neg (by simp), if_pos]
    by_cases h : submittedToken x.req = []
    · exact .inl h
    · exact .inr (.inr fun he => hpass ⟨h, he⟩)

theorem handle_readOnly {sm : SessionManager ω} (draw : ω → Str × ω) {x : Exchange ω} {s : Session}
    {w : ω} (hmethod : readOnly x.req.method = true)
    (hnew : Session.new sm x.req [] x.world = (.ok s, w)) :
    handle sm draw x = .next (ensureSessionHasToken draw s { x with world := w }).2
      fun outcome x' =>
        .ret outcome (x'.close sm (ensureSessionHasToken draw s { x with world := w }).1) := by
  unfold handle withSession
  simp only [hnew, hmethod, if_true]

end CSRFMiddleware

namespace SQLite3

open SessionData

variable {host : Endian} {settings : SessionSettings}

/-- `encodeBase64(randomBytes(32))` -/
def drawCode (w : World) : Str × World :=
  (w.codes 0, { w with codes := fun n => w.codes (n + 1) })

abbrev csrf (host : Endian) (settings : SessionSettings) :
    IMiddleware Exception (Exchange World) :=
  CSRFMiddleware.handle (manager host settings) drawCode

/-! ## The gate -/

/-- The token in a row. -/
def tokenIn (host : Endian) (w : World) (row : Row) : Option Str :=
  (deserializeData host w.junk row.data ∅)[CSRF_TOKEN]?

/-- The token of the session that the cookie of a request names. -/
def namedToken (host : Endian) (w : World) (req : HTTPServerRequest) : Option Str :=
  let cookie := req.getCookie (Session.cookieName [])
  if cookie = [] then none else (w.live cookie).bind (tokenIn host w)

/-- What the gate is for: an unsafe request goes on if it submits the token of its session, and
is answered with 403 otherwise. -/
def Gate (host : Endian) (settings : SessionSettings) (x : Exchange World) : Prop :=
  let passes := CSRFMiddleware.submittedToken x.req ≠ [] ∧
    namedToken host x.world x.req = some (CSRFMiddleware.submittedToken x.req)
  match csrf host settings x with
  | .next _ _ => passes
  | .ret outcome x' => ¬ passes ∧ outcome = .ok () ∧ x'.res.status = Status.forbidden.code

theorem Opened.token {w : World} {req : HTTPServerRequest} {s : Session}
    (h : Opened host w (Session.cookieName []) (req.getCookie (Session.cookieName [])) s) :
    s.data[CSRF_TOKEN]? = namedToken host w req := by
  unfold namedToken
  simp only
  generalize req.getCookie (Session.cookieName []) = cookie at h ⊢
  have fresh : cookie = [] ∨ w.live cookie = none →
      (if cookie = [] then none else (w.live cookie).bind (tokenIn host w)) = none := by
    rintro (h | h) <;> simp [h]
  cases h with
  | resumed row hne hrow =>
    rw [if_neg hne, hrow]
    rfl
  | started sid hcookie hne hfree => simpa using (fresh hcookie).symm
  | noId hcookie => simpa using (fresh hcookie).symm

theorem gate_holds (host : Endian) (settings : SessionSettings) {x : Exchange World}
    (hf : NoFaults x.world) (hmethod : CSRFMiddleware.readOnly x.req.method = false) :
    Gate host settings x := by
  obtain ⟨s, w, hnew, -, ho⟩ := new_spec host settings hf x.req []
  unfold Gate csrf
  rw [CSRFMiddleware.handle_unsafe hmethod hnew, ← ho.token]
  have hget : s.get CSRF_TOKEN = (s.data[CSRF_TOKEN]?).getD [] :=
    Std.ExtTreeMap.getD_eq_getD_getElem?
  have hiff : CSRFMiddleware.submittedToken x.req ≠ [] ∧
      CSRFMiddleware.submittedToken x.req = s.get CSRF_TOKEN ↔
      CSRFMiddleware.submittedToken x.req ≠ [] ∧
        s.data[CSRF_TOKEN]? = some (CSRFMiddleware.submittedToken x.req) := by
    rw [hget]
    refine and_congr_right fun hne => ?_
    cases s.data[CSRF_TOKEN]? with
    | none => simp [hne]
    | some token => simp [eq_comm]
  by_cases hpass : CSRFMiddleware.submittedToken x.req ≠ [] ∧
      CSRFMiddleware.submittedToken x.req = s.get CSRF_TOKEN
  · rw [if_pos hpass]
    exact hiff.mp hpass
  · rw [if_neg hpass]
    refine ⟨fun h => hpass (hiff.mpr h), rfl, ?_⟩
    rw [Exchange.close_status]
    rfl

/-! ## The token of a GET -/

/-- The token stored under an id. -/
def storedToken (host : Endian) (w : World) (id : Str) : Option Str :=
  (w.sessions[id]?).bind (tokenIn host w)

/-- An unsafe request of the session `id` after the exchange `y`: the session is not expired and
its token has not changed. -/
structure UnsafeUse (host : Endian) (y : Exchange World) (id : Str) (x : Exchange World) :
    Prop where
  method : CSRFMiddleware.readOnly x.req.method = false
  cookie : x.req.getCookie (Session.cookieName []) = id
  faults : NoFaults x.world
  live : x.world.live id ≠ none
  token : storedToken host x.world id = storedToken host y.world id

/-- The request goes on with a token, and whatever happens downstream and afterwards, as long as it
leaves the token of the session alone, an unsafe request that submits the token goes on. -/
def TokenKept (host : Endian) (settings : SessionSettings) (x : Exchange World) (id : Str) : Prop :=
  ∃ x' k token, csrf host settings x = .next x' k ∧ x'.token = some token ∧
    ∀ outcome x'' y, NoFaults x''.world →
      storedToken host x''.world id = storedToken host x'.world id →
      k outcome x'' = .ret outcome y → ∀ x₂, UnsafeUse host y id x₂ →
        CSRFMiddleware.submittedToken x₂.req = token → ∃ x₃ k₃, csrf host settings x₂ = .next x₃ k₃

theorem UnsafeUse.next_iff {y x : Exchange World} {id : Str} (h : UnsafeUse host y id x)
    (hid : id ≠ []) : (∃ x' k, csrf host settings x = .next x' k) ↔
      CSRFMiddleware.submittedToken x.req ≠ [] ∧
        storedToken host y.world id = some (CSRFMiddleware.submittedToken x.req) := by
  have hnamed : namedToken host x.world x.req = storedToken host y.world id := by
    obtain ⟨row, hlive⟩ := Option.ne_none_iff_exists'.mp h.live
    have hrow := (World.live_eq_some.mp hlive).1
    rw [← h.token, namedToken, h.cookie, storedToken, if_neg hid, hlive, hrow]
  have hgate := gate_holds host settings h.faults h.method
  unfold Gate at hgate
  rw [hnamed] at hgate
  cases hx : csrf host settings x with
  | ret outcome x' =>
    rw [hx] at hgate
    refine ⟨?_, fun h => absurd h hgate.1⟩
    rintro ⟨_, _, h⟩
    cases h
  | next x' k =>
    rw [hx] at hgate
    exact ⟨fun _ => hgate, fun _ => ⟨x', k, rfl⟩⟩

/-- The row of a session that has been given a token. -/
theorem close_add (host : Endian) (settings : SessionSettings) {x : Exchange World}
    {s : Session} (hf : NoFaults x.world)
    (hstarted : s.sessionStarted = true) (token : Str) :
    NoFaults (x.close (manager host settings) (s.add CSRF_TOKEN token)).world ∧
      (x.close (manager host settings) (s.add CSRF_TOKEN token)).world.sessions[s.id]? =
        some ⟨serializeData host (s.add CSRF_TOKEN token).data,
          x.world.clock + settings.sessionIdLifetime⟩ := by
  obtain ⟨w', hd, -, -, hf', hsess⟩ :=
    destroy_spec host settings hf (s := s.add CSRF_TOKEN token) hstarted x.res
  have hdata : (s.add CSRF_TOKEN token).data ≠ ∅ := by
    intro hempty
    have hmem : CSRF_TOKEN ∈ (s.add CSRF_TOKEN token).data := by simp [Session.add]
    simp [hempty] at hmem
  have hworld : (x.close (manager host settings) (s.add CSRF_TOKEN token)).world = w' := by
    rw [Exchange.close, hd]
  rw [hworld, hsess, closed, if_neg hdata]
  exact ⟨hf', Std.ExtTreeMap.getElem?_insert_self⟩

/-- It has the token, unless the session held one. -/
theorem storedToken_close_add {x : Exchange World} {s : Session} {token : Str}
    (hf : NoFaults x.world) (hstarted : s.sessionStarted = true)
    (hfits : Fits (s.add CSRF_TOKEN token).data) :
    storedToken host (x.close (manager host settings) (s.add CSRF_TOKEN token)).world s.id =
      some ((s.data[CSRF_TOKEN]?).getD token) := by
  rw [storedToken, (close_add host settings hf hstarted token).2, Option.bind_some, tokenIn,
    deserialize_serialize host host _ _ hfits, Session.add, Std.ExtTreeMap.getElem?_insertIfNew]
  by_cases hk : CSRF_TOKEN ∈ s.data
  · simp [hk]
  · simp [hk]

/-- There is an unsafe request of such a session. -/
theorem exists_unsafeUse (host : Endian) (settings : SessionSettings) {x : Exchange World}
    {s : Session} {token : Str} (hf : NoFaults x.world) (hstarted : s.sessionStarted = true)
    (hne : token ≠ []) :
    ∃ x₂, UnsafeUse host (x.close (manager host settings) (s.add CSRF_TOKEN token)) s.id x₂ ∧
      CSRFMiddleware.submittedToken x₂.req = token := by
  obtain ⟨hf', hrow⟩ := close_add host settings hf hstarted token
  refine ⟨{ req := { HTTPServerRequest.init with
              method := str "POST"
              POST := (∅ : Dictionary).insert CSRF_TOKEN token
              COOKIE := (∅ : Dictionary).insert (Session.cookieName []) s.id }
            res := .init
            world := { (x.close (manager host settings) (s.add CSRF_TOKEN token)).world with
              clock := x.world.clock + settings.sessionIdLifetime - 1 } },
    ⟨rfl, ?_, hf', ?_, rfl⟩, ?_⟩
  · simp [HTTPServerRequest.getCookie]
  · rw [Option.ne_none_iff_exists']
    exact ⟨_, World.live_eq_some.mpr ⟨hrow, by simp only; omega⟩⟩
  · simp [CSRFMiddleware.submittedToken, HTTPServerRequest.getPostAttribute, hne]

/-- A session that held a token leaves the table alone. -/
theorem storedToken_close_same {x : Exchange World} {s : Session} (hf : NoFaults x.world)
    (hstarted : s.sessionStarted = true) (hdata : s.data ≠ ∅) (hmod : s.modified = false) :
    storedToken host (x.close (manager host settings) s).world s.id =
      storedToken host x.world s.id := by
  obtain ⟨w', hd, -, hjunk, -, hsess⟩ := destroy_spec host settings hf hstarted x.res
  have hworld : (x.close (manager host settings) s).world = w' := by rw [Exchange.close, hd]
  rw [hworld, storedToken, hsess, closed, if_neg hdata, hmod, storedToken]
  simp only [Bool.false_eq_true, if_false]
  congr 1
  funext row
  rw [tokenIn, hjunk, tokenIn]

/-- A session that is not empty has been read from a row. -/
theorem Opened.read {w : World} {keyName cookie : Str} {s : Session}
    (h : Opened host w keyName cookie s) (hdata : s.data ≠ ∅) : s.modified = false ∧
      ∃ row, w.live s.id = some row ∧ s.data = deserializeData host w.junk row.data ∅ := by
  cases h with
  | resumed row hne hrow => exact ⟨rfl, row, hrow, rfl⟩
  | started sid hcookie hne hfree => exact absurd rfl hdata
  | noId hcookie => exact absurd rfl hdata

/-- **The exposed token** is good for later requests, unless the session held an empty one. -/
theorem tokenKept_iff (host : Endian) (settings : SessionSettings) {x : Exchange World}
    {s : Session} {w : World} (hf : NoFaults x.world)
    (hmethod : CSRFMiddleware.readOnly x.req.method = true)
    (hopen : Session.new (manager host settings) x.req [] x.world = (.ok s, w))
    (hstarted : s.sessionStarted = true) (hcode : w.codes 0 ≠ [])
    (hfits : Fits (s.add CSRF_TOKEN (generateSecureToken (w.codes 0))).data) :
    TokenKept host settings x s.id ↔ s.data[CSRF_TOKEN]? ≠ some [] := by
  have hid := Session.id_of_new hopen hstarted
  obtain ⟨s', w', hnew, hk, ho⟩ := new_spec host settings hf x.req []
  rw [hopen] at hnew
  cases hnew
  have hget : s.get CSRF_TOKEN = (s.data[CSRF_TOKEN]?).getD [] :=
    Std.ExtTreeMap.getD_eq_getD_getElem?
  have hnext := CSRFMiddleware.handle_readOnly drawCode hmethod hopen
  unfold CSRFMiddleware.ensureSessionHasToken at hnext
  by_cases hempty : s.get CSRF_TOKEN = []
  · have hgen : generateSecureToken (w.codes 0) ≠ [] := by simpa [generateSecureToken] using hcode
    simp only [if_pos hempty, drawCode] at hnext
    constructor
    · rintro ⟨x', k, token, hx, htoken, hall⟩ hheld
      rw [csrf, hnext] at hx
      cases hx
      rw [Exchange.token_setToken, Option.some.injEq] at htoken
      subst htoken
      obtain ⟨x₂, huse, hsubmit⟩ := exists_unsafeUse host settings (x := { x with world := w })
        (s := s) hk.faults hstarted hgen
      have hpass := hall (.ok ()) { x with world := w } _ hk.faults rfl rfl x₂ huse hsubmit
      have hstored := ((huse.next_iff hid).mp hpass).2
      rw [storedToken_close_add hk.faults hstarted hfits, hsubmit, hheld] at hstored
      exact hgen (Option.some.inj hstored).symm
    · intro hheld
      have hnone : s.data[CSRF_TOKEN]? = none := by
        cases htok : s.data[CSRF_TOKEN]? with
        | none => rfl
        | some token =>
          rw [hget, htok] at hempty
          exact absurd (htok.trans (congrArg some hempty)) hheld
      refine ⟨_, _, generateSecureToken (w.codes 0), hnext, Exchange.token_setToken .., ?_⟩
      intro outcome x'' y hf'' _ hy x₂ huse hsubmit
      cases hy
      rw [huse.next_iff hid, hsubmit, storedToken_close_add hf'' hstarted hfits, hnone]
      exact ⟨hgen, rfl⟩
  · simp only [if_neg hempty] at hnext
    obtain ⟨token, htok⟩ : ∃ token, s.data[CSRF_TOKEN]? = some token := by
      cases htok : s.data[CSRF_TOKEN]? with
      | none => simp [hget, htok] at hempty
      | some token => exact ⟨token, rfl⟩
    have htoken : s.get CSRF_TOKEN = token := by rw [hget, htok, Option.getD_some]
    rw [htoken] at hempty hnext
    rw [htok, ne_eq, Option.some.injEq]
    refine ⟨fun _ => hempty, fun _ => ⟨_, _, token, hnext, Exchange.token_setToken .., ?_⟩⟩
    intro outcome x'' y hf'' hsame hy x₂ huse hsubmit
    cases hy
    have hdata : s.data ≠ ∅ := by
      intro h
      simp [h] at htok
    obtain ⟨hmod, row, hlive, hread⟩ := ho.read hdata
    have hstored : storedToken host w s.id = some token := by
      rw [← hk.live, World.live_eq_some] at hlive
      rw [storedToken, hlive.1, Option.bind_some, tokenIn, hk.junk, ← hread, htok]
    rw [huse.next_iff hid, hsubmit, storedToken_close_same hf'' hstarted hdata hmod, hsame]
    exact ⟨hempty, hstored⟩

/-- **The CSRF gate** holds for every unsafe request, and the token that a GET exposes is good for
later requests exactly when the session did not hold an empty one. -/
theorem csrf_gate_iff (host : Endian) (settings : SessionSettings) :
    (∀ x : Exchange World, NoFaults x.world → CSRFMiddleware.readOnly x.req.method = false →
      Gate host settings x) ∧
    ∀ (x : Exchange World) (s : Session) (w : World), NoFaults x.world →
      CSRFMiddleware.readOnly x.req.method = true →
      Session.new (manager host settings) x.req [] x.world = (.ok s, w) →
      s.sessionStarted = true → w.codes 0 ≠ [] →
      Fits (s.add CSRF_TOKEN (generateSecureToken (w.codes 0))).data →
      (TokenKept host settings x s.id ↔ s.data[CSRF_TOKEN]? ≠ some []) :=
  ⟨fun _ hf hmethod => gate_holds host settings hf hmethod,
    fun _ _ _ hf hmethod hopen hstarted hcode hfits =>
      tokenKept_iff host settings hf hmethod hopen hstarted hcode hfits⟩

/-- A request of the session `s1` with the given method and data. -/
def csrfExchange (method : Str) (data : Dictionary) : Exchange World :=
  { req := { HTTPServerRequest.init with
      method := method
      COOKIE := (∅ : Dictionary).insert (str "WSX_SESSION_ID") (str "s1") }
    res := .init
    world := tableWith (str "s1") data 1000 100 }

/-- A post without a token is stopped, and the token of a session without one is kept. -/
theorem csrf_gate_visit : Gate .little {} (csrfExchange (str "POST") visitData) ∧
    TokenKept .little {} (csrfExchange (str "GET") visitData) (str "s1") :=
  ⟨(csrf_gate_iff .little {}).1 _ (fun _ => rfl) rfl,
    ((csrf_gate_iff .little {}).2 (csrfExchange (str "GET") visitData) (loginSession visitData)
      (tableWith (str "s1") visitData 1000 100) (fun _ => rfl) rfl rfl rfl (by decide)
      ⟨by decide, by decide, by decide⟩).mpr (by decide)⟩

def emptyTokenData : Dictionary := (∅ : Dictionary).insert CSRF_TOKEN []

/-- **An empty token** in the session stays there, and what the GET exposes is not accepted. -/
theorem emptyToken_not_kept :
    ¬ TokenKept .little {} (csrfExchange (str "GET") emptyTokenData) (str "s1") := by
  have hiff := tokenKept_iff .little {} (x := csrfExchange (str "GET") emptyTokenData)
    (s := loginSession emptyTokenData) (w := tableWith (str "s1") emptyTokenData 1000 100)
    (fun _ => rfl) rfl rfl rfl (by decide) ⟨by decide, by decide, by decide⟩
  exact fun h => hiff.mp h (by decide)

end SQLite3

end Wsrv
