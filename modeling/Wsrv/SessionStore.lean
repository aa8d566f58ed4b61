import Wsrv.SQLite3Session
import Wsrv.Lib.Refinement

/-!
# The session store as an expiring map

Requests that do not overlap, each with one `Session` over an
`SQLite3SessionManager`, act on the table like requests on a map from session
ids to dictionaries whose entries expire.  `ExpiringMap.Step` says what the map
does; `requests_refine_expiringMap` is the simulation over whole runs.
-/

namespace Wsrv

namespace SQLite3

open SessionData Refinement

/-! ## Constructor and destructor over the table -/

variable {host : Endian} {settings : SessionSettings}

/-- What the constructor makes of a cookie over the table of `w`. -/
inductive Opened (host : Endian) (w : World) (keyName cookie : Str) : Session → Prop
  | resumed (row : Row) : cookie ≠ [] → w.live cookie = some row →
      Opened host w keyName cookie
        { id := cookie, data := deserializeData host w.junk row.data ∅, sessionStarted := true,
          keyName := keyName }
  | started (sid : Str) : cookie = [] ∨ w.live cookie = none → sid ≠ [] → w.live sid = none →
      Opened host w keyName cookie
        { id := sid, sessionStarted := true, setCookie := true, keyName := keyName }
  | noId : cookie = [] ∨ w.live cookie = none →
      Opened host w keyName cookie { keyName := keyName }

theorem Opened.of_keeps {w w' : World} {keyName cookie : Str} {s : Session} (hk : Keeps w w')
    (h : Opened host w' keyName cookie s) : Opened host w keyName cookie s := by
  cases h with
  | resumed row hne hrow =>
    rw [hk.junk]
    exact .resumed row hne (hk.live cookie ▸ hrow)
  | started sid hcookie hne hfree =>
    exact .started sid (hk.live cookie ▸ hcookie) hne (hk.live sid ▸ hfree)
  | noId hcookie => exact .noId (hk.live cookie ▸ hcookie)

theorem start_spec (host : Endian) (settings : SessionSettings) {w : World} (h : NoFaults w) {keyName cookie : Str}
    (hcookie : cookie = [] ∨ w.live cookie = none) :
    ∃ s w', Session.start (manager host settings) keyName w = (.ok s, w') ∧ Keeps w w' ∧
      Opened host w keyName cookie s := by
  obtain ⟨sid, w', hsid, hk, hfree⟩ := uniqueSID_spec h
  refine ⟨_, w', Action.bind_ok hsid, hk, ?_⟩
  split
  · exact .noId hcookie
  · rename_i hne
    exact .started sid hcookie hne (hfree hne)

theorem resume_spec (host : Endian) (settings : SessionSettings) {w : World} (h : NoFaults w) {keyName cookie : Str} {row : Row}
    (hne : cookie ≠ []) (hrow : w.live cookie = some row) :
    ∃ s w', Session.resume (manager host settings) keyName cookie w = (.ok s, w') ∧ Keeps w w' ∧
      Opened host w keyName cookie s := by
  obtain ⟨w', hread, hk⟩ := read_spec host h (World.live_eq_some.mp hrow).1
  exact ⟨_, w', Action.bind_ok hread, hk, .resumed row hne hrow⟩

/-- **The constructor** resumes the session of a cookie that names a live row, and otherwise
starts a new one under a free id, if it finds one. -/
theorem new_spec (host : Endian) (settings : SessionSettings) {w : World} (h : NoFaults w)
    (req : HTTPServerRequest) (suffix : Str) :
    ∃ s w', Session.new (manager host settings) req suffix w = (.ok s, w') ∧ Keeps w w' ∧
      Opened host w (Session.cookieName suffix) (req.getCookie (Session.cookieName suffix)) s := by
  obtain ⟨w₁, hgc, hk₁⟩ := gc_spec h
  have hopen : (manager host settings).openStore w = (.ok true, w₁) := by
    simp only [manager, Action.bind_ok hgc, Action.pure_run]
  unfold Session.new
  rw [Action.bind_ok hopen]
  simp only [↓reduceIte]
  generalize req.getCookie (Session.cookieName suffix) = cookie
  generalize Session.cookieName suffix = keyName
  by_cases hempty : cookie = []
  · obtain ⟨s, w', hs, hk, ho⟩ := start_spec host settings hk₁.faults (Or.inl hempty)
    refine ⟨s, w', ?_, hk₁.trans hk, ho.of_keeps hk₁⟩
    simpa [hempty] using hs
  · obtain ⟨w₂, hcont, hk₂⟩ := contains_spec hk₁.faults cookie
    have hvalid : (manager host settings).isValidId cookie w₁ =
        (.ok (w₁.live cookie).isSome, w₂) := hcont
    rw [if_neg hempty, Action.bind_ok hvalid]
    cases hlive : w₁.live cookie with
    | none =>
      obtain ⟨s, w', hs, hk, ho⟩ := start_spec host settings hk₂.faults
        (Or.inr ((hk₂.live cookie).trans hlive))
      exact ⟨s, w', by simpa using hs, (hk₁.trans hk₂).trans hk, ho.of_keeps (hk₁.trans hk₂)⟩
    | some row =>
      obtain ⟨s, w', hs, hk, ho⟩ := resume_spec host settings hk₂.faults hempty
        ((hk₂.live cookie).trans hlive)
      exact ⟨s, w', by simpa using hs, (hk₁.trans hk₂).trans hk, ho.of_keeps (hk₁.trans hk₂)⟩

/-- The table after a started session has been closed. -/
def closed (host : Endian) (lifetime : Int) (s : Session) (w : World) : Std.ExtTreeMap Str Row :=
  if s.data = ∅ then if s.setCookie then w.sessions else w.sessions.erase s.id
  else if s.modified then
    w.sessions.insert s.id ⟨serializeData host s.data, w.clock + lifetime⟩
  else w.sessions

/-- The response after a started session has been closed. -/
def replied (settings : SessionSettings) (now : Int) (s : Session) (resp : HTTPServerResponse) :
    HTTPServerResponse :=
  if s.data = ∅ then
    if s.setCookie then resp
    else resp.deleteCookie now s.keyName settings.cookiePath settings.cookieDomain
      settings.cookieSecure settings.cookieHttpOnly
  else if s.setCookie then
    resp.setCookie s.keyName s.id (now + settings.cookieExpiration) settings.cookiePath
      settings.cookieDomain settings.cookieSecure settings.cookieHttpOnly
  else resp

/-- **The destructor** of a started session. -/
theorem destroy_spec (host : Endian) (settings : SessionSettings) {w : World} (h : NoFaults w)
    {s : Session} (hs : s.sessionStarted = true) (resp : HTTPServerResponse) :
    ∃ w', s.destroy (manager host settings) resp w = (replied settings w.clock s resp, w') ∧
      w'.clock = w.clock ∧ w'.junk = w.junk ∧ NoFaults w' ∧
      w'.sessions = closed host settings.sessionIdLifetime s w := by
  unfold Session.destroy Session.store replied closed
  rw [if_pos hs]
  simp only [manager]
  by_cases hdata : s.data = ∅
  · simp only [if_pos hdata]
    split
    · exact ⟨w, rfl, rfl, rfl, h, rfl⟩
    · obtain ⟨w', heq, hclock, hjunk, hf, hsess⟩ := remove_spec h s.id
      exact ⟨w', by rw [heq], hclock, hjunk, hf, hsess⟩
  · simp only [if_neg hdata]
    by_cases hmod : s.modified = true
    · obtain ⟨w', heq, hclock, hjunk, hf, hsess⟩ :=
        write_spec host settings.sessionIdLifetime h s.id s.data
      simp only [if_pos hmod]
      exact ⟨w', by rw [heq], hclock, hjunk, hf, hsess⟩
    · simp only [if_neg hmod]
      exact ⟨w, rfl, rfl, rfl, h, rfl⟩

theorem closed_other (lifetime : Int) (s : Session) (w : World) {id : Str} (h : id ≠ s.id) :
    (closed host lifetime s w)[id]? = w.sessions[id]? := by
  have hcmp : compare s.id id ≠ .eq := fun he => h (Std.compare_eq_iff_eq.mp he).symm
  unfold closed
  split
  · split
    · rfl
    · simp [Std.ExtTreeMap.getElem?_erase, hcmp]
  · split
    · simp [Std.ExtTreeMap.getElem?_insert, hcmp]
    · rfl

/-! ## Requests -/

/-- A request as far as its session goes.  `ops` are the calls that change the data, and `resp` is
the response that is there when the session is closed. -/
structure SessionRequest where
  req : HTTPServerRequest
  suffix : Str
  now : Int
  ops : List Session.Op
  resp : HTTPServerResponse

def SessionRequest.keyName (r : SessionRequest) : Str := Session.cookieName r.suffix

def SessionRequest.cookie (r : SessionRequest) : Str := r.req.getCookie r.keyName

/-- What a request shows: the id of its session, the data it opens and closes with, the response,
and the row of the id afterwards. -/
structure Served where
  id : Str
  seen : Dictionary
  closed : Dictionary
  resp : HTTPServerResponse
  row : Option (Dictionary × Int)

/-- The row of an id, with its blob read. -/
def World.stored (host : Endian) (w : World) (id : Str) : Option (Dictionary × Int) :=
  (w.sessions[id]?).map fun row => (deserializeData host w.junk row.data ∅, row.ts)

/-- Open the session, change its data and close it.  There is no result when the constructor
throws or finds no id. -/
def serve (host : Endian) (settings : SessionSettings) (r : SessionRequest) (w : World) :
    Option (Served × World) :=
  let sm := manager host settings
  match Session.new sm r.req r.suffix { w with clock := r.now } with
  | (.error _, _) => none
  | (.ok s, w) =>
    if s.sessionStarted then
      let s' := s.applyOps r.ops
      let (resp, w) := s'.destroy sm r.resp w
      some (⟨s.id, s.data, s'.data, resp, w.stored host s.id⟩, w)
    else none

/-- A step of the store: a request that is not before the last one and finds an id. -/
def Serves (host : Endian) (settings : SessionSettings) (w : World) (x : SessionRequest × Served)
    (w' : World) : Prop :=
  w.clock ≤ x.1.now ∧ serve host settings x.1 w = some (x.2, w')

/-! ## The expiring map -/

/-- Dictionaries under session ids, each with the second it expires. -/
abbrev ExpiringMap := Str → Option (Dictionary × Int)

def ExpiringMap.live (A : ExpiringMap) (now : Int) (id : Str) : Option (Dictionary × Int) :=
  (A id).filter fun e => decide (now < e.2)

/-- **What a request does to the map.** -/
structure ExpiringMap.Step (settings : SessionSettings) (A : ExpiringMap)
    (x : SessionRequest × Served) (A' : ExpiringMap) : Prop where
  /-- A cookie that names an unexpired session gives its dictionary as it was last closed. -/
  resumes : ∀ e, A.live x.1.now x.1.cookie = some e → x.2.id = x.1.cookie ∧ x.2.seen = e.1
  /-- Any other request starts empty, under an id that no live session has. -/
  starts : A.live x.1.now x.1.cookie = none →
    x.2.seen = ∅ ∧ x.2.id ≠ [] ∧ A.live x.1.now x.2.id = none
  changes : x.2.closed = Session.changed x.1.ops x.2.seen
  /-- Data that is not empty is stored under the id, with a new expiry if it was changed. -/
  stores : x.2.closed ≠ ∅ → ∃ ts, A' x.2.id = some (x.2.closed, ts) ∧
    x.2.row = some (x.2.closed, ts) ∧
    (x.1.ops ≠ [] → ts = x.1.now + settings.sessionIdLifetime) ∧
    (x.1.ops = [] → A x.2.id = some (x.2.closed, ts))
  /-- The client's cookie then names the id: it did before, or the response sets it. -/
  names : x.2.closed ≠ ∅ →
    (x.1.cookie = x.2.id ∧ x.2.resp = x.1.resp) ∨
      x.2.resp = x.1.resp.setCookie x.1.keyName x.2.id (x.1.now + settings.cookieExpiration)
        settings.cookiePath settings.cookieDomain settings.cookieSecure settings.cookieHttpOnly
  /-- Empty data leaves no live row. -/
  drops : x.2.closed = ∅ → A' x.2.id = none ∧ ∀ e, x.2.row = some e → e.2 ≤ x.1.now
  /-- The other sessions do not change. -/
  frame : ∀ id, id ≠ x.2.id → A' id = A id

/-- The map that the table stands for. -/
structure Represents (host : Endian) (w : World) (A : ExpiringMap) : Prop where
  faults : NoFaults w
  live : ∀ id, w.live id =
    (A.live w.clock id).map fun e => ⟨serializeData host e.1, e.2⟩
  fits : ∀ id e, A id = some e → Fits e.1
  noId : A [] = none

/-- An empty table stands for the empty map. -/
theorem represents_empty {w : World} (h : NoFaults w) (hs : w.sessions = ∅) :
    Represents host w fun _ => none where
  faults := h
  live id := by simp [World.live, hs, ExpiringMap.live]
  fits := by simp
  noId := rfl

theorem ExpiringMap.live_eq_some {A : ExpiringMap} {now : Int} {id : Str} {e : Dictionary × Int} :
    A.live now id = some e ↔ A id = some e ∧ now < e.2 := by
  simp [ExpiringMap.live, Option.filter_eq_some_iff]

theorem Represents.live_iff {w : World} {A : ExpiringMap} (h : Represents host w A) {id : Str}
    {row : Row} : w.live id = some row ↔
      ∃ d, A id = some (d, row.ts) ∧ w.clock < row.ts ∧ row.data = serializeData host d := by
  rw [h.live, Option.map_eq_some_iff]
  constructor
  · rintro ⟨⟨d, ts⟩, he, rfl⟩
    obtain ⟨he, hts⟩ := ExpiringMap.live_eq_some.mp he
    exact ⟨d, he, hts, rfl⟩
  · rintro ⟨d, he, hts, hdata⟩
    exact ⟨(d, row.ts), ExpiringMap.live_eq_some.mpr ⟨he, hts⟩, by rw [← hdata]⟩

/-- Time only makes entries expire. -/
theorem Represents.advance {w : World} {A : ExpiringMap} (h : Represents host w A) {now : Int}
    (hnow : w.clock ≤ now) : Represents host { w with clock := now } A where
  faults := h.faults
  live id := by
    refine Option.ext fun row => ?_
    rw [World.live_eq_some, Option.map_eq_some_iff]
    constructor
    · rintro ⟨hrow, hts⟩
      have hlive : w.live id = some row :=
        World.live_eq_some.mpr ⟨hrow, by simp only at hts; omega⟩
      obtain ⟨d, he, -, hdata⟩ := h.live_iff.mp hlive
      exact ⟨(d, row.ts), ExpiringMap.live_eq_some.mpr ⟨he, hts⟩, by rw [← hdata]⟩
    · rintro ⟨⟨d, ts⟩, he, rfl⟩
      obtain ⟨he, hts⟩ := ExpiringMap.live_eq_some.mp he
      have hrow : w.live id = some ⟨serializeData host d, ts⟩ :=
        h.live_iff.mpr ⟨d, he, by simp only at hts ⊢; omega, rfl⟩
      exact ⟨(World.live_eq_some.mp hrow).1, hts⟩
  fits := h.fits
  noId := h.noId

theorem Represents.live_none {w : World} {A : ExpiringMap} (h : Represents host w A) {id : Str} :
    w.live id = none ↔ A.live w.clock id = none := by
  rw [h.live, Option.map_eq_none_iff]

theorem Represents.keeps {w w' : World} {A : ExpiringMap} (h : Represents host w A)
    (hk : Keeps w w') : Represents host w' A where
  faults := hk.faults
  live id := by rw [hk.live, h.live, hk.clock]
  fits := h.fits
  noId := h.noId

/-- What a session of the constructor is to the map. -/
structure OpenedFrom (A : ExpiringMap) (now : Int) (keyName cookie : Str) (s : Session) : Prop where
  keyName : s.keyName = keyName
  unmodified : s.modified = false
  id : s.id ≠ []
  origin : (∃ ts, A.live now cookie = some (s.data, ts) ∧ s.id = cookie ∧ s.setCookie = false) ∨
    A.live now cookie = none ∧ s.data = ∅ ∧ A.live now s.id = none ∧ s.setCookie = true

theorem Represents.openedFrom {w : World} {A : ExpiringMap} (h : Represents host w A)
    {keyName cookie : Str} {s : Session} (ho : Opened host w keyName cookie s)
    (hs : s.sessionStarted = true) : OpenedFrom A w.clock keyName cookie s := by
  have fresh : cookie = [] ∨ w.live cookie = none → A.live w.clock cookie = none := by
    rintro (rfl | hnone)
    · simp [ExpiringMap.live, h.noId]
    · exact h.live_none.mp hnone
  cases ho with
  | resumed row hne hrow =>
    obtain ⟨d, he, hts, hdata⟩ := h.live_iff.mp hrow
    have hd : deserializeData host w.junk row.data ∅ = d := by
      rw [hdata]
      exact deserialize_serialize host host w.junk d (h.fits _ _ he)
    refine ⟨rfl, rfl, hne, Or.inl ⟨row.ts, ?_, rfl, rfl⟩⟩
    rw [hd]
    exact ExpiringMap.live_eq_some.mpr ⟨he, hts⟩
  | started sid hcookie hne hfree =>
    exact ⟨rfl, rfl, hne, Or.inr ⟨fresh hcookie, rfl, h.live_none.mp hfree, rfl⟩⟩
  | noId hcookie => simp at hs

/-- The map after a session has been closed. -/
def ExpiringMap.close (A : ExpiringMap) (expiry : Int) (s : Session) : ExpiringMap :=
  Function.update A s.id <|
    if s.data = ∅ then none else if s.modified then some (s.data, expiry) else A s.id

/-- **Closing** a session changes the map as it changes the table. -/
theorem Represents.close {w w' : World} {A : ExpiringMap} (h : Represents host w A) {s : Session}
    {lifetime : Int} (hfits : Fits s.data) (hid : s.id ≠ [])
    (hnew : s.setCookie = true → A.live w.clock s.id = none) (hclock : w'.clock = w.clock)
    (hf : NoFaults w') (hsess : w'.sessions = closed host lifetime s w) :
    Represents host w' (A.close (w.clock + lifetime) s) where
  faults := hf
  live id := by
    unfold World.live
    rw [hsess, hclock]
    by_cases hne : id = s.id
    · subst hne
      have hrow := h.live s.id
      unfold World.live at hrow
      unfold closed ExpiringMap.close ExpiringMap.live
      rw [Function.update_self]
      by_cases hdata : s.data = ∅
      · simp only [if_pos hdata, Option.filter_none, Option.map_none]
        by_cases hset : s.setCookie = true
        · rw [if_pos hset, hrow, hnew hset, Option.map_none]
        · simp [hset]
      · simp only [if_neg hdata]
        by_cases hmod : s.modified = true
        · simp only [if_pos hmod, Std.ExtTreeMap.getElem?_insert_self, Option.filter_some]
          split <;> rfl
        · simp only [if_neg hmod]
          exact hrow
    · rw [closed_other lifetime s w hne]
      unfold ExpiringMap.close ExpiringMap.live
      rw [Function.update_of_ne hne]
      exact h.live id
  fits id e he := by
    unfold ExpiringMap.close at he
    by_cases hne : id = s.id
    · subst hne
      rw [Function.update_self] at he
      split at he
      · cases he
      · split at he
        · cases he
          exact hfits
        · exact h.fits _ _ he
    · rw [Function.update_of_ne hne] at he
      exact h.fits _ _ he
  noId := by
    unfold ExpiringMap.close
    rw [Function.update_of_ne (Ne.symm hid)]
    exact h.noId

/-- A request over the table: the session it opens, and the table when it is closed. -/
theorem serve_spec {w w' : World} {A : ExpiringMap} (h : Represents host w A) {r : SessionRequest}
    {o : Served} (hclock : w.clock ≤ r.now) (hserve : serve host settings r w = some (o, w')) :
    ∃ s w₁, OpenedFrom A r.now r.keyName r.cookie s ∧ Represents host w₁ A ∧ w₁.clock = r.now ∧
      w'.clock = r.now ∧ NoFaults w' ∧
      w'.sessions = closed host settings.sessionIdLifetime (s.applyOps r.ops) w₁ ∧
      o = ⟨s.id, s.data, (s.applyOps r.ops).data,
        replied settings r.now (s.applyOps r.ops) r.resp, w'.stored host s.id⟩ := by
  have h := h.advance hclock
  obtain ⟨s, w₁, hnew, hk, ho⟩ := new_spec host settings h.faults r.req r.suffix
  have hc₁ : w₁.clock = r.now := hk.clock
  unfold serve at hserve
  simp only [hnew] at hserve
  by_cases hs : s.sessionStarted = true
  · have hs' : (s.applyOps r.ops).sessionStarted = true := by simpa using hs
    obtain ⟨w₂, hd, hc₂, hj₂, hf₂, hsess⟩ := destroy_spec host settings hk.faults hs' r.resp
    rw [if_pos hs] at hserve
    simp only [hd, Option.some.injEq, Prod.mk.injEq] at hserve
    obtain ⟨rfl, rfl⟩ := hserve
    refine ⟨s, w₁, h.openedFrom ho hs, h.keeps hk, hc₁, hc₂.trans hc₁, hf₂, hsess, ?_⟩
    rw [hc₁]
  · simp [hs] at hserve

/-- The row that a session with data leaves behind. -/
theorem stored_of_data {w w' : World} {A : ExpiringMap} (h : Represents host w A) {s : Session}
    {lifetime : Int} (hfits : Fits s.data) (hdata : s.data ≠ ∅)
    (hold : s.modified = false → ∃ ts, A.live w.clock s.id = some (s.data, ts))
    (hsess : w'.sessions = closed host lifetime s w) :
    ∃ ts, A.close (w.clock + lifetime) s s.id = some (s.data, ts) ∧
      w'.stored host s.id = some (s.data, ts) ∧
      (s.modified = true → ts = w.clock + lifetime) ∧
      (s.modified = false → A s.id = some (s.data, ts)) := by
  have hread := deserialize_serialize host host w'.junk s.data hfits
  unfold ExpiringMap.close World.stored
  rw [Function.update_self, hsess, if_neg hdata]
  unfold closed
  rw [if_neg hdata]
  by_cases hmod : s.modified = true
  · refine ⟨w.clock + lifetime, by rw [if_pos hmod], ?_, fun _ => rfl, fun hm => ?_⟩
    · rw [if_pos hmod, Std.ExtTreeMap.getElem?_insert_self, Option.map_some, hread]
    · rw [hmod] at hm
      cases hm
  · have hmod' : s.modified = false := by simpa using hmod
    obtain ⟨ts, hlive⟩ := hold hmod'
    obtain ⟨hA, hts⟩ := ExpiringMap.live_eq_some.mp hlive
    have hrow : w.live s.id = some ⟨serializeData host s.data, ts⟩ :=
      h.live_iff.mpr ⟨s.data, hA, hts, rfl⟩
    refine ⟨ts, by rw [if_neg hmod, hA], ?_, fun hm => absurd hm hmod, fun _ => hA⟩
    rw [if_neg hmod, (World.live_eq_some.mp hrow).1, Option.map_some, hread]

/-- No row that a session without data leaves behind is live. -/
theorem stored_of_empty {w w' : World} {A : ExpiringMap} (h : Represents host w A) {s : Session}
    {lifetime : Int} (hdata : s.data = ∅)
    (hnew : s.setCookie = true → A.live w.clock s.id = none)
    (hsess : w'.sessions = closed host lifetime s w) :
    A.close (w.clock + lifetime) s s.id = none ∧
      ∀ e, w'.stored host s.id = some e → e.2 ≤ w.clock := by
  unfold ExpiringMap.close World.stored
  rw [Function.update_self, if_pos hdata, hsess]
  refine ⟨rfl, fun e he => ?_⟩
  unfold closed at he
  rw [if_pos hdata] at he
  by_cases hset : s.setCookie = true
  · rw [if_pos hset, Option.map_eq_some_iff] at he
    obtain ⟨row, hrow, rfl⟩ := he
    have hnone := h.live_none.mpr (hnew hset)
    by_contra hts
    rw [World.live_eq_some.mpr ⟨hrow, by simpa using hts⟩] at hnone
    cases hnone
  · simp [hset] at he

/-- **One request** over the table is one step of the map. -/
theorem serves_simulates : Simulates (Serves host settings) (ExpiringMap.Step settings)
    (fun x => Fits x.2.closed) (Represents host) := by
  rintro w A ⟨r, o⟩ w' hrep hfits ⟨hclock, hserve⟩
  simp only at hfits hclock hserve
  obtain ⟨s, w₁, ho, hrep₁, hc₁, hc', hf', hsess, rfl⟩ := serve_spec hrep hclock hserve
  simp only at hfits
  have hmod : (s.applyOps r.ops).modified = !r.ops.isEmpty := by
    rw [Session.applyOps_modified, ho.unmodified, Bool.false_or]
  have hnew : (s.applyOps r.ops).setCookie = true → A.live w₁.clock (s.applyOps r.ops).id = none := by
    rw [Session.applyOps_setCookie, Session.applyOps_id, hc₁]
    intro hset
    rcases ho.origin with ⟨_, _, _, hno⟩ | ⟨_, _, hnone, _⟩
    · rw [hset] at hno
      cases hno
    · exact hnone
  refine ⟨A.close (w₁.clock + settings.sessionIdLifetime) (s.applyOps r.ops), ?_,
    hrep₁.close hfits (by simpa using ho.id) hnew (hc'.trans hc₁.symm) hf' hsess⟩
  constructor
  · intro e he
    rcases ho.origin with ⟨ts, hlive, hid, _⟩ | ⟨hnone, _⟩
    · rw [hlive] at he
      cases he
      exact ⟨hid, rfl⟩
    · rw [hnone] at he
      cases he
  · intro hnone
    rcases ho.origin with ⟨ts, hlive, _⟩ | ⟨_, hdata, hfree, _⟩
    · rw [hlive] at hnone
      cases hnone
    · exact ⟨hdata, ho.id, hfree⟩
  · exact s.applyOps_data r.ops
  · intro hdata
    simp only at hdata
    have hold : (s.applyOps r.ops).modified = false →
        ∃ ts, A.live w₁.clock (s.applyOps r.ops).id = some ((s.applyOps r.ops).data, ts) := by
      intro hm
      have hops : r.ops = [] := by simpa [hmod] using hm
      rw [hops] at hdata ⊢
      rcases ho.origin with ⟨ts, hlive, hid, _⟩ | ⟨_, hempty, _⟩
      · exact ⟨ts, by rw [hc₁]; exact hid ▸ hlive⟩
      · exact absurd hempty hdata
    obtain ⟨ts, hA', hrow, hmodified, hunmodified⟩ := stored_of_data hrep₁ hfits hdata hold hsess
    simp only [Session.applyOps_id] at hA' hrow hunmodified
    refine ⟨ts, hA', hrow, fun hops => ?_, fun hops => ?_⟩
    · rw [← hc₁]
      exact hmodified (by simpa [hmod] using hops)
    · exact hunmodified (by rw [hmod]; simpa using hops)
  · intro hdata
    simp only at hdata
    unfold replied
    rw [if_neg hdata, Session.applyOps_setCookie, Session.applyOps_keyName, Session.applyOps_id,
      ho.keyName]
    rcases ho.origin with ⟨_, _, hid, hset⟩ | ⟨_, _, _, hset⟩
    · exact Or.inl ⟨hid.symm, by simp [hset]⟩
    · exact Or.inr (by simp [hset])
  · intro hdata
    obtain ⟨hA', hrow⟩ := stored_of_empty hrep₁ hdata hnew hsess
    simp only [Session.applyOps_id] at hA' hrow
    exact ⟨hA', fun e he => hc₁ ▸ hrow e he⟩
  · intro id hne
    unfold ExpiringMap.close
    rw [Function.update_of_ne (by simpa using hne)]

/-- **The session store refines an expiring map**: every run of requests over a table that stands
for a map is a run of the map with the same sessions, data and responses, and the table stands for
the map that comes out. -/
theorem requests_refine_expiringMap (host : Endian) (settings : SessionSettings) {w w' : World}
    {A : ExpiringMap} {xs : List (SessionRequest × Served)} (hrep : Represents host w A)
    (hrun : Run (Serves host settings) w xs w') (hfits : ∀ x ∈ xs, Fits x.2.closed) :
    ∃ A', Run (ExpiringMap.Step settings) A xs A' ∧ Represents host w' A' :=
  serves_simulates.run hrun hrep hfits

/-- A table of sessions in an undisturbed world, where every new code is `k+9`. -/
def tableOf (sessions : Std.ExtTreeMap Str Row) (now : Int) : World :=
  { sessions := sessions, clock := now, gcDraws := fun _ => 500, codes := fun _ => str "k+9",
    faults := fun _ => none, junk := 0 }

/-- A table with one session. -/
def tableWith (id : Str) (data : Dictionary) (ts now : Int) : World :=
  tableOf ((∅ : Std.ExtTreeMap Str Row).insert id ⟨serializeData .little data, ts⟩) now

def visitData : Dictionary := (∅ : Dictionary).insert (str "lang") (str "el")

/-- A first visit that stores one value, and what it shows. -/
def firstVisit : SessionRequest × Served :=
  (⟨.init, [], 100, [.add (str "lang") (str "el")], .init⟩,
    { id := str "k-9", seen := ∅, closed := visitData,
      resp := HTTPServerResponse.init.setCookie (str "WSX_SESSION_ID") (str "k-9") 86500 (str "/")
        [] true true,
      row := some (visitData, 86500) })

/-- A second visit with the cookie, which finds the value and changes nothing. -/
def secondVisit : SessionRequest × Served :=
  (⟨{ HTTPServerRequest.init with
        COOKIE := (∅ : Dictionary).insert (str "WSX_SESSION_ID") (str "k-9") }, [], 200, [], .init⟩,
    { id := str "k-9", seen := visitData, closed := visitData, resp := .init,
      row := some (visitData, 86500) })

theorem two_visits_refine :
    ∃ A', Run (ExpiringMap.Step {}) (fun _ => none) [firstVisit, secondVisit] A' ∧
      Represents .little (tableWith (str "k-9") visitData 86500 200) A' := by
  have first : Serves .little {} (tableOf ∅ 100) firstVisit
      (tableWith (str "k-9") visitData 86500 100) := ⟨by decide, rfl⟩
  have second : Serves .little {} (tableWith (str "k-9") visitData 86500 100) secondVisit
      (tableWith (str "k-9") visitData 86500 200) := ⟨by decide, rfl⟩
  have hfits : Fits visitData := ⟨by decide, by decide, by decide⟩
  refine requests_refine_expiringMap .little {} (represents_empty (fun _ => rfl) rfl)
    (.cons first (.cons second (.nil _))) ?_
  intro x hx
  simp only [List.mem_cons, List.not_mem_nil, or_false] at hx
  rcases hx with rfl | rfl
  · exact hfits
  · exact hfits

end SQLite3

end Wsrv
