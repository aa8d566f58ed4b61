import Wsrv.HeaderRecasing

/-!
# The spelling of header names

The parser takes header names in any case, but the decoder looks its headers up
by one spelling of each name: a header in another is not there for it.
`recasing_iff` says which requests come to the same whatever the case of their
headers: those that have none of these headers, or none that says anything.
-/

namespace Wsrv

open Http

namespace RequestParser

/-! ## Looking a header up -/

/-- The headers of a message are looked up among those that came in. -/
theorem fields_getElem? (m : MessageLog) (key : Str) :
    m.fields.headers[key]? = none ∧ (∀ hdr ∈ m.headers, hdr.1 ≠ key) ∨
      ∃ v, m.fields.headers[key]? = some v ∧ (key, v) ∈ m.headers := by
  rcases foldl_insert_getElem? m.headers ∅ key with ⟨h, hne⟩ | h
  · exact .inl ⟨h.trans (by simp), hne⟩
  · exact .inr h

/-- The attributes of a request are its headers, and the method. -/
theorem attributes_getElem? (rp : RequestParser) {key : Str} (hkey : str "REQUEST_METHOD" ≠ key) :
    (attributes rp)[key]? = rp.fields.headers[key]? := by
  have hne : ¬compare (str "REQUEST_METHOD") key = .eq :=
    fun h => hkey (Std.LawfulEqCmp.eq_of_compare h)
  have hempty : HTTPServerRequest.init.SERVER[key]? = none := by simp [HTTPServerRequest.init]
  rw [attributes, startRequest]
  simp only
  rw [Std.ExtTreeMap.getElem?_insert, if_neg hne, emplaceHeaders, foldl_insertIfNew_getElem?,
    hempty, Option.none_or]
  cases hf : rp.fields.headers.toList.find? fun hdr => hdr.1 == key with
  | none =>
    symm
    cases hv : rp.fields.headers[key]? with
    | none => rfl
    | some v =>
      have hmem := Std.ExtTreeMap.mem_toList_iff_getElem?_eq_some.mpr hv
      have := List.find?_eq_none.mp hf _ hmem
      simp at this
  | some hdr =>
    have hkey' : hdr.1 = key := by simpa using List.find?_some hf
    have hmem := List.mem_of_find?_eq_some hf
    rw [← hkey']
    exact (Std.ExtTreeMap.mem_toList_iff_getElem?_eq_some.mp hmem).symm

/-! ## What a request shows of its headers -/

/-- The result of the decoder and what it takes from the headers and from the body. -/
structure Seen where
  result : Except Fault Bool
  COOKIE : Dictionary
  POST : Dictionary
  FILE : List UploadedFile
  content : Str
  contentType : Str
  gzip : Bool

def seen (r : Decoded) : Seen :=
  ⟨r.1, r.2.COOKIE, r.2.POST, r.2.FILE, r.2.content, r.2.contentType, r.2.supportsGzip⟩

/-- What a request without any of the headers shows. -/
def plain (rp : RequestParser) : Seen where
  result := (urlParts rp.fields.url).map Option.isSome
  COOKIE := ∅
  POST := ∅
  FILE := []
  content := rp.fields.body
  contentType := []
  gzip := false

/-- A request whose body has not been looked at. -/
structure Bare (body : Str) (req : HTTPServerRequest) : Prop where
  POST : req.POST = ∅
  FILE : req.FILE = []
  content : req.content = body
  contentType : req.contentType = []

/-- The multipart form that the type of the content announces has no part. -/
def NoPart (contentType body : Str) : Prop :=
  ∀ bnd, startsWith contentType (str "application/x-www-form-urlencoded") = false →
    boundary contentType = some bnd → parseMultipartData .init ⟨body, false⟩ bnd = .ok .init

theorem getNextLine_zero (strm : IStream) : (getNextLine strm 0).1 = [] := rfl

/-- Form data of no length is looked at only in a multipart form. -/
theorem readForm_zero {req : HTTPServerRequest} {body : Str} (h : Bare body req)
    (contentType : Str) :
    let r := readForm req ⟨body, false⟩ 0 contentType
    r.1 = .ok true ∧ Bare body r.2 ↔ NoPart contentType body := by
  unfold readForm NoPart
  have hzero : ((0 : Int) % 2 ^ 64).toNat = 0 := rfl
  simp only [hzero, lt_irrefl, and_false, if_false]
  cases hform : startsWith contentType (str "application/x-www-form-urlencoded") with
  | true =>
    have hfields : formFields (pieces '&'.toUInt8 [] []) req.POST = .ok req.POST := rfl
    simp only [if_true, Int.toNat_zero, getNextLine_zero, hfields]
    simp [h]
  | false =>
    simp only [Bool.false_eq_true, if_false]
    cases hb : boundary contentType with
    | none => simp [h]
    | some bnd =>
      have hreq : req = { req with
          POST := HTTPServerRequest.init.POST, FILE := HTTPServerRequest.init.FILE } := by
        rw [show HTTPServerRequest.init.POST = req.POST from h.POST.symm,
          show HTTPServerRequest.init.FILE = req.FILE from h.FILE.symm]
      have hframe := parseMultipartData_frame .init req ⟨body, false⟩ bnd
      rw [← hreq] at hframe
      have hinit := parseMultipartData_frame .init .init ⟨body, false⟩ bnd
      simp only [hframe, Option.some.injEq, forall_eq', true_imp_iff]
      cases hp : parseMultipartData .init ⟨body, false⟩ bnd with
      | error e => simp [Except.map]
      | ok r =>
        rw [show ({ HTTPServerRequest.init with
          POST := HTTPServerRequest.init.POST, FILE := HTTPServerRequest.init.FILE } :
            HTTPServerRequest) = .init from rfl, hp] at hinit
        have hr : r = { HTTPServerRequest.init with POST := r.POST, FILE := r.FILE } :=
          Except.ok.inj hinit
        simp only [Except.map, Except.ok.injEq, true_and]
        constructor
        · intro hbare
          rw [hr, show r.POST = ∅ from hbare.POST, show r.FILE = [] from hbare.FILE]
          rfl
        · rintro rfl
          exact ⟨rfl, rfl, h.content, h.contentType⟩

/-- Form data of no type is refused, if it has a length. -/
theorem readForm_untyped {req : HTTPServerRequest} {body : Str} (h : Bare body req) {n : Int}
    (hn : -2 ^ 31 ≤ n ∧ n < 2 ^ 31) :
    let r := readForm req ⟨body, false⟩ n []
    r.1 = .ok true ∧ Bare body r.2 ↔ n = 0 := by
  constructor
  · intro hr
    by_contra hne
    have hlen : 0 < (n % 2 ^ 64).toNat := by omega
    rw [readForm, if_pos ⟨rfl, hlen⟩] at hr
    cases hr.1
  · rintro rfl
    exact (readForm_zero h []).mpr fun bnd _ hb => by
      rw [boundary_nil] at hb
      cases hb

/-! ## Cookies -/

theorem parseCookie_ne {req req' : HTTPServerRequest} {data : Str}
    (h : parseCookie req data = (.ok true, req')) : req'.COOKIE ≠ ∅ := by
  unfold parseCookie at h
  split at h
  · cases h
  · simp only at h
    split at h <;> cases h
    rename_i name value _ _
    intro hempty
    have hself : (req.COOKIE.insert name value)[name]? = some value :=
      Std.ExtTreeMap.getElem?_insert_self
    rw [show req.COOKIE.insert name value = ∅ from hempty] at hself
    simp at hself

/-- A `Cookie` header that is accepted leaves a cookie. -/
theorem cookieLoop_ne {data : Str} {oldPos : Nat} {req req' : HTTPServerRequest}
    (h : cookieLoop data oldPos req = (.ok true, req')) : req'.COOKIE ≠ ∅ := by
  induction hn : data.length - oldPos using Nat.strong_induction_on generalizing oldPos req with
  | _ n ih =>
    subst hn
    rw [cookieLoop] at h
    split at h
    · split at h
      · exact parseCookie_ne h
      · cases h
    · rename_i pos hpos
      have hb := findFrom_bounds hpos
      split at h
      · rename_i cookie _
        rcases hc : parseCookie req cookie with ⟨f | _ | _, req₁⟩
        · rw [hc] at h
          cases h
        · rw [hc] at h
          cases h
        · rw [hc] at h
          exact ih _ (by omega) h rfl
      · cases h

theorem parseCookies_ne {req req' : HTTPServerRequest} {data : Str}
    (hdata : req.SERVER[str "Cookie"]? = some data)
    (h : parseCookies req = (.ok true, req')) : req'.COOKIE ≠ ∅ := by
  rw [parseCookies, hdata] at h
  simp only at h
  split_ifs at h
  · cases h
  · exact cookieLoop_ne h

/-! ## Requests that show nothing of their headers -/

theorem supportsGzip_iff (req : HTTPServerRequest) : req.supportsGzip = true ↔
    ∃ enc, req.SERVER[str "Accept-Encoding"]? = some enc ∧ str "gzip" <:+: enc := by
  unfold HTTPServerRequest.supportsGzip HTTPServerRequest.getServerAttribute
  rw [Std.ExtTreeMap.getD_eq_getD_getElem?]
  cases req.SERVER[str "Accept-Encoding"]? with
  | none => simp
  | some enc =>
    simp only [Option.getD_some, decide_eq_true_eq, Option.some.injEq, exists_eq_left',
      and_iff_right_iff_imp]
    rintro h rfl
    exact absurd (List.eq_nil_of_infix_nil h) (by decide)

/-- A header of the request, as the decoder sees it. -/
def header (rp : RequestParser) (key : Str) (dflt : Str := []) : Str :=
  (rp.fields.headers[key]?).getD dflt

theorem getServerAttribute_eq (rp : RequestParser) {req : HTTPServerRequest}
    (h : req.SERVER = attributes rp) {key : Str} (hkey : str "REQUEST_METHOD" ≠ key) (dflt : Str) :
    req.getServerAttribute key dflt = header rp key dflt := by
  rw [HTTPServerRequest.getServerAttribute, Std.ExtTreeMap.getD_eq_getD_getElem?, h,
    attributes_getElem? rp hkey, header]

theorem seen_gzip (rp : RequestParser) {r : Decoded} (h : r.2.SERVER = attributes rp) :
    (seen r).gzip = false ↔
      ∀ enc, rp.fields.headers[str "Accept-Encoding"]? = some enc → ¬str "gzip" <:+: enc := by
  rw [← attributes_getElem? rp (by decide), ← h, ← Bool.not_eq_true, seen, supportsGzip_iff]
  simp

theorem parseFormData_header {rp : RequestParser} {req : HTTPServerRequest}
    (h : req.SERVER = attributes rp) (strm : IStream) :
    parseFormData req strm =
      match stoi (header rp (str "Content-Length") (str "0")) with
      | .error e => (.error (.raised e), req)
      | .ok n => readForm req strm n (header rp (str "Content-Type")) := by
  rewrite [parseFormData, getServerAttribute_eq rp h (by decide),
    getServerAttribute_eq rp h (by decide)]
  rfl

theorem parseFormData_plain {rp : RequestParser} {req : HTTPServerRequest}
    (h : req.SERVER = attributes rp) (hb : Bare rp.fields.body req)
    (hlength : stoi (header rp (str "Content-Length") (str "0")) = .ok 0)
    (htype : NoPart (header rp (str "Content-Type")) rp.fields.body) :
    let r := parseFormData req ⟨rp.fields.body, false⟩
    r.1 = .ok true ∧ Bare rp.fields.body r.2 := by
  rw [parseFormData_header h, hlength]
  exact (readForm_zero hb _).mpr htype

/-- **A request whose headers say nothing** is seen as one that has none. -/
theorem seen_plain {rp : RequestParser}
    (hgzip : ∀ enc, rp.fields.headers[str "Accept-Encoding"]? = some enc → ¬str "gzip" <:+: enc)
    (hcookie : (∃ parts, urlParts rp.fields.url = .ok (some parts)) →
      rp.fields.headers[str "Cookie"]? = none)
    (hform : (∃ parts, urlParts rp.fields.url = .ok (some parts)) → rp.parser.method = .POST →
      stoi (header rp (str "Content-Length") (str "0")) = .ok 0 ∧
        NoPart (header rp (str "Content-Type")) rp.fields.body) :
    seen (rp.decodeMessage .init) = plain rp := by
  have hbare : Bare rp.fields.body (startRequest rp .init) := ⟨rfl, rfl, rfl, rfl⟩
  have hshow : ∀ r : Decoded, r.1 = (urlParts rp.fields.url).map Option.isSome → r.2.COOKIE = ∅ →
      Bare rp.fields.body r.2 → r.2.SERVER = attributes rp → seen r = plain rp := by
    intro r h1 h2 h3 h4
    have hg := (seen_gzip rp h4).mpr hgzip
    rw [seen, plain, h1, h2, h3.POST, h3.FILE, h3.content, h3.contentType]
    exact congrArg _ hg
  unfold decodeMessage
  rcases parseUrl_cases (startRequest rp .init) rp.fields.url with
    ⟨f, hu, hp⟩ | ⟨hu, hp⟩ | ⟨path, query, GET, hu, hp⟩
  · rw [hp]
    exact hshow _ (by rw [hu]; rfl) rfl hbare rfl
  · rw [hp]
    exact hshow _ (by rw [hu]; rfl) rfl hbare rfl
  · rw [hp, Decoded.andThen]
    have hnone : (startRequest rp .init).SERVER[str "Cookie"]? = none :=
      (attributes_getElem? rp (by decide)).trans (hcookie ⟨_, hu⟩)
    simp only [parseCookies, hnone, Decoded.andThen]
    split
    · rename_i hpost
      obtain ⟨hlength, htype⟩ := hform ⟨_, hu⟩ ((methodString_post _).mp hpost)
      set req : HTTPServerRequest :=
        { startRequest rp .init with path := path, query := query, GET := GET } with hreq
      obtain ⟨hok, hb⟩ := @parseFormData_plain rp req rfl
        ⟨rfl, rfl, rfl, rfl⟩ hlength htype
      obtain ⟨-, POST, FILE, content, contentType, hframe⟩ :=
        parseFormData_frame req ⟨rp.fields.body, false⟩
      exact hshow _ (by rw [hu]; exact hok) (by rw [hframe]; rfl) hb (by rw [hframe]; rfl)
    · exact hshow _ (by rw [hu]; rfl) rfl ⟨rfl, rfl, rfl, rfl⟩ rfl

theorem decodeMessage_server (rp : RequestParser) :
    (rp.decodeMessage .init).2.SERVER = attributes rp := by
  unfold decodeMessage
  rcases parseUrl_cases (startRequest rp .init) rp.fields.url with
    ⟨f, hu, hp⟩ | ⟨hu, hp⟩ | ⟨path, query, GET, hu, hp⟩
  · rw [hp]
    rfl
  · rw [hp]
    rfl
  · obtain ⟨b, COOKIE, hc, -⟩ := parseCookies_ok
      { startRequest rp .init with path := path, query := query, GET := GET }
    simp only [hp, Decoded.andThen, hc]
    cases b with
    | false => rfl
    | true =>
      simp only
      split
      · obtain ⟨-, POST, FILE, content, contentType, hframe⟩ := parseFormData_frame
          { startRequest rp .init with path := path, query := query, GET := GET, COOKIE := COOKIE }
          ⟨rp.fields.body, false⟩
        rw [hframe]
        rfl
      · rfl

/-- What holds of a request that is seen so. -/
theorem plain_seen {rp : RequestParser} (h : seen (rp.decodeMessage .init) = plain rp) :
    (∀ enc, rp.fields.headers[str "Accept-Encoding"]? = some enc → ¬str "gzip" <:+: enc) ∧
      ((∃ parts, urlParts rp.fields.url = .ok (some parts)) →
        rp.fields.headers[str "Cookie"]? = none ∧
          (rp.parser.method = .POST →
            ∃ n, stoi (header rp (str "Content-Length") (str "0")) = .ok n ∧
              ∃ req, Bare rp.fields.body req ∧
                let r := readForm req ⟨rp.fields.body, false⟩ n (header rp (str "Content-Type"))
                r.1 = .ok true ∧ Bare rp.fields.body r.2)) := by
  refine ⟨(seen_gzip rp (decodeMessage_server rp)).mp (congrArg Seen.gzip h), ?_⟩
  rintro ⟨parts, hparts⟩
  have hresult : (rp.decodeMessage .init).1 = .ok true := by
    have := congrArg Seen.result h
    rwa [plain, hparts] at this
  have hCOOKIE : (rp.decodeMessage .init).2.COOKIE = ∅ := congrArg Seen.COOKIE h
  have hbare : Bare rp.fields.body (rp.decodeMessage .init).2 :=
    ⟨congrArg Seen.POST h, congrArg Seen.FILE h, congrArg Seen.content h,
      congrArg Seen.contentType h⟩
  unfold decodeMessage at hresult hCOOKIE hbare
  rcases parseUrl_cases (startRequest rp .init) rp.fields.url with
    ⟨f, hu, hp⟩ | ⟨hu, hp⟩ | ⟨path, query, GET, hu, hp⟩
  · rw [hu] at hparts
    cases hparts
  · rw [hu] at hparts
    cases hparts
  rw [hp, Decoded.andThen] at hresult hCOOKIE hbare
  set req : HTTPServerRequest :=
    { startRequest rp .init with path := path, query := query, GET := GET } with hreq
  obtain ⟨b, COOKIE, hc, -⟩ := parseCookies_ok req
  simp only [hc, Decoded.andThen] at hresult hCOOKIE hbare
  cases b with
  | false => cases hresult
  | true =>
    simp only at hresult hCOOKIE hbare
    obtain ⟨-, POST, FILE, content, contentType, hframe⟩ :=
      parseFormData_frame { req with COOKIE := COOKIE } ⟨rp.fields.body, false⟩
    have hempty : COOKIE = ∅ := by
      split at hCOOKIE
      · rw [hframe] at hCOOKIE
        exact hCOOKIE
      · exact hCOOKIE
    refine ⟨?_, fun hpost => ?_⟩
    · cases hdata : rp.fields.headers[str "Cookie"]? with
      | none => rfl
      | some data =>
        have hserver : req.SERVER[str "Cookie"]? = some data :=
          (attributes_getElem? rp (by decide)).trans hdata
        exact absurd hempty (parseCookies_ne hserver hc)
    · have hmethod : req.method = str "POST" := (methodString_post _).mpr hpost
      rw [if_pos hmethod] at hresult hbare
      have hserver : ({ req with COOKIE := COOKIE } : HTTPServerRequest).SERVER = attributes rp := rfl
      rw [parseFormData_header hserver] at hresult hbare
      cases hn : stoi (header rp (str "Content-Length") (str "0")) with
      | error e =>
        rw [hn] at hresult
        cases hresult
      | ok n =>
        rw [hn] at hresult hbare
        exact ⟨n, rfl, { req with COOKIE := COOKIE }, ⟨rfl, rfl, rfl, rfl⟩, hresult, hbare⟩

/-! ## The headers of a request -/

/-- The headers as they came in. -/
def Reading.headers : Reading → List (Str × Str)
  | .going _ _ m | .complete _ m => m.headers
  | .failed => []

/-- The headers of a request, in their order. -/
def headersIn (junk : Bool) (s : Str) : List (Str × Str) := ((startReading junk).text s).headers

theorem at_headers {rp : RequestParser} {r : Reading} (h : Reading.At rp r) (key : Str) :
    rp.fields.headers[key]? = none ∧ (∀ hdr ∈ r.headers, hdr.1 ≠ key) ∨
      ∃ v, rp.fields.headers[key]? = some v ∧ (key, v) ∈ r.headers := by
  have hof : ∀ m : MessageLog, rp.fields.eraseUrl = m.fields →
      (rp.fields.headers[key]? = none ∧ (∀ hdr ∈ m.headers, hdr.1 ≠ key) ∨
        ∃ v, rp.fields.headers[key]? = some v ∧ (key, v) ∈ m.headers) := by
    intro m hm
    have hheaders : rp.fields.headers = m.fields.headers := (congrArg RequestFields.headers hm :)
    rw [hheaders]
    exact fields_getElem? m key
  cases r with
  | going seen p m => exact hof m h.2.1
  | complete p m => exact hof m h.2
  | failed => exact absurd h id

/-- What two readers side by side have in common, and their headers. -/
theorem sim_at {Rel : Nat → Str → Str → Prop} {rp rp' : RequestParser} {r r' : Reading}
    (h : Sim Rel r r') (hat : Reading.At rp r) (hat' : Reading.At rp' r') :
    rp'.parser.method = rp.parser.method ∧ rp'.fields.body = rp.fields.body ∧
      r'.headers.length = r.headers.length ∧
      ∀ i hdr, r.headers[i]? = some hdr →
        ∃ name, r'.headers[i]? = some (name, hdr.2) ∧ Rel i hdr.1 name := by
  have hbody : ∀ m m' : MessageLog, rp.fields.eraseUrl = m.fields → rp'.fields.eraseUrl = m'.fields →
      m'.body = m.body → rp'.fields.body = rp.fields.body := by
    intro m m' h1 h2 h3
    have hb : rp.fields.body = m.body := (congrArg RequestFields.body h1 :)
    have hb' : rp'.fields.body = m'.body := (congrArg RequestFields.body h2 :)
    rw [hb, hb', h3]
  cases r with
  | failed => exact absurd hat id
  | complete p m =>
    cases r' with
    | complete p' m' =>
      obtain ⟨rfl, hlog⟩ := h
      exact ⟨hat'.1.trans hat.1.symm, hbody m m' hat.2 hat'.2 hlog.body, hlog.length, hlog.headers⟩
    | going | failed => cases h
  | going seen p m =>
    cases r' with
    | going seen' p' m' =>
      obtain ⟨-, rfl, -, -, hlog⟩ := h
      exact ⟨congrArg HttpParser.method (hat'.1.trans hat.1.symm),
        hbody m m' hat.2.1 hat'.2.1 hlog.body, hlog.length, hlog.headers⟩
    | complete | failed => cases h

/-! ## Requests for which the case does not matter -/

/-- No header whose name is one of four in some case says anything to the decoder: none of them
accepts `gzip`; and where the target is decoded there is no cookie, and the body of a `POST` has a
declared length of 0, if any, and no part, if its type is multipart. -/
structure CaseFree (headers : List (Str × Str)) (rp : RequestParser) : Prop where
  defined : urlParts rp.fields.url ≠ .error .undefined
  encoding : ∀ hdr ∈ headers, hdr.1.map tolower = str "accept-encoding" → ¬str "gzip" <:+: hdr.2
  cookie : (∃ parts, urlParts rp.fields.url = .ok (some parts)) →
    ∀ hdr ∈ headers, hdr.1.map tolower ≠ str "cookie"
  length : (∃ parts, urlParts rp.fields.url = .ok (some parts)) → rp.parser.method = .POST →
    ∀ hdr ∈ headers, hdr.1.map tolower = str "content-length" → stoi hdr.2 = .ok 0
  type : (∃ parts, urlParts rp.fields.url = .ok (some parts)) → rp.parser.method = .POST →
    ∀ hdr ∈ headers, hdr.1.map tolower = str "content-type" → NoPart hdr.2 rp.fields.body

theorem noPart_nil (body : Str) : NoPart [] body := by
  intro bnd _ hb
  rw [boundary_nil] at hb
  cases hb

/-- Such a request is seen as one without headers, and so is every other that has the same headers
in another case. -/
theorem CaseFree.seen {headers : List (Str × Str)} {rp rp' : RequestParser} (h : CaseFree headers rp)
    (hurl : rp'.fields.url = rp.fields.url) (hbody : rp'.fields.body = rp.fields.body)
    (hmethod : rp'.parser.method = rp.parser.method)
    (hlookup : ∀ (key v : Str), rp'.fields.headers[key]? = some v →
      ∃ hdr ∈ headers, hdr.1.map tolower = key.map tolower ∧ hdr.2 = v) :
    RequestParser.seen (rp'.decodeMessage .init) = plain rp := by
  have hplain : plain rp' = plain rp := by rw [plain, plain, hurl, hbody]
  rw [← hplain]
  refine seen_plain ?_ ?_ ?_
  · intro enc henc
    obtain ⟨hdr, hmem, hname, rfl⟩ := hlookup _ _ henc
    exact h.encoding hdr hmem hname
  · intro hparts
    rw [hurl] at hparts
    cases hc : rp'.fields.headers[str "Cookie"]? with
    | none => rfl
    | some v =>
      obtain ⟨hdr, hmem, hname, -⟩ := hlookup _ _ hc
      exact absurd hname (h.cookie hparts hdr hmem)
  · intro hparts hpost
    rw [hurl] at hparts
    rw [hmethod] at hpost
    constructor
    · rw [header]
      cases hc : rp'.fields.headers[str "Content-Length"]? with
      | none => decide
      | some v =>
        obtain ⟨hdr, hmem, hname, rfl⟩ := hlookup _ _ hc
        exact h.length hparts hpost hdr hmem hname
    · rw [header, hbody]
      cases hc : rp'.fields.headers[str "Content-Type"]? with
      | none => exact noPart_nil _
      | some v =>
        obtain ⟨hdr, hmem, hname, rfl⟩ := hlookup _ _ hc
        exact h.type hparts hpost hdr hmem hname

/-! ## Recased requests -/

/-- Two runs of a parser complete their messages, and the decoder makes the same of their headers
and bodies, which is not undefined behaviour. -/
structure SameDecoding (run run' : Result × RequestParser) : Prop where
  ok : run.1 = .ok
  ok' : run'.1 = .ok
  same : seen (run.2.decodeMessage .init) = seen (run'.2.decodeMessage .init)
  defined : (run.2.decodeMessage .init).1 ≠ .error .undefined

/-- The bytes of a request in reads of the same lengths as those of another. -/
theorem exists_cut {s s' : Str} {reads : List Str} (hc : Cut s reads)
    (hlen : s'.length = s.length) :
    ∃ reads', Cut s' reads' ∧ reads'.map List.length = reads.map List.length := by
  obtain ⟨rfl, hne⟩ := hc
  induction reads generalizing s' with
  | nil =>
    obtain rfl := List.length_eq_zero_iff.mp hlen
    exact ⟨[], ⟨rfl, by simp⟩, rfl⟩
  | cons data rest ih =>
    rw [List.flatten_cons, List.length_append] at hlen
    obtain ⟨rest', ⟨hflat, hne'⟩, hlens⟩ := @ih (s'.drop data.length)
      (fun d hd => hne d (List.mem_cons_of_mem _ hd)) (by simp [hlen])
    have htake : (s'.take data.length).length = data.length := by simp [hlen]
    refine ⟨s'.take data.length :: rest', ⟨?_, ?_⟩, by rw [List.map_cons, htake, hlens]; rfl⟩
    · rw [List.flatten_cons, hflat, List.take_append_drop]
    · intro d hd
      rcases List.mem_cons.mp hd with rfl | hd
      · intro hnil
        rw [hnil] at htake
        exact hne data List.mem_cons_self (List.length_eq_zero_iff.mp htake.symm)
      · exact hne' d hd

/-- The run on a recased request: the same target, method and body, and the same headers in
another case. -/
theorem recased_run {junk : Bool} {s s' : Str} (hs : Complete junk s) (h : Recasing junk s s')
    {reads reads' : List Str} (hc : Cut s reads) (hc' : Cut s' reads')
    (hlen : reads'.map List.length = reads.map List.length) :
    let rp := ((new junk).feed reads).2
    let rp' := ((new junk).feed reads').2
    ((new junk).feed reads').1 = .ok ∧ rp'.fields.url = rp.fields.url ∧
      rp'.fields.body = rp.fields.body ∧ rp'.parser.method = rp.parser.method ∧
      ∀ (key v : Str), rp'.fields.headers[key]? = some v →
        ∃ hdr ∈ headersIn junk s, hdr.1.map tolower = key.map tolower ∧ hdr.2 = v := by
  obtain ⟨hs', hsim⟩ := recasing_sim hs h
  obtain ⟨-, hat, hurl⟩ := feed_cut hs hc
  obtain ⟨hok', hat', hurl'⟩ := feed_cut hs' hc'
  obtain ⟨hmethod, hbody, hlength, hheaders⟩ := sim_at hsim hat hat'
  refine ⟨hok', ?_, hbody, hmethod, fun key v hv => ?_⟩
  · rw [hurl, hurl', recasing_target hs h hc hc' hlen]
  · rcases at_headers hat' key with ⟨hnone, -⟩ | ⟨v', hv', hmem⟩
    · rw [hnone] at hv
      cases hv
    · obtain rfl : v = v' := Option.some.inj (hv.symm.trans hv')
      obtain ⟨i, hi⟩ := List.getElem?_of_mem hmem
      have hlt : i < ((startReading junk).text s).headers.length := by
        rw [← hlength]
        exact (List.getElem?_eq_some_iff.mp hi).1
      obtain ⟨name, hname, hcase⟩ := hheaders i _ (List.getElem?_eq_getElem hlt)
      obtain ⟨rfl, hvalue⟩ := Prod.mk.inj (Option.some.inj (hname.symm.trans hi))
      exact ⟨_, List.getElem_mem hlt, hcase.symm, hvalue⟩

/-- Where the case does not matter, a recased request comes to the same. -/
theorem caseFree_same {junk : Bool} {s s' : Str} (hs : Complete junk s) (h : Recasing junk s s')
    {reads reads' : List Str} (hc : Cut s reads) (hc' : Cut s' reads')
    (hlen : reads'.map List.length = reads.map List.length)
    (hfree : CaseFree (headersIn junk s) ((new junk).feed reads).2) :
    SameDecoding ((new junk).feed reads) ((new junk).feed reads') := by
  obtain ⟨hok', hurl, hbody, hmethod, hlookup⟩ := recased_run hs h hc hc' hlen
  obtain ⟨hok, -, -, -, hown⟩ := recased_run hs ⟨rfl, fun i hi => absurd rfl hi⟩ hc hc rfl
  refine ⟨hok, hok', ?_, fun hd => hfree.defined ?_⟩
  · rw [hfree.seen rfl rfl rfl hown, hfree.seen hurl hbody hmethod hlookup]
  · exact (decodeMessage_shownParts _).2.mp hd

/-! ## Headers with a chosen spelling -/

/-- A name that has a capital. -/
abbrev Capital (key : Str) : Prop := key.map tolower ≠ key

/-- The run on the request with capitals in its `k`th header name only: of the names with a capital
it finds that one and no other. -/
theorem respelled_run {junk : Bool} {s : Str} (hs : Complete junk s) {reads : List Str}
    (hc : Cut s reads) (k : Nat) : ∃ reads', Cut (respell junk k s) reads' ∧
      reads'.map List.length = reads.map List.length ∧
      ∀ (key v : Str), Capital key →
        (((new junk).feed reads').2.fields.headers[key]? = some v ↔
          ∃ name, (headersIn junk s)[k]? = some (name, v) ∧ spell true name = key) := by
  have hrecasing := respell_recasing hs k
  obtain ⟨reads', hc', hlen⟩ := exists_cut hc hrecasing.length
  obtain ⟨hs', -⟩ := recasing_sim hs hrecasing
  obtain ⟨-, hat, -⟩ := feed_cut hs hc
  obtain ⟨-, hat', -⟩ := feed_cut hs' hc'
  obtain ⟨-, -, hlength, hheaders⟩ := sim_at (respell_sim hs k) hat hat'
  refine ⟨reads', hc', hlen, fun key v hkey => ?_⟩
  have hfound : ∀ v, (key, v) ∈ ((startReading junk).text (respell junk k s)).headers →
      ∃ name, (headersIn junk s)[k]? = some (name, v) ∧ spell true name = key := by
    intro v hmem
    obtain ⟨i, hi⟩ := List.getElem?_of_mem hmem
    have hlt : i < ((startReading junk).text s).headers.length := by
      rw [← hlength]
      exact (List.getElem?_eq_some_iff.mp hi).1
    obtain ⟨name, hname, hspell⟩ := hheaders i _ (List.getElem?_eq_getElem hlt)
    obtain ⟨rfl, hvalue⟩ := Prod.mk.inj (Option.some.inj (hname.symm.trans hi))
    by_cases hik : i = k
    · subst hik
      refine ⟨(((startReading junk).text s).headers[i]).1, ?_, ?_⟩
      · rw [headersIn, List.getElem?_eq_getElem hlt, ← hvalue]
      · rw [hspell, beq_self_eq_true]
    · rw [beq_false_of_ne hik, spell_lower] at hspell
      refine absurd ?_ hkey
      rw [hspell, ← spell_lower, spell_tolower, spell_lower]
  constructor
  · intro hv
    rcases at_headers hat' key with ⟨hnone, -⟩ | ⟨v', hv', hmem⟩
    · rw [hnone] at hv
      cases hv
    · obtain rfl : v = v' := Option.some.inj (hv.symm.trans hv')
      exact hfound v hmem
  · rintro ⟨name, hname, hspell⟩
    obtain ⟨name', hname', hspell'⟩ := hheaders k _ hname
    rw [beq_self_eq_true, hspell] at hspell'
    subst hspell'
    have hmem := List.mem_of_getElem? hname'
    rcases at_headers hat' name' with ⟨-, hne⟩ | ⟨v', hv', hmem'⟩
    · exact absurd rfl (hne _ hmem)
    · obtain ⟨name₂, hname₂, -⟩ := hfound v' hmem'
      obtain ⟨-, rfl⟩ := Prod.mk.inj (Option.some.inj (hname.symm.trans hname₂))
      exact hv'

/-- The spelling of a name that has one of the lower-case forms. -/
theorem spell_eq {name key : Str} (h : name.map tolower = key.map tolower)
    (hkey : spell true key = key) : spell true name = key := by
  rw [← spell_tolower, h, spell_tolower, hkey]

/-- Messages with other headers at most. -/
structure Alike (rp rp' : RequestParser) : Prop where
  url : rp'.fields.url = rp.fields.url
  body : rp'.fields.body = rp.fields.body
  method : rp'.parser.method = rp.parser.method

theorem Alike.plain {rp rp' : RequestParser} (h : Alike rp rp') :
    RequestParser.plain rp' = RequestParser.plain rp := by
  rw [RequestParser.plain, RequestParser.plain, h.url, h.body]

/-- Every recased request comes to the same as the request. -/
def CaseBlind (junk : Bool) (s : Str) (reads : List Str) : Prop :=
  ∀ s' reads', Recasing junk s s' → Cut s' reads' →
    reads'.map List.length = reads.map List.length →
    SameDecoding ((new junk).feed reads) ((new junk).feed reads')

/-- Such a request is seen as it is with capitals in its `k`th header name only. -/
theorem CaseBlind.respelled {junk : Bool} {s : Str} {reads : List Str} (h : CaseBlind junk s reads)
    (hs : Complete junk s) (hc : Cut s reads) (k : Nat) :
    ∃ rp' : RequestParser, Alike ((new junk).feed reads).2 rp' ∧
      seen (((new junk).feed reads).2.decodeMessage .init) = seen (rp'.decodeMessage .init) ∧
      ∀ (key v : Str), Capital key → (rp'.fields.headers[key]? = some v ↔
        ∃ name, (headersIn junk s)[k]? = some (name, v) ∧ spell true name = key) := by
  obtain ⟨reads', hc', hlen, hlookup⟩ := respelled_run hs hc k
  have hrecasing := respell_recasing hs k
  obtain ⟨-, hurl, hbody, hmethod, -⟩ := recased_run hs hrecasing hc hc' hlen
  exact ⟨_, ⟨hurl, hbody, hmethod⟩, (h _ reads' hrecasing hc' hlen).same, hlookup⟩

/-- So it is seen as one without headers. -/
theorem CaseBlind.seen {junk : Bool} {s : Str} {reads : List Str} (h : CaseBlind junk s reads)
    (hs : Complete junk s) (hc : Cut s reads) :
    RequestParser.seen (((new junk).feed reads).2.decodeMessage .init) =
      plain ((new junk).feed reads).2 := by
  -- no header has the number of all of them
  obtain ⟨rp', halike, hseen, hlookup⟩ := h.respelled hs hc (headersIn junk s).length
  have hnone : ∀ key, Capital key → rp'.fields.headers[key]? = none := by
    intro key hkey
    cases hv : rp'.fields.headers[key]? with
    | none => rfl
    | some v =>
      obtain ⟨name, hname, -⟩ := (hlookup key v hkey).mp hv
      simp at hname
  rw [hseen, ← halike.plain]
  refine seen_plain (fun enc henc => ?_) (fun _ => hnone _ (by decide)) fun _ _ => ⟨?_, ?_⟩
  · rw [hnone _ (by decide)] at henc
    cases henc
  · rw [header, hnone _ (by decide)]
    decide
  · rw [header, hnone _ (by decide)]
    exact noPart_nil _

/-- Each of its headers alone, under a name with capitals, says nothing. -/
theorem CaseBlind.header {junk : Bool} {s : Str} {reads : List Str} (h : CaseBlind junk s reads)
    (hs : Complete junk s) (hc : Cut s reads) {hdr : Str × Str} (hmem : hdr ∈ headersIn junk s) :
    ∃ rp' : RequestParser, Alike ((new junk).feed reads).2 rp' ∧
      RequestParser.seen (rp'.decodeMessage .init) = plain rp' ∧
      ∀ key, Capital key →
        rp'.fields.headers[key]? = if spell true hdr.1 = key then some hdr.2 else none := by
  obtain ⟨k, hk⟩ := List.getElem?_of_mem hmem
  obtain ⟨rp', halike, hseen, hlookup⟩ := h.respelled hs hc k
  refine ⟨rp', halike, ?_, fun key hkey => ?_⟩
  · rw [← hseen, h.seen hs hc, halike.plain]
  · split_ifs with hspell
    · exact (hlookup key hdr.2 hkey).mpr ⟨hdr.1, hk, hspell⟩
    · cases hv : rp'.fields.headers[key]? with
      | none => rfl
      | some v =>
        obtain ⟨name, hname, hspell'⟩ := (hlookup key v hkey).mp hv
        rw [hk] at hname
        cases hname
        exact absurd hspell' hspell

theorem CaseBlind.free {junk : Bool} {s : Str} {reads : List Str} (h : CaseBlind junk s reads)
    (hs : Complete junk s) (hc : Cut s reads) :
    CaseFree (headersIn junk s) ((new junk).feed reads).2 := by
  constructor
  · have hsame := h s reads ⟨rfl, fun i hi => absurd rfl hi⟩ hc rfl
    exact fun hu => hsame.defined ((decodeMessage_shownParts _).2.mpr hu)
  · intro hdr hmem hname
    obtain ⟨rp', halike, hseen, hlookup⟩ := h.header hs hc hmem
    have hspell : spell true hdr.1 = str "Accept-Encoding" := spell_eq hname (by decide)
    refine (plain_seen hseen).1 _ ?_
    rw [hlookup _ (by decide), if_pos hspell]
  · intro hparts hdr hmem hname
    obtain ⟨rp', halike, hseen, hlookup⟩ := h.header hs hc hmem
    have hspell : spell true hdr.1 = str "Cookie" := spell_eq hname (by decide)
    have hnone := ((plain_seen hseen).2 (by rw [halike.url]; exact hparts)).1
    rw [hlookup _ (by decide), if_pos hspell] at hnone
    cases hnone
  · intro hparts hpost hdr hmem hname
    obtain ⟨rp', halike, hseen, hlookup⟩ := h.header hs hc hmem
    have hspell : spell true hdr.1 = str "Content-Length" := spell_eq hname (by decide)
    obtain ⟨n, hn, req, hbare, hread⟩ :=
      ((plain_seen hseen).2 (by rw [halike.url]; exact hparts)).2 (halike.method.trans hpost)
    rw [RequestParser.header, hlookup _ (by decide), if_pos hspell, Option.getD_some] at hn
    rw [RequestParser.header, hlookup _ (by decide), if_neg (by rw [hspell]; decide)] at hread
    rw [(readForm_untyped hbare (stoi_bounds hn)).mp hread] at hn
    exact hn
  · intro hparts hpost hdr hmem hname
    obtain ⟨rp', halike, hseen, hlookup⟩ := h.header hs hc hmem
    have hspell : spell true hdr.1 = str "Content-Type" := spell_eq hname (by decide)
    obtain ⟨n, hn, req, hbare, hread⟩ :=
      ((plain_seen hseen).2 (by rw [halike.url]; exact hparts)).2 (halike.method.trans hpost)
    rw [RequestParser.header, hlookup _ (by decide), if_neg (by rw [hspell]; decide)] at hn
    have hzero : n = 0 := by
      have hstoi : stoi (str "0") = .ok 0 := by decide
      exact Except.ok.inj (hn.symm.trans hstoi)
    rw [RequestParser.header, hlookup _ (by decide), if_pos hspell, Option.getD_some, hzero] at hread
    rw [← halike.body]
    exact (readForm_zero hbare _).mp hread

/-- **The letter case of the header names does not matter to a request** exactly where no header
says anything that is found under one spelling of its name, and the target is defined. -/
theorem recasing_iff {junk : Bool} {s : Str} (hs : Complete junk s) {reads : List Str}
    (hc : Cut s reads) :
    CaseBlind junk s reads ↔ CaseFree (headersIn junk s) ((new junk).feed reads).2 :=
  ⟨fun h => h.free hs hc,
    fun hfree _ _ hr hc' hlen => caseFree_same hs hr hc hc' hlen hfree⟩

/-- A request without any of the headers. -/
def hostRequest : Str := str "GET /a HTTP/1.1\r\nHost: h\r\n\r\n"

theorem hostRequest_complete : Complete false hostRequest :=
  ⟨by decide +kernel, by decide +kernel, by decide⟩

theorem hostRequest_caseBlind : CaseBlind false hostRequest [hostRequest] :=
  (recasing_iff hostRequest_complete ⟨by decide, by decide⟩).mpr
    ⟨by decide +kernel, by decide +kernel, fun _ => by decide +kernel, fun _ => by decide +kernel,
      fun _ hpost => absurd hpost (by decide +kernel)⟩

instance (junk : Bool) (s : Str) (i : Nat) : Decidable (InHeaderName junk s i) :=
  inferInstanceAs (Decidable (inName ((new junk).parse (s.take i)).2.parser.state = true))

theorem recasing_of_lt {junk : Bool} {s s' : Str} (h : s'.map tolower = s.map tolower)
    (hnames : ∀ i < s.length, s'[i]? ≠ s[i]? → InHeaderName junk s i) : Recasing junk s s' := by
  refine ⟨h, fun i hi => ?_⟩
  rcases lt_or_ge i s.length with hlt | hge
  · exact hnames i hlt hi
  · have hlen : s'.length = s.length := by simpa using congrArg List.length h
    rw [List.getElem?_eq_none hge, List.getElem?_eq_none (hlen ▸ hge)] at hi
    exact absurd rfl hi

/-- A form, with the names of its headers in the two spellings that clients use. -/
def formRequestText : Str :=
  str "POST /a HTTP/1.1\r\nContent-Length: 4\r\n" ++
    str "Content-Type: application/x-www-form-urlencoded\r\n\r\nid=7"

def formRequestLower : Str :=
  str "POST /a HTTP/1.1\r\ncontent-length: 4\r\n" ++
    str "content-type: application/x-www-form-urlencoded\r\n\r\nid=7"

/-- In lower case the form is empty. -/
theorem lowerForm_lost :
    ¬∀ (junk : Bool) (s s' : Str) (reads reads' : List Str), Complete junk s → Cut s reads →
      Recasing junk s s' → Cut s' reads' → reads'.map List.length = reads.map List.length →
      SameDecoding ((new junk).feed reads) ((new junk).feed reads') := by
  intro h
  have hsame := h false formRequestText formRequestLower [formRequestText] [formRequestLower]
    ⟨by decide +kernel, by decide +kernel, by decide⟩ ⟨by decide, by decide⟩
    (recasing_of_lt (by decide) (by decide +kernel)) ⟨by decide, by decide⟩ (by decide)
  have hPOST := congrArg (fun r => r.POST[str "id"]?) hsame.same
  revert hPOST
  decide +kernel

end RequestParser

end Wsrv
