import Wsrv.RequestDecode

/-!
# When a message is decoded

`decode_message` runs outside of the `try` block of the connection, so what it
throws ends the thread.  Most of its partial operations stay in their domain for
every message; four do not, and `decodeMessage_returns_iff` says when each of
them does: the percent escapes of the target, `stoi` of `Content-Length`, the
first line of a multipart body and a negative length.
-/

namespace Wsrv.RequestParser

/-- A step that returns. -/
def Returns (r : Decoded) : Prop := ∃ b req, r = (.ok b, req)

theorem andThen_returns (r : Decoded) (next : HTTPServerRequest → Decoded) :
    Returns (r.andThen next) ↔ Returns r ∧ ∀ req, r = (.ok true, req) → Returns (next req) := by
  rcases r with ⟨f | _ | _, req⟩
  · simp [Decoded.andThen, Returns]
  · simp [Decoded.andThen, Returns]
  · simp [Decoded.andThen, Returns]

/-! ## The URL -/

/-- The target has a meaning: it is refused, or its host is there where it has a scheme, and the
escapes of its path and of its query have both digits. -/
def UrlDefined (url : Str) : Prop :=
  match Http.parseUrl url with
  | .failed => True
  | .undefined => False
  | .parsed u =>
    ∀ field ∈ [Http.UrlField.path, .query], ∀ text, getUrlField url u field = .ok text →
      urlDecode text ≠ none

theorem getUrlField_ok {url : Str} {u : Http.FieldData} (h : Http.parseUrl url = .parsed u)
    (field : Http.UrlField) : ∃ text, getUrlField url u field = .ok text := by
  unfold getUrlField
  split
  · exact ⟨_, rfl⟩
  · rename_i off len hf
    exact substr_ok _ (Http.parseUrl_within h field off len hf)

/-- `parse_url` raises no exception, and is undefined only where the target is. -/
theorem urlParts_ok_iff (url : Str) : (∃ parts, urlParts url = .ok parts) ↔ UrlDefined url := by
  unfold urlParts urlPartsWith UrlDefined
  cases hu : Http.parseUrl url with
  | failed => simp
  | undefined => simp
  | parsed u =>
    obtain ⟨path, hpath⟩ := getUrlField_ok hu .path
    obtain ⟨query, hquery⟩ := getUrlField_ok hu .query
    simp only [hpath, hquery, List.mem_cons, List.not_mem_nil, or_false, forall_eq_or_imp,
      forall_eq, Except.ok.injEq, forall_eq']
    rcases urlDecode path with _ | p <;> rcases urlDecode query with _ | q <;> simp

theorem addArg_ok (GET : Dictionary) (arg : Str) : ∃ GET', addArg GET arg = .ok GET' := by
  unfold addArg
  split
  · exact ⟨_, rfl⟩
  · exact ⟨_, rfl⟩
  · rename_i pos _ hpos
    have hlt := find_lt hpos
    obtain ⟨key, hkey⟩ := @substr_ok arg 0 (some pos) (by omega)
    obtain ⟨val, hval⟩ := @substr_ok arg (pos + 1) none (by omega)
    rw [hkey, hval]
    exact ⟨_, rfl⟩

theorem addArgs_ok (args : List Str) (GET : Dictionary) : ∃ GET', addArgs args GET = .ok GET' := by
  induction args generalizing GET with
  | nil => exact ⟨GET, rfl⟩
  | cons arg args ih =>
    obtain ⟨GET', h⟩ := addArg_ok GET arg
    rw [addArgs, h]
    exact ih GET'

/-- What `parse_url` makes of a target: nothing, or a path, a query and its arguments. -/
theorem parseUrl_cases (req : HTTPServerRequest) (url : Str) :
    (∃ f, urlParts url = .error f ∧ parseUrl req url = (.error f, req)) ∨
    (urlParts url = .ok none ∧ parseUrl req url = (.ok false, req)) ∨
    ∃ path query GET, urlParts url = .ok (some (path, query)) ∧
      parseUrl req url = (.ok true, { req with path := path, query := query, GET := GET }) := by
  unfold parseUrl parseUrlWith
  rcases hu : urlParts url with f | _ | ⟨path, query⟩ <;> rw [urlParts] at hu <;> rw [hu]
  · exact .inl ⟨f, rfl, rfl⟩
  · exact .inr (.inl ⟨rfl, rfl⟩)
  · refine .inr (.inr ?_)
    simp only []
    split
    · exact ⟨path, query, req.GET, rfl, rfl⟩
    · obtain ⟨GET, hG⟩ := addArgs_ok (split query (str "&")) req.GET
      rw [hG]
      exact ⟨path, query, GET, rfl, rfl⟩

theorem parseUrl_returns (req : HTTPServerRequest) (url : Str) :
    Returns (parseUrl req url) ↔ UrlDefined url := by
  rw [← urlParts_ok_iff]
  rcases parseUrl_cases req url with ⟨f, hu, h⟩ | ⟨hu, h⟩ | ⟨path, query, GET, hu, h⟩ <;>
    simp [Returns, hu, h]

/-! ## Cookies -/

/-- A cookie is stored when it has an equals sign, and refused when it has none. -/
theorem parseCookie_ok (req : HTTPServerRequest) (data : Str) :
    ∃ COOKIE, parseCookie req data =
      (.ok (decide ('='.toUInt8 ∈ data)), { req with COOKIE := COOKIE }) := by
  unfold parseCookie
  by_cases hmem : '='.toUInt8 ∈ data
  · have hfind : find data '='.toUInt8 = some (data.idxOf '='.toUInt8) := by simp [find, hmem]
    have hlt := find_lt hfind
    have hspace : (data.takeWhile isspace).length ≤ data.length :=
      (List.takeWhile_prefix isspace).length_le
    rw [hfind]
    simp only [cookieSpace, Regex.search_star_greedy, Option.map_some, Option.getD_some]
    obtain ⟨name, hname⟩ := @substr_ok data (data.takeWhile isspace).length
      (if (data.takeWhile isspace).length ≤ data.idxOf '='.toUInt8 then
        some (data.idxOf '='.toUInt8 - (data.takeWhile isspace).length) else none) hspace
    obtain ⟨value, hvalue⟩ := @substr_ok data (data.idxOf '='.toUInt8 + 1) none
      (by omega)
    rw [hname, hvalue]
    exact ⟨req.COOKIE.insert name value, by simp [hmem]⟩
  · have hfind : find data '='.toUInt8 = none := by simp [find, hmem]
    rw [hfind]
    exact ⟨req.COOKIE, by simp [hmem]⟩

/-- The pieces of a text, by the first place of the delimiter. -/
theorem pieces_eq (c : UInt8) (s token : Str) :
    pieces c s token = match find s c with
      | none => [token ++ s]
      | some i => (token ++ s.take i) :: pieces c (s.drop (i + 1)) [] := by
  induction s generalizing token with
  | nil => simp [pieces, find]
  | cons b s ih =>
    rw [pieces]
    by_cases hb : b = c
    · subst hb
      simp [find]
    · have hmem : c ∈ b :: s ↔ c ∈ s := by
        simp [Ne.symm hb]
      rw [if_neg hb, ih]
      unfold find
      simp only [hmem]
      split_ifs
      · simp [List.idxOf_cons_ne s hb]
      · simp

/-- The loop over the cookies accepts them when every one is a pair. -/
theorem cookieLoop_ok (data : Str) (oldPos : Nat) (req : HTTPServerRequest)
    (hpos : oldPos ≤ data.length) :
    ∃ COOKIE, cookieLoop data oldPos req =
      (.ok (decide (∀ p ∈ pieces ';'.toUInt8 (data.drop oldPos) [], '='.toUInt8 ∈ p)),
        { req with COOKIE := COOKIE }) := by
  induction hn : data.length - oldPos using Nat.strong_induction_on generalizing oldPos req with
  | _ n ih =>
    subst hn
    rw [cookieLoop, pieces_eq]
    split
    · rename_i h
      have hfind : find (data.drop oldPos) ';'.toUInt8 = none := by
        simpa [findFrom] using h
      have hsub : substr data oldPos none = .ok (data.drop oldPos) := by
        simp [substr, Nat.not_lt.mpr hpos]
      rw [hsub, hfind]
      obtain ⟨COOKIE, hc⟩ := parseCookie_ok req (data.drop oldPos)
      exact ⟨COOKIE, by simp [hc]⟩
    · rename_i pos h
      have hb := findFrom_bounds h
      obtain ⟨i, hi, rfl⟩ := Option.map_eq_some_iff.mp h
      have hsub : substr data oldPos (some (oldPos + i - oldPos)) =
          .ok ((data.drop oldPos).take i) := by
        simp [substr, Nat.not_lt.mpr hpos]
      rw [hsub, hi]
      obtain ⟨COOKIE, hc⟩ := parseCookie_ok req ((data.drop oldPos).take i)
      simp only [hc, List.nil_append, List.mem_cons, forall_eq_or_imp, List.drop_drop]
      by_cases hmem : '='.toUInt8 ∈ (data.drop oldPos).take i
      · obtain ⟨COOKIE', hrest⟩ := ih _ (by omega) (oldPos + i + 1)
          { req with COOKIE := COOKIE } (by omega) rfl
        refine ⟨COOKIE', ?_⟩
        simp only [hmem, decide_true, Decoded.andThen, hrest, true_and]
        rw [Nat.add_assoc]
      · exact ⟨COOKIE, by simp [hmem, Decoded.andThen]⟩

/-- The cookies of a request are accepted: there is no `Cookie` header, or it is not empty and
every piece of it between semicolons has an equals sign. -/
def CookiesAccepted (SERVER : Dictionary) : Prop :=
  ∀ data, SERVER[str "Cookie"]? = some data →
    data ≠ [] ∧ ∀ p ∈ pieces ';'.toUInt8 data [], '='.toUInt8 ∈ p

/-- `parse_cookies` returns, and changes nothing but the cookies. -/
theorem parseCookies_ok (req : HTTPServerRequest) :
    ∃ b COOKIE, parseCookies req = (.ok b, { req with COOKIE := COOKIE }) ∧
      (b = true ↔ CookiesAccepted req.SERVER) := by
  unfold parseCookies CookiesAccepted
  cases hc : req.SERVER[str "Cookie"]? with
  | none => exact ⟨true, req.COOKIE, rfl, by simp⟩
  | some data =>
    by_cases hd : data = []
    · exact ⟨false, req.COOKIE, by simp [hd], by simp [hd]⟩
    · obtain ⟨COOKIE, h⟩ := cookieLoop_ok data 0 req (by omega)
      refine ⟨_, COOKIE, by simpa [hd] using h, by simp [hd]⟩

/-! ## Form data -/

theorem formFields_ok (fields : List Str) (POST : Dictionary) :
    ∃ POST', formFields fields POST = .ok POST' := by
  induction fields generalizing POST with
  | nil => exact ⟨POST, rfl⟩
  | cons s rest ih =>
    rw [formFields, addFormField]
    cases hf : find s '='.toUInt8 with
    | none => exact ⟨POST, rfl⟩
    | some pos =>
      have hlt := find_lt hf
      obtain ⟨key, hkey⟩ := @substr_ok s 0 (some pos) (by omega)
      obtain ⟨val, hval⟩ := @substr_ok s (pos + 1) none (by omega)
      simp only [hkey, hval]
      exact ih _

/-- **A multipart body is read without an exception unless its first line has one character**,
which `compare(2, ...)` lies beyond. -/
theorem parseMultipartData_ok_iff (req : HTTPServerRequest) (strm : IStream) (bnd : Str) :
    (∃ req', parseMultipartData req strm bnd = .ok req') ↔ (getNextLine strm).1.length ≠ 1 := by
  unfold parseMultipartData compareAt
  rcases hline : getNextLine strm with ⟨s, strm'⟩
  match s with
  | [] => simp
  | [c] => simp
  | c :: d :: s =>
    have hlen : ¬(c :: d :: s).length < 2 := by simp
    simp only [List.cons_ne_nil, if_false, hlen]
    rcases hb : (List.take bnd.length (List.drop 2 (c :: d :: s)) == bnd) with _ | _
    · simp
    · obtain ⟨req', h⟩ := multipartLoop_ok bnd req strm'
      simp [h]

/-- A body of the declared length `n` and the content type can be read: the length is negative
only where nothing of that length is read, and the first line of a multipart body has not one
character. -/
structure BodyReadable (n : Int) (contentType body : Str) : Prop where
  length : n < 0 → contentType = [] ∨
    startsWith contentType (str "application/x-www-form-urlencoded") = true ∨
    boundary contentType ≠ none
  line : startsWith contentType (str "application/x-www-form-urlencoded") = false →
    boundary contentType ≠ none → (getNextLine ⟨body, false⟩).1.length ≠ 1

/-- The form data can be read: `Content-Length` starts with a number that fits an `int`, and the
body is readable. -/
def FormReadable (SERVER : Dictionary) (body : Str) : Prop :=
  ∃ n, stoi (SERVER.getD (str "Content-Length") (str "0")) = .ok n ∧
    BodyReadable n (SERVER.getD (str "Content-Type") []) body

theorem stoi_bounds {s : Str} {n : Int} (h : stoi s = .ok n) : -2 ^ 31 ≤ n ∧ n < 2 ^ 31 := by
  unfold stoi at h
  simp only [] at h
  generalize hv : (if (splitSign (s.dropWhile isspace)).1 = true then
    -(leadingNumber (splitSign (s.dropWhile isspace)).2 : Int)
    else leadingNumber (splitSign (s.dropWhile isspace)).2) = v at h
  split at h
  · cases h
  · split at h
    · cases h
    · obtain rfl := Except.ok.inj h
      omega

theorem boundary_nil : boundary [] = none := by decide

/-- A content of a declared length is read when the length is not negative. -/
theorem readContent_ok_iff {n : Int} (h : -2 ^ 31 ≤ n ∧ n < 2 ^ 31) (strm : IStream) :
    (∃ content, readContent (n % 2 ^ 64).toNat strm = .ok content) ↔ 0 ≤ n := by
  unfold readContent maxSize
  split
  · rename_i hlt
    constructor
    · rintro ⟨content, hc⟩
      cases hc
    · intro hn
      rw [Int.emod_eq_of_lt hn (by omega)] at hlt
      omega
  · rename_i hlt
    refine ⟨fun _ => ?_, fun _ => ⟨_, rfl⟩⟩
    by_contra hn
    have hmod : n % 2 ^ 64 = n + 2 ^ 64 := by omega
    rw [hmod] at hlt
    omega

theorem readForm_returns {n : Int} (h : -2 ^ 31 ≤ n ∧ n < 2 ^ 31) (req : HTTPServerRequest)
    (contentType body : Str) :
    Returns (readForm req ⟨body, false⟩ n contentType) ↔ BodyReadable n contentType body := by
  unfold readForm
  simp only []
  split
  · rename_i hempty
    refine ⟨fun _ => ⟨fun _ => .inl hempty.1, fun _ hb => ?_⟩, fun _ => ⟨false, req, rfl⟩⟩
    exact absurd (hempty.1 ▸ boundary_nil) hb
  rename_i hempty
  split
  · rename_i hform
    obtain ⟨POST, hP⟩ := formFields_ok
      (pieces '&'.toUInt8 (getNextLine ⟨body, false⟩ n.toNat).1 []) req.POST
    rw [hP]
    refine ⟨fun _ => ⟨fun _ => .inr (.inl hform), fun hno => ?_⟩, fun _ => ⟨true, _, rfl⟩⟩
    rw [hform] at hno
    cases hno
  rename_i hform
  cases hb : boundary contentType with
  | some bnd =>
    simp only []
    have hiff := parseMultipartData_ok_iff req ⟨body, false⟩ bnd
    constructor
    · rintro ⟨b, req', hr⟩
      refine ⟨fun _ => .inr (.inr (by simp [hb])), fun _ _ => hiff.mp ?_⟩
      cases hp : parseMultipartData req ⟨body, false⟩ bnd with
      | error e =>
        rw [hp] at hr
        cases hr
      | ok req' => exact ⟨req', rfl⟩
    · intro hread
      obtain ⟨req', hp⟩ := hiff.mpr (hread.line (by simpa using hform) (by simp [hb]))
      rw [hp]
      exact ⟨true, req', rfl⟩
  | none =>
    simp only []
    have hiff := readContent_ok_iff h ⟨body, false⟩
    have hcond : BodyReadable n contentType body ↔ (n < 0 → contentType = []) := by
      constructor
      · intro hread hn
        rcases hread.length hn with h | h | h
        · exact h
        · exact absurd h hform
        · exact absurd hb h
      · intro himp
        exact ⟨fun hn => .inl (himp hn), fun _ hne => absurd hb hne⟩
    rw [hcond]
    split
    · rename_i hzero
      refine ⟨fun _ hn => ?_, fun _ => ⟨true, req, rfl⟩⟩
      omega
    · rename_i hpos
      have hne : contentType ≠ [] := fun he => hempty ⟨he, by omega⟩
      constructor
      · rintro ⟨b, req', hr⟩ hn
        cases hc : readContent (n % 2 ^ 64).toNat ⟨body, false⟩ with
        | error e =>
          rw [hc] at hr
          cases hr
        | ok content =>
          have := hiff.mp ⟨content, hc⟩
          omega
      · intro himp
        obtain ⟨content, hc⟩ := hiff.mpr (by
          by_contra hn
          exact hne (himp (by omega)))
        rw [hc]
        exact ⟨true, _, rfl⟩

/-- **`parse_form_data` returns exactly on readable form data.** -/
theorem parseFormData_returns (req : HTTPServerRequest) (body : Str) :
    Returns (parseFormData req ⟨body, false⟩) ↔ FormReadable req.SERVER body := by
  unfold parseFormData FormReadable
  simp only [HTTPServerRequest.getServerAttribute]
  cases hn : stoi (req.SERVER.getD (str "Content-Length") (str "0")) with
  | error e =>
    constructor
    · rintro ⟨b, req', h⟩
      cases h
    · rintro ⟨n, h, -⟩
      cases h
  | ok n =>
    simp only [Except.ok.injEq, exists_eq_left']
    exact readForm_returns (stoi_bounds hn) req _ body

/-! ## The message -/

/-- The attributes of the request that a message becomes. -/
def attributes (rp : RequestParser) : Dictionary := (startRequest rp .init).SERVER

/-- **The messages that are decoded.**  The target has a meaning; and a `POST` whose target and
cookies are accepted has readable form data. -/
structure Decodable (rp : RequestParser) : Prop where
  url : UrlDefined rp.fields.url
  form : rp.parser.method = .POST → (∃ parts, urlParts rp.fields.url = .ok (some parts)) →
    CookiesAccepted (attributes rp) → FormReadable (attributes rp) rp.fields.body

theorem methodString_post (m : Http.Method) : Http.methodString m = str "POST" ↔ m = .POST := by
  cases m <;> decide

/-- The steps behind the URL return when the form data of a `POST` can be read. -/
theorem cookiesAndForm_returns (req : HTTPServerRequest) (body : Str) :
    Returns (Decoded.andThen (parseCookies req) fun req =>
        if req.method = str "POST" then parseFormData req ⟨body, false⟩ else (.ok true, req)) ↔
      (req.method = str "POST" → CookiesAccepted req.SERVER → FormReadable req.SERVER body) := by
  obtain ⟨b, COOKIE, hc, hb⟩ := parseCookies_ok req
  rw [hc, ← hb]
  cases b with
  | false => simp [Decoded.andThen, Returns]
  | true =>
    simp only [Decoded.andThen, true_imp_iff]
    split
    · rename_i hpost
      rw [parseFormData_returns]
      exact ⟨fun h _ => h, fun h => h hpost⟩
    · rename_i hpost
      exact ⟨fun _ h => absurd h hpost, fun _ => ⟨true, _, rfl⟩⟩

/-- **`decode_message` returns exactly on the messages that are decodable.**  On all others it
throws, or its behaviour is undefined. -/
theorem decodeMessage_returns_iff (rp : RequestParser) :
    (∃ b req, rp.decodeMessage .init = (.ok b, req)) ↔ Decodable rp := by
  change Returns _ ↔ _
  unfold decodeMessage
  rw [andThen_returns, parseUrl_returns]
  have hrest : (∀ req, parseUrl (startRequest rp .init) rp.fields.url = (.ok true, req) →
      Returns (Decoded.andThen (parseCookies req) fun req =>
        if req.method = str "POST" then parseFormData req ⟨rp.fields.body, false⟩
        else (.ok true, req))) ↔
      (rp.parser.method = .POST → (∃ parts, urlParts rp.fields.url = .ok (some parts)) →
        CookiesAccepted (attributes rp) → FormReadable (attributes rp) rp.fields.body) := by
    simp only [cookiesAndForm_returns]
    rw [← methodString_post]
    rcases parseUrl_cases (startRequest rp .init) rp.fields.url with
      ⟨f, hu, hp⟩ | ⟨hu, hp⟩ | ⟨path, query, GET, hu, hp⟩
    · simp [hu, hp]
    · simp [hu, hp]
    · constructor
      · intro h hpost _
        have hform := h _ hp
        exact hform hpost
      · intro h req hreq hpost
        obtain rfl := (Prod.mk.inj (hp.symm.trans hreq)).2
        exact h hpost ⟨_, hu⟩
  rw [hrest]
  exact ⟨fun h => ⟨h.1, h.2⟩, fun h => ⟨h.url, h.form⟩⟩

/-- An empty multipart body: its first line is the one character that the end of the stream gives,
and `compare(2, ...)` throws. -/
def emptyMultipart : Str :=
  str "POST /upload HTTP/1.1\r\nContent-Length: 0\r\n" ++
    str "Content-Type: multipart/form-data; boundary=x\r\n\r\n"

theorem empty_multipart_throws :
    let r := (RequestParser.new false).feed [emptyMultipart]
    r.1 = .ok ∧ (r.2.decodeMessage .init).1 =
      .error (.raised (.outOfRange (str "basic_string::compare"))) := by
  decide +kernel

/-! ## What the body leaves alone -/

/-- A part sees of the request its form fields and its files, and leaves the rest. -/
theorem parseMimeData_frame (req req₂ : HTTPServerRequest) (strm : IStream)
    (fld fileName contentType bnd : Str) :
    parseMimeData { req₂ with POST := req.POST, FILE := req.FILE } strm fld fileName contentType
        bnd =
      (parseMimeData req strm fld fileName contentType bnd).map fun r =>
        ({ req₂ with POST := r.1.POST, FILE := r.1.FILE }, r.2) := by
  unfold parseMimeData
  split
  · rfl
  · split_ifs <;> rfl

/-- A part without a field name ends the loop. -/
theorem multipartLoop_end {bnd : Str} {strm strm₁ : IStream} {part : Part}
    (hpart : partHeaders strm {} = .ok (part, strm₁)) (hf : part.formField = [])
    (req : HTTPServerRequest) : multipartLoop bnd req strm = .ok req := by
  rw [multipartLoop]
  split
  · rename_i h
    simp [hpart] at h
  · rename_i part' strm' h
    obtain ⟨rfl, rfl⟩ : part = part' ∧ strm₁ = strm' := by simpa [hpart] using h
    rw [dif_pos hf]

theorem multipartLoop_part {bnd : Str} {req req' : HTTPServerRequest} {strm strm₁ strm₂ : IStream}
    {part : Part} (hpart : partHeaders strm {} = .ok (part, strm₁)) (hf : part.formField ≠ [])
    (hmime : parseMimeData req strm₁ part.formField part.fileName part.contentType bnd =
      .ok (req', strm₂)) : multipartLoop bnd req strm = multipartLoop bnd req' strm₂ := by
  rw [multipartLoop]
  split
  · rename_i h
    simp [hpart] at h
  · rename_i part' strm' h
    obtain ⟨rfl, rfl⟩ : part = part' ∧ strm₁ = strm' := by simpa [hpart] using h
    rw [dif_neg hf]
    split
    · rename_i h
      simp [hmime] at h
    · rename_i req₂ strm₃ h
      obtain ⟨rfl, rfl⟩ : req' = req₂ ∧ strm₂ = strm₃ := by simpa [hmime] using h
      rfl

theorem multipartLoop_frame (req req₂ : HTTPServerRequest) (strm : IStream) (bnd : Str) :
    multipartLoop bnd { req₂ with POST := req.POST, FILE := req.FILE } strm =
      (multipartLoop bnd req strm).map fun r => { req₂ with POST := r.POST, FILE := r.FILE } := by
  induction hn : strm.size using Nat.strong_induction_on generalizing req strm with
  | _ n ih =>
    subst hn
    obtain ⟨part, strm₁, hpart, -, hlt⟩ := partHeaders_ok strm {}
    by_cases hf : part.formField = []
    · rw [multipartLoop_end hpart hf, multipartLoop_end hpart hf]
      rfl
    · have hne : part ≠ {} := by
        rintro rfl
        exact hf rfl
      obtain ⟨req', strm₂, hmime, hle⟩ :=
        parseMimeData_ok req strm₁ part.formField part.fileName part.contentType bnd
      have hframe := parseMimeData_frame req req₂ strm₁ part.formField part.fileName
        part.contentType bnd
      rw [hmime] at hframe
      rw [multipartLoop_part hpart hf hmime, multipartLoop_part hpart hf hframe]
      exact ih _ (hle.trans_lt (hlt hne)) req' strm₂ rfl

theorem parseMultipartData_frame (req req₂ : HTTPServerRequest) (strm : IStream) (bnd : Str) :
    parseMultipartData { req₂ with POST := req.POST, FILE := req.FILE } strm bnd =
      (parseMultipartData req strm bnd).map fun r =>
        { req₂ with POST := r.POST, FILE := r.FILE } := by
  unfold parseMultipartData
  simp only
  split
  · rfl
  · split
    · rfl
    · rfl
    · exact multipartLoop_frame req req₂ _ bnd

/-- `parse_form_data` fills the form fields, the files and the content, and it is defined. -/
theorem parseFormData_frame (req : HTTPServerRequest) (strm : IStream) :
    (parseFormData req strm).1 ≠ .error .undefined ∧ ∃ POST FILE content contentType,
      (parseFormData req strm).2 =
        { req with POST := POST, FILE := FILE, content := content, contentType := contentType } := by
  unfold parseFormData
  split
  · exact ⟨by simp, _, _, _, _, rfl⟩
  unfold readForm
  simp only []
  split
  · exact ⟨by simp, _, _, _, _, rfl⟩
  split
  · split <;> exact ⟨by simp, _, _, _, _, rfl⟩
  split
  · rename_i bnd _
    have hframe := parseMultipartData_frame req req strm bnd
    split
    · rename_i req' hm
      rw [hm] at hframe
      rw [Except.ok.inj hframe]
      exact ⟨by simp, _, _, _, _, rfl⟩
    · exact ⟨by simp, _, _, _, _, rfl⟩
  · split
    · exact ⟨by simp, _, _, _, _, rfl⟩
    · split <;> exact ⟨by simp, _, _, _, _, rfl⟩

/-- What follows on the target keeps its parts, and is defined. -/
theorem cookiesAndForm_target (req : HTTPServerRequest) (body : Str) :
    let r := Decoded.andThen (parseCookies req) fun req =>
      if req.method = str "POST" then parseFormData req ⟨body, false⟩ else (.ok true, req)
    r.1 ≠ .error .undefined ∧ r.2.path = req.path ∧ r.2.query = req.query := by
  obtain ⟨b, COOKIE, hc, -⟩ := parseCookies_ok req
  rw [hc]
  cases b with
  | false => exact ⟨by simp [Decoded.andThen], rfl, rfl⟩
  | true =>
    simp only [Decoded.andThen]
    split
    · obtain ⟨hdefined, POST, FILE, content, contentType, h⟩ :=
        parseFormData_frame { req with COOKIE := COOKIE } ⟨body, false⟩
      rw [h]
      exact ⟨hdefined, rfl, rfl⟩
    · exact ⟨by simp, rfl, rfl⟩

end Wsrv.RequestParser
