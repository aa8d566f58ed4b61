import Wsrv.HttpUrl
import Wsrv.RequestParser
import Wsrv.Lib.Regex

/-!
# Decoding a message

`RequestParser::decode_message` fills an `HTTPServerRequest` from what the
callbacks collected: the path and the query from the URL, the cookies, and for a
`POST` the form data of the body.

The operations of the standard library outside of their domain throw, and
`url_decode` and `http_parser_parse_url` may have undefined behaviour; both are
a `Fault`.  The loops over the body consume the stream they read from, so they
end.
-/

namespace Wsrv

/-- Why a function does not return: an exception, or undefined behaviour. -/
inductive Fault
  | raised (e : Exception)
  | undefined
  deriving DecidableEq

/-- The result of a step of the decoder, and the request as it leaves it. -/
abbrev Decoded := Except Fault Bool × HTTPServerRequest

/-- `if ( !step ) return false ;` and on. -/
def Decoded.andThen (r : Decoded) (next : HTTPServerRequest → Decoded) : Decoded :=
  match r with
  | (.ok true, req) => next req
  | (.ok false, req) => (.ok false, req)
  | (.error f, req) => (.error f, req)

/-- `s.find(c, pos)`. -/
def findFrom (s : Str) (c : UInt8) (pos : Nat) : Option Nat := (find (s.drop pos) c).map (pos + ·)

theorem findFrom_bounds {s : Str} {c : UInt8} {pos i : Nat} (h : findFrom s c pos = some i) :
    pos ≤ i ∧ i < s.length := by
  obtain ⟨j, hj, rfl⟩ := Option.map_eq_some_iff.mp h
  have hlt := find_lt hj
  rw [List.length_drop] at hlt
  omega

namespace RequestParser

/-! ## The URL -/

/-- `get_url_field`. -/
def getUrlField (data : Str) (url : Http.FieldData) (field : Http.UrlField) :
    Except Exception Str :=
  match url field with
  | none => .ok []
  | some (off, len) => substr data off (some len)

/-- The loop over the segments of `normalize_path`. -/
def normalizeSegments : List Str → List Str → List Str
  | [], dst => dst
  | seg :: segs, dst =>
    if seg = [] then normalizeSegments segs dst
    else if seg = str "." then normalizeSegments segs dst
    else if seg = str ".." then normalizeSegments segs dst.dropLast
    else normalizeSegments segs (dst ++ [seg])

def normalizePath (src : Str) : Str :=
  if src = [] then str "/"
  else
    let segments := normalizeSegments (split src (str "/")) []
    if segments = [] then str "/" else str "/" ++ join (str "/") segments

/-- The path and the query of `parse_url`, or `none` where the URL is invalid; `decode` is
`url_decode`. -/
def urlPartsWith (decode : Str → Option Str) (url : Str) : Except Fault (Option (Str × Str)) :=
  match Http.parseUrl url with
  | .undefined => .error .undefined
  | .failed => .ok none
  | .parsed u =>
    match getUrlField url u .path, getUrlField url u .query with
    | .ok uri, .ok query =>
      match decode uri, decode query with
      | some path, some query => .ok (some (normalizePath path, query))
      | _, _ => .error .undefined
    | .error e, _ => .error (.raised e)
    | _, .error e => .error (.raised e)

def urlParts (url : Str) : Except Fault (Option (Str × Str)) := urlPartsWith urlDecode url

/-- One argument of the query string. -/
def addArg (GET : Dictionary) (arg : Str) : Except Exception Dictionary :=
  match find arg '='.toUInt8 with
  | none => .ok (GET.insert arg [])
  | some 0 => .ok GET
  | some pos =>
    match substr arg 0 (some pos), substr arg (pos + 1) none with
    | .ok key, .ok val => .ok (GET.insert key val)
    | .error e, _ => .error e
    | _, .error e => .error e

/-- The loop over the arguments. -/
def addArgs : List Str → Dictionary → Except Exception Dictionary
  | [], GET => .ok GET
  | arg :: args, GET =>
    match addArg GET arg with
    | .ok GET => addArgs args GET
    | .error e => .error e

/-- `RequestParser::parse_url` with the decoder of its two parts. -/
def parseUrlWith (decode : Str → Option Str) (req : HTTPServerRequest) (url : Str) : Decoded :=
  match urlPartsWith decode url with
  | .error f => (.error f, req)
  | .ok none => (.ok false, req)
  | .ok (some (path, query)) =>
    let req := { req with path := path, query := query }
    if query = [] then (.ok true, req)
    else
      match addArgs (split query (str "&")) req.GET with
      | .ok GET => (.ok true, { req with GET := GET })
      | .error e => (.error (.raised e), req)

/-- `RequestParser::parse_url`. -/
def parseUrl (req : HTTPServerRequest) (url : Str) : Decoded := parseUrlWith urlDecode req url

/-! ## Cookies -/

/-- `[ \n\r\t\f\v]*` -/
def cookieSpace : Regex.Expr UInt8 := .star isspace true

/-- `RequestParser::parse_cookie`.  An `int` holds every position: the header line comes from a head of
limited size. -/
def parseCookie (req : HTTPServerRequest) (data : Str) : Decoded :=
  match find data '='.toUInt8 with
  | none => (.ok false, req)
  | some pos =>
    let wscount := ((Regex.search cookieSpace data).map (·.2)).getD 0
    -- a negative length is converted to one that reaches to the end
    let len := if wscount ≤ pos then some (pos - wscount) else none
    match substr data wscount len, substr data (pos + 1) none with
    | .ok name, .ok value => (.ok true, { req with COOKIE := req.COOKIE.insert name value })
    | .error e, _ => (.error (.raised e), req)
    | _, .error e => (.error (.raised e), req)

/-- The loop of `parse_cookies`; its positions are those of the header line too. -/
def cookieLoop (data : Str) (oldPos : Nat) (req : HTTPServerRequest) : Decoded :=
  match _h : findFrom data ';'.toUInt8 oldPos with
  | none =>
    match substr data oldPos none with
    | .ok cookie => parseCookie req cookie
    | .error e => (.error (.raised e), req)
  | some pos =>
    match substr data oldPos (some (pos - oldPos)) with
    | .ok cookie => Decoded.andThen (parseCookie req cookie) (cookieLoop data (pos + 1))
    | .error e => (.error (.raised e), req)
termination_by data.length - oldPos
decreasing_by
  have := findFrom_bounds _h
  omega

/-- `RequestParser::parse_cookies`. -/
def parseCookies (req : HTTPServerRequest) : Decoded :=
  match req.SERVER[str "Cookie"]? with
  | none => (.ok true, req)
  | some data => if data = [] then (.ok false, req) else cookieLoop data 0 req

/-! ## The stream over the body -/

/-- A `std::istream` over a string.  `failbit` is set with `eofbit` and only then. -/
structure IStream where
  rest : Str
  eof : Bool

namespace IStream

/-- `strm.get()` converted to `char`: the end of the stream gives -1. -/
def get (strm : IStream) : UInt8 × IStream :=
  if strm.eof then (255, strm)
  else match strm.rest with
    | [] => (255, { strm with eof := true })
    | c :: rest => (c, { strm with rest := rest })

/-- `strm.read(&buf[0], n)` into zeroed memory. -/
def read (strm : IStream) (n : Nat) : Str × IStream :=
  if strm.eof then (List.replicate n 0, strm)
  else
    let got := strm.rest.take n
    (got ++ List.replicate (n - got.length) 0, ⟨strm.rest.drop n, decide (strm.rest.length < n)⟩)

/-- How much there is to read, the end included. -/
def size (strm : IStream) : Nat := if strm.eof then 0 else strm.rest.length + 1

theorem get_size (strm : IStream) : strm.get.2.size ≤ strm.size := by
  unfold get
  split_ifs with h
  · exact le_rfl
  · split <;> simp_all [size]

theorem get_size_lt (strm : IStream) (h : strm.eof = false) : strm.get.2.size < strm.size := by
  unfold get
  rw [if_neg (by simp [h])]
  split <;> simp_all [size]

theorem read_size (strm : IStream) (n : Nat) : (strm.read n).2.size ≤ strm.size := by
  unfold read
  split_ifs with h
  · exact le_rfl
  · simp only [size, h, Bool.false_eq_true, if_false, List.length_drop]
    split <;> omega

end IStream

/-- The loop of `get_next_line`; the count may pass `maxc` by one at a carriage return. -/
def getNextLineLoop : Nat → Str → IStream → Str × IStream
  | 0, res, strm => (res, strm)
  | n + 1, res, strm =>
    if strm.eof then (res, strm)
    else
      let (b0, strm) := strm.get
      if b0 = CR then
        let (b1, strm) := strm.get
        if b1 = LF then (res, strm)
        else match n with
          | 0 => (res ++ [b0, b1], strm)
          | n + 1 => getNextLineLoop n (res ++ [b0, b1]) strm
      else getNextLineLoop n (res ++ [b0]) strm

def getNextLine (strm : IStream) (maxc : Nat := 1000) : Str × IStream :=
  getNextLineLoop maxc [] strm

/-- What `get` keeps, the loop keeps. -/
theorem getNextLineLoop_keeps {P : IStream → Prop} (hget : ∀ strm, P strm → P strm.get.2) (n : Nat)
    (res : Str) {strm : IStream} (h : P strm) : P (getNextLineLoop n res strm).2 := by
  induction n using Nat.strong_induction_on generalizing res strm with
  | _ n ih =>
    cases n with
    | zero => exact h
    | succ n =>
      have h1 := hget strm h
      have h2 := hget strm.get.2 h1
      rw [getNextLineLoop]
      split
      · exact h
      · simp only []
        split
        · split
          · exact h2
          · cases n with
            | zero => exact h2
            | succ n => exact ih n (by omega) _ h2
        · exact ih n (by omega) _ h1

theorem getNextLineLoop_size (n : Nat) (res : Str) (strm : IStream) :
    (getNextLineLoop n res strm).2.size ≤ strm.size :=
  getNextLineLoop_keeps (P := fun s => s.size ≤ strm.size) (fun s h => s.get_size.trans h) n res le_rfl

/-- A line that is not empty was read from the stream. -/
theorem getNextLine_size_lt (strm : IStream) (maxc : Nat) (h : (getNextLine strm maxc).1 ≠ []) :
    (getNextLine strm maxc).2.size < strm.size := by
  unfold getNextLine at h ⊢
  cases maxc with
  | zero => exact absurd rfl h
  | succ n =>
    rw [getNextLineLoop] at h ⊢
    cases he : strm.eof with
    | true => simp [he] at h
    | false =>
      have h1 := strm.get_size_lt he
      have h2 := strm.get.2.get_size
      simp only [Bool.false_eq_true, if_false]
      split
      · split
        · exact h2.trans_lt h1
        · cases n with
          | zero => exact h2.trans_lt h1
          | succ n => exact (getNextLineLoop_size n _ _).trans_lt (h2.trans_lt h1)
      · exact (getNextLineLoop_size n _ _).trans_lt h1

/-! ## Multipart bodies -/

/-- The loop of `parse_mime_data` with the last three characters, the text so far and the stream:
the text up to the boundary. -/
def mimeLoop (bnd : Str) (b1 b2 b3 : UInt8) (data : Str) (strm : IStream) :
    Except Exception (Str × IStream) :=
  match _h : strm.eof with
  | true => .ok (data, strm)
  | false =>
    let c := strm.get.1
    if b1 = CR ∧ b2 = LF ∧ b3 = '-'.toUInt8 ∧ c = '-'.toUInt8 then
      -- `data.resize(data.size() - 3)`
      if data.length < 3 then .error (.lengthError (str "basic_string::_M_replace_aux"))
      else
        let data := data.take (data.length - 3)
        let r := strm.get.2.read bnd.length
        if r.1 = bnd then .ok (data, r.2.get.2.get.2)
        else mimeLoop bnd b2 b3 c data r.2
    else mimeLoop bnd b2 b3 c (data ++ [c]) strm.get.2
termination_by strm.size
decreasing_by
  · exact (IStream.read_size _ _).trans_lt (strm.get_size_lt _h)
  · exact strm.get_size_lt _h

def fileUploadMaxSize : Nat := 20 * 1024 * 1024

/-- `RequestParser::parse_mime_data`, which always returns true. -/
def parseMimeData (req : HTTPServerRequest) (strm : IStream) (fld fileName contentType bnd : Str) :
    Except Exception (HTTPServerRequest × IStream) :=
  match mimeLoop bnd 0 0 0 [] strm with
  | .error e => .error e
  | .ok (data, strm) =>
    if fileName = [] then .ok ({ req with POST := req.POST.insert fld data }, strm)
    else if data.length ≤ fileUploadMaxSize then
      let file : UploadedFile := ⟨fld, fileName, contentType, data.length, data⟩
      .ok ({ req with FILE := req.FILE ++ [file] }, strm)
    else .ok (req, strm)

/-- `form-data;\s*name="(.*?)(?=")"(?:\s*;\s*filename="(.*?)(?=")")?` -/
def dispositionRegex : Regex.Expr UInt8 :=
  let quoted (i : Nat) : Regex.Expr UInt8 :=
    .seq (.group i (.star (fun c => c != LF && c != CR) false))
      (.seq (.look (Regex.word (str "\""))) (Regex.word (str "\"")))
  let space : Regex.Expr UInt8 := .star isspace true
  .seq (Regex.word (str "form-data;")) <| .seq space <| .seq (Regex.word (str "name=\"")) <|
    .seq (quoted 1) <|
    .opt <| .seq space <| .seq (Regex.word (str ";")) <| .seq space <|
      .seq (Regex.word (str "filename=\"")) (quoted 2)

/-- What the headers of a part say. -/
structure Part where
  formField : Str := []
  fileName : Str := []
  contentType : Str := []
  transEncoding : Str := []

/-- One header line of a part. -/
def Part.addHeader (part : Part) (s : Str) : Except Exception Part :=
  match find s ':'.toUInt8 with
  | none => .ok part
  | some pos =>
    let key := trim (s.take pos)
    let val := trim (s.drop (pos + 1))
    if key = str "Content-Disposition" then
      match Regex.fullMatch dispositionRegex val with
      | some subm => .ok { part with formField := (subm 1).getD [], fileName := (subm 2).getD [] }
      | none => .ok part
    else
      match compareAt key 0 12 (str "Content-Type"),
          compareAt key 0 25 (str "Content-Transfer-Encoding") with
      | .ok true, _ => .ok { part with contentType := val }
      | .ok false, .ok true => .ok { part with transEncoding := val }
      | .ok false, .ok false => .ok part
      | .error e, _ => .error e
      | _, .error e => .error e

/-- The header lines of a part, up to an empty line. -/
def partHeaders (strm : IStream) (part : Part) : Except Exception (Part × IStream) :=
  if _h : (getNextLine strm).1 = [] then .ok (part, (getNextLine strm).2)
  else
    match part.addHeader (getNextLine strm).1 with
    | .ok part => partHeaders (getNextLine strm).2 part
    | .error e => .error e
termination_by strm.size
decreasing_by exact getNextLine_size_lt strm 1000 _h

/-- The window over the last characters never holds more than the text: a boundary that was not
one leaves a window that no line break is in. -/
structure Windowed (b1 b2 b3 : UInt8) (data : Str) : Prop where
  one : b3 = CR → 1 ≤ data.length
  two : b2 = CR → b3 = LF → 2 ≤ data.length
  three : b1 = CR → b2 = LF → b3 = '-'.toUInt8 → 3 ≤ data.length

theorem Windowed.push {b1 b2 b3 : UInt8} {data : Str} (h : Windowed b1 b2 b3 data) (c : UInt8) :
    Windowed b2 b3 c (data ++ [c]) where
  one _ := by simp
  two h3 _ := by
    have := h.one h3
    rw [List.length_append, List.length_singleton]
    omega
  three h2 h3 _ := by
    have := h.two h2 h3
    rw [List.length_append, List.length_singleton]
    omega

/-- **`data.resize(data.size() - 3)` is within its domain**, so the text up to the boundary is
read, and no more than the stream holds. -/
theorem mimeLoop_ok (bnd : Str) {b1 b2 b3 : UInt8} {data : Str} (strm : IStream)
    (h : Windowed b1 b2 b3 data) :
    ∃ data' strm', mimeLoop bnd b1 b2 b3 data strm = .ok (data', strm') ∧
      strm'.size ≤ strm.size := by
  induction hn : strm.size using Nat.strong_induction_on generalizing b1 b2 b3 data strm with
  | _ n ih =>
    subst hn
    rw [mimeLoop]
    split
    · exact ⟨data, strm, rfl, le_rfl⟩
    · rename_i heof
      have hget := strm.get_size_lt heof
      simp only []
      split
      · rename_i hmatch
        obtain ⟨rfl, rfl, rfl, hc⟩ := hmatch
        have hread := strm.get.2.read_size bnd.length
        rw [if_neg (by have := h.three rfl rfl rfl; omega)]
        split
        · have h1 := (strm.get.2.read bnd.length).2.get_size
          have h2 := (strm.get.2.read bnd.length).2.get.2.get_size
          exact ⟨_, _, rfl, by omega⟩
        · have hw : Windowed LF '-'.toUInt8 strm.get.1 (data.take (data.length - 3)) := by
            rw [hc]
            exact ⟨fun h => absurd h (by decide), fun h => absurd h (by decide),
              fun h => absurd h (by decide)⟩
          obtain ⟨data', strm', heq, hsize⟩ := ih _ (hread.trans_lt hget) _ hw rfl
          exact ⟨data', strm', heq, by omega⟩
      · obtain ⟨data', strm', heq, hsize⟩ := ih _ hget _ (h.push strm.get.1) rfl
        exact ⟨data', strm', heq, by omega⟩

theorem parseMimeData_ok (req : HTTPServerRequest) (strm : IStream)
    (fld fileName contentType bnd : Str) :
    ∃ req' strm', parseMimeData req strm fld fileName contentType bnd = .ok (req', strm') ∧
      strm'.size ≤ strm.size := by
  obtain ⟨data, strm', h, hsize⟩ :=
    @mimeLoop_ok bnd 0 0 0 [] strm
      ⟨by decide, by decide, by decide⟩
  unfold parseMimeData
  rw [h]
  simp only []
  split
  · exact ⟨_, _, rfl, hsize⟩
  · split <;> exact ⟨_, _, rfl, hsize⟩

theorem addHeader_ok (part : Part) (s : Str) : ∃ part', part.addHeader s = .ok part' := by
  unfold Part.addHeader
  split
  · exact ⟨_, rfl⟩
  · simp only []
    split
    · split <;> exact ⟨_, rfl⟩
    · simp only [compareAt, not_lt_zero, if_false, List.drop_zero]
      split <;> first
        | exact ⟨_, rfl⟩
        | contradiction

/-- The headers of a part are read without an exception.  If they say anything, something was
read. -/
theorem partHeaders_ok (strm : IStream) (part : Part) :
    ∃ part' strm', partHeaders strm part = .ok (part', strm') ∧
      strm'.size ≤ strm.size ∧ (part' ≠ part → strm'.size < strm.size) := by
  induction hn : strm.size using Nat.strong_induction_on generalizing strm part with
  | _ n ih =>
    subst hn
    rw [partHeaders]
    split
    · exact ⟨_, _, rfl, getNextLineLoop_size 1000 [] strm, fun h => absurd rfl h⟩
    · rename_i hline
      have hlt := getNextLine_size_lt strm 1000 hline
      obtain ⟨part₁, h₁⟩ := addHeader_ok part (getNextLine strm).1
      rw [h₁]
      obtain ⟨part', strm', heq, hle, -⟩ := ih _ hlt (getNextLine strm).2 part₁ rfl
      exact ⟨part', strm', heq, by omega, fun _ => by omega⟩

/-- The loop over the parts of `parse_multipart_data`. -/
def multipartLoop (bnd : Str) (req : HTTPServerRequest) (strm : IStream) :
    Except Exception HTTPServerRequest :=
  match _h : partHeaders strm {} with
  | .error e => .error e
  | .ok (part, strm₁) =>
    if _hf : part.formField = [] then .ok req
    else
      match _h' : parseMimeData req strm₁ part.formField part.fileName part.contentType bnd with
      | .error e => .error e
      | .ok (req₂, strm₂) => multipartLoop bnd req₂ strm₂
termination_by strm.size
decreasing_by
  obtain ⟨part', strm', heq, -, hlt⟩ := partHeaders_ok strm {}
  obtain ⟨rfl, rfl⟩ : part' = part ∧ strm' = strm₁ := by simpa [heq] using _h
  obtain ⟨req', strm'', heq', hle⟩ :=
    parseMimeData_ok req strm' part'.formField part'.fileName part'.contentType bnd
  obtain ⟨-, rfl⟩ : req' = req₂ ∧ strm'' = strm₂ := by simpa [heq'] using _h'
  have hne : part' ≠ {} := by
    rintro rfl
    exact _hf rfl
  exact hle.trans_lt (hlt hne)

theorem multipartLoop_ok (bnd : Str) (req : HTTPServerRequest) (strm : IStream) :
    ∃ req', multipartLoop bnd req strm = .ok req' := by
  induction hn : strm.size using Nat.strong_induction_on generalizing req strm with
  | _ n ih =>
    subst hn
    obtain ⟨part, strm₁, hpart, -, hlt⟩ := partHeaders_ok strm {}
    rw [multipartLoop]
    split
    · rename_i h
      simp [hpart] at h
    · rename_i part' strm' h
      obtain ⟨rfl, rfl⟩ : part = part' ∧ strm₁ = strm' := by simpa [hpart] using h
      split
      · exact ⟨req, rfl⟩
      · rename_i hf
        obtain ⟨req₂, strm₂, hmime, hle⟩ :=
          parseMimeData_ok req strm₁ part.formField part.fileName part.contentType bnd
        have hne : part ≠ {} := by
          rintro rfl
          exact hf rfl
        split
        · rename_i h
          simp [hmime] at h
        · rename_i req' strm' h
          obtain ⟨rfl, rfl⟩ : req₂ = req' ∧ strm₂ = strm' := by simpa [hmime] using h
          exact ih _ (hle.trans_lt (hlt hne)) req₂ strm₂ rfl

/-- `RequestParser::parse_multipart_data`; its result is not looked at. -/
def parseMultipartData (req : HTTPServerRequest) (strm : IStream) (bnd : Str) :
    Except Exception HTTPServerRequest :=
  let (s, strm) := getNextLine strm
  if s = [] then .ok req
  else
    match compareAt s 2 bnd.length bnd with
    | .error e => .error e
    | .ok false => .ok req
    | .ok true => multipartLoop bnd req strm

/-! ## Form data -/

/-- `multipart/form-data;\s*boundary=(.*)` -/
def boundaryRegex : Regex.Expr UInt8 :=
  .seq (Regex.word (str "multipart/form-data;")) <| .seq (.star isspace true) <|
    .seq (Regex.word (str "boundary=")) (.group 1 (.star (fun c => c != LF && c != CR) true))

/-- `std::regex_match(content_type, subm, brx)` and `subm[1]`. -/
def boundary (contentType : Str) : Option Str :=
  (Regex.fullMatch boundaryRegex contentType).map fun subm => (subm 1).getD []

/-- The callback for one field of a form. -/
def addFormField (s : Str) (POST : Dictionary) : Except Exception (Bool × Dictionary) :=
  match find s '='.toUInt8 with
  | none => .ok (false, POST)
  | some pos =>
    match substr s 0 (some pos), substr s (pos + 1) none with
    | .ok key, .ok val => .ok (true, POST.insert (urlEncode (cstr key)) (urlEncode (cstr val)))
    | .error e, _ => .error e
    | _, .error e => .error e

/-- `tokenize` over the fields of a form: it ends at one without a `=`. -/
def formFields : List Str → Dictionary → Except Exception Dictionary
  | [], POST => .ok POST
  | s :: rest, POST =>
    match addFormField s POST with
    | .ok (true, POST) => formFields rest POST
    | .ok (false, POST) => .ok POST
    | .error e => .error e

/-- `std::string::max_size()`. -/
def maxSize : Nat := 2 ^ 63 - 1

/-- `session.content_.resize(n)` and `strm.read(&session.content_[0], n)`. -/
def readContent (n : Nat) (strm : IStream) : Except Exception Str :=
  if maxSize < n then .error (.lengthError (str "basic_string::_M_replace_aux"))
  else .ok (strm.read n).1

/-- The three kinds of form data.  A negative length becomes a huge `size_t`, and a negative limit
again where it is passed as an `int`. -/
def readForm (req : HTTPServerRequest) (strm : IStream) (n : Int) (contentType : Str) : Decoded :=
  let contentLength := (n % 2 ^ 64).toNat
  if contentType = [] ∧ 0 < contentLength then (.ok false, req)
  else if startsWith contentType (str "application/x-www-form-urlencoded") then
    let s := (getNextLine strm n.toNat).1
    match formFields (pieces '&'.toUInt8 s []) req.POST with
    | .ok POST => (.ok true, { req with POST := POST })
    | .error e => (.error (.raised e), req)
  else match boundary contentType with
    | some bnd =>
      match parseMultipartData req strm bnd with
      | .ok req => (.ok true, req)
      | .error e => (.error (.raised e), req)
    | none =>
      if contentLength = 0 then (.ok true, req)
      else match readContent contentLength strm with
        | .ok content => (.ok true, { req with content := content, contentType := contentType })
        | .error e => (.error (.raised e), req)

/-- `RequestParser::parse_form_data`. -/
def parseFormData (req : HTTPServerRequest) (strm : IStream) : Decoded :=
  match stoi (req.getServerAttribute (str "Content-Length") (str "0")) with
  | .error e => (.error (.raised e), req)
  | .ok n => readForm req strm n (req.getServerAttribute (str "Content-Type"))

/-! ## The message -/

/-- The loop over `headers_` at the start of `decode_message`. -/
def emplaceHeaders (headers SERVER : Dictionary) : Dictionary :=
  headers.toList.foldl (fun s hdr => s.insertIfNew hdr.1 hdr.2) SERVER

/-- The request before the URL is looked at. -/
def startRequest (rp : RequestParser) (req : HTTPServerRequest) : HTTPServerRequest :=
  let method := Http.methodString rp.parser.method
  { req with
    SERVER := (emplaceHeaders rp.fields.headers req.SERVER).insert (str "REQUEST_METHOD") method
    method := method
    protocol := rp.fields.protocol
    content := rp.fields.body }

/-- **`RequestParser::decode_message`.** -/
def decodeMessage (rp : RequestParser) (req : HTTPServerRequest) : Decoded :=
  Decoded.andThen (parseUrl (startRequest rp req) rp.fields.url) fun req =>
    Decoded.andThen (parseCookies req) fun req =>
      if req.method = str "POST" then parseFormData req ⟨rp.fields.body, false⟩
      else (.ok true, req)

end RequestParser

end Wsrv
