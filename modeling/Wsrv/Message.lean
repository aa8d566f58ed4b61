import Wsrv.Text

/-!
# Requests and responses

The records that travel through the server: `HTTPServerRequest` with its
dictionaries and the data storage of the middlewares, and
`HTTPServerResponse` with its headers, content and status.
-/

namespace Wsrv

/-! ## Data storage of the middlewares -/

/-- A model of an authenticated user: the interface has one method. -/
structure IAuthenticatedUser where
  getUniqueId : Str
  deriving DecidableEq, Repr

structure CSRFMiddlewareData where
  token : Str
  deriving DecidableEq, Repr

structure LocaleResolverData where
  locale : Str
  deriving DecidableEq, Repr

/-- The `std::type_index` keys in use. -/
inductive TypeIndex
  | authenticatedUser
  | csrfMiddlewareData
  | localeResolverData
  deriving DecidableEq, Repr

/-- The type behind a key.  `storage_` holds a `shared_ptr` to it in a `std::any`, and
`any_cast` never fails because the key names the type that was stored. -/
def TypeIndex.Object : TypeIndex → Type
  | .authenticatedUser => IAuthenticatedUser
  | .csrfMiddlewareData => CSRFMiddlewareData
  | .localeResolverData => LocaleResolverData

structure MiddlwareDataStorage where
  storage : (t : TypeIndex) → Option t.Object

namespace MiddlwareDataStorage

def empty : MiddlwareDataStorage := ⟨fun _ => none⟩

/-- A null pointer is ignored. -/
def set (s : MiddlwareDataStorage) (t : TypeIndex) (ptr : Option t.Object) :
    MiddlwareDataStorage :=
  match ptr with
  | none => s
  | some obj => ⟨Function.update s.storage t (some obj)⟩

/-- `none` is the null pointer that is returned when the key is missing. -/
def get (s : MiddlwareDataStorage) (t : TypeIndex) : Option t.Object := s.storage t

def remove (s : MiddlwareDataStorage) (t : TypeIndex) : MiddlwareDataStorage :=
  ⟨Function.update s.storage t none⟩

@[simp] theorem get_set_some (s : MiddlwareDataStorage) (t : TypeIndex) (obj : t.Object) :
    (s.set t (some obj)).get t = some obj := by
  simp [set, get]

end MiddlwareDataStorage

/-! ## Requests -/

structure UploadedFile where
  id : Str
  name : Str
  mime : Str
  size : Nat
  data : Str
  deriving DecidableEq, Repr

structure HTTPServerRequest where
  SERVER : Dictionary
  GET : Dictionary
  POST : Dictionary
  COOKIE : Dictionary
  ROUTE : Dictionary
  FILE : List UploadedFile
  mwData : MiddlwareDataStorage
  content : Str
  contentType : Str
  method : Str
  path : Str
  query : Str
  protocol : Str

namespace HTTPServerRequest

/-- The default constructor. -/
def init : HTTPServerRequest :=
  { SERVER := ∅, GET := ∅, POST := ∅, COOKIE := ∅, ROUTE := ∅, FILE := [],
    mwData := .empty, content := [], contentType := [], method := [], path := [],
    query := [], protocol := [] }

def getServerAttribute (req : HTTPServerRequest) (key : Str) (dflt : Str := []) : Str :=
  req.SERVER.getD key dflt

/-- `HTTPServerRequest::supportsGzip`. -/
def supportsGzip (req : HTTPServerRequest) : Bool :=
  let enc := req.getServerAttribute (str "Accept-Encoding")
  decide (enc ≠ [] ∧ str "gzip" <:+: enc)

def getQueryAttribute (req : HTTPServerRequest) (key : Str) (dflt : Str := []) : Str :=
  req.GET.getD key dflt

def getPostAttribute (req : HTTPServerRequest) (key : Str) (dflt : Str := []) : Str :=
  req.POST.getD key dflt

def getRouteAttribute (req : HTTPServerRequest) (key : Str) (dflt : Str := []) : Str :=
  req.ROUTE.getD key dflt

def getCookie (req : HTTPServerRequest) (key : Str) (dflt : Str := []) : Str :=
  req.COOKIE.getD key dflt

end HTTPServerRequest

/-! ## Responses -/

/-- `HTTPServerResponse::Status`. -/
inductive Status
  | ok | created | accepted | noContent | multipleChoices | movedPermanently
  | movedTemporarily | notModified | badRequest | unauthorized | forbidden | notFound
  | internalServerError | notImplemented | badGateway | serviceUnavailable
  deriving DecidableEq, Repr

def Status.code : Status → Nat
  | .ok => 200
  | .created => 201
  | .accepted => 202
  | .noContent => 204
  | .multipleChoices => 300
  | .movedPermanently => 301
  | .movedTemporarily => 302
  | .notModified => 304
  | .badRequest => 400
  | .unauthorized => 401
  | .forbidden => 403
  | .notFound => 404
  | .internalServerError => 500
  | .notImplemented => 501
  | .badGateway => 502
  | .serviceUnavailable => 503

/-- `status_strings::to_buffer`: the status line; unknown codes read as 500. -/
def statusLine (status : Nat) : Str :=
  match status with
  | 200 => str "HTTP/1.0 200 OK\r\n"
  | 201 => str "HTTP/1.0 201 Created\r\n"
  | 202 => str "HTTP/1.0 202 Accepted\r\n"
  | 204 => str "HTTP/1.0 204 No Content\r\n"
  | 300 => str "HTTP/1.0 300 Multiple Choices\r\n"
  | 301 => str "HTTP/1.0 301 Moved Permanently\r\n"
  | 302 => str "HTTP/1.0 302 Moved Temporarily\r\n"
  | 304 => str "HTTP/1.0 304 Not Modified\r\n"
  | 400 => str "HTTP/1.0 400 Bad Request\r\n"
  | 401 => str "HTTP/1.0 401 Unauthorized\r\n"
  | 403 => str "HTTP/1.0 403 Forbidden\r\n"
  | 404 => str "HTTP/1.0 404 Not Found\r\n"
  | 500 => str "HTTP/1.0 500 Internal Server Error\r\n"
  | 501 => str "HTTP/1.0 501 Not Implemented\r\n"
  | 502 => str "HTTP/1.0 502 Bad Gateway\r\n"
  | 503 => str "HTTP/1.0 503 Service Unavailable\r\n"
  | _ => str "HTTP/1.0 500 Internal Server Error\r\n"

/-- A page of `stock_replies`, which differ in their title and heading only. -/
def stockPage (title heading : String) : Str :=
  str "<html><head><title>" ++ str title ++ str "</title></head><body><h1>" ++ str heading ++
    str "</h1></body></html>"

/-- `stock_replies::to_string`. -/
def stockContent : Status → Str
  | .ok => []
  | .created => stockPage "Created" "201 Created"
  | .accepted => stockPage "Accepted" "202 Accepted"
  | .noContent => stockPage "No Content" "204 Content"
  | .multipleChoices => stockPage "Multiple Choices" "300 Multiple Choices"
  | .movedPermanently => stockPage "Moved Permanently" "301 Moved Permanently"
  | .movedTemporarily => stockPage "Moved Temporarily" "302 Moved Temporarily"
  | .notModified => stockPage "Not Modified" "304 Not Modified"
  | .badRequest => stockPage "Bad Request" "400 Bad Request"
  | .unauthorized => stockPage "Unauthorized" "401 Unauthorized"
  | .forbidden => stockPage "Forbidden" "403 Forbidden"
  | .notFound => stockPage "Not Found" "404 Not Found"
  | .internalServerError => stockPage "Internal Server Error" "500 Internal Server Error"
  | .notImplemented => stockPage "Not Implemented" "501 Not Implemented"
  | .badGateway => stockPage "Bad Gateway" "502 Bad Gateway"
  | .serviceUnavailable => stockPage "Service Unavailable" "503 Service Unavailable"

structure HTTPServerResponse where
  headers : Dictionary
  content : Str
  status : Nat
  deriving DecidableEq

/-- Two decimal digits. -/
def twoDigits (n : Nat) : Str := toString (n / 10) ++ toString (n % 10)

/-- `std::to_string` of a signed number. -/
def toStringInt (n : Int) : Str :=
  if n < 0 then '-'.toUInt8 :: toString n.natAbs else toString n.toNat

/-- `gmt_time_string`: `strftime` with `"%a, %d %b %Y %H:%M:%S GMT"` of `gmtime`, for a time whose year
a `std::tm` can hold; `gmtime` fails beyond.  The year starts in March in the arithmetic, so that the
leap day is its last day. -/
def gmtTimeString (t : Int) : Str :=
  let days := t / 86400
  let secs := (t % 86400).toNat
  let z := days + 719468
  let era := z / 146097
  let doe := (z % 146097).toNat
  let yoe := (doe - doe / 1460 + doe / 36524 - doe / 146096) / 365
  let doy := doe - (365 * yoe + yoe / 4 - yoe / 100)
  let mp := (5 * doy + 2) / 153
  let day := doy - (153 * mp + 2) / 5 + 1
  let month := if mp < 10 then mp + 3 else mp - 9
  let year := yoe + era * 400 + (if month ≤ 2 then 1 else 0)
  let weekday := ["Sun", "Mon", "Tue", "Wed", "Thu", "Fri", "Sat"].getD ((days + 4) % 7).toNat ""
  let monthName := ["Jan", "Feb", "Mar", "Apr", "May", "Jun", "Jul", "Aug", "Sep", "Oct",
    "Nov", "Dec"].getD (month - 1) ""
  str weekday ++ str ", " ++ twoDigits day ++ str " " ++ str monthName ++ str " " ++
    toStringInt year ++ str " " ++ twoDigits (secs / 3600) ++ str ":" ++
    twoDigits (secs / 60 % 60) ++ str ":" ++ twoDigits (secs % 60) ++ str " GMT"

example : gmtTimeString 784111777 = str "Sun, 06 Nov 1994 08:49:37 GMT" := by decide

namespace HTTPServerResponse

/-- The default constructor. -/
def init : HTTPServerResponse := ⟨∅, [], Status.notFound.code⟩

def addHeader (r : HTTPServerResponse) (key val : Str) : HTTPServerResponse :=
  { r with headers := r.headers.insert key val }

def setContentType (r : HTTPServerResponse) (mime : Str) : HTTPServerResponse :=
  r.addHeader (str "Content-Type") mime

def setContentLength (r : HTTPServerResponse) : HTTPServerResponse :=
  r.addHeader (str "Content-Length") (toString r.content.length)

def stockReply (status : Status) : HTTPServerResponse :=
  ({ init with status := status.code, content := stockContent status }.setContentType
    (str "text/html")).setContentLength

/-- The value `setCookie` gives to the `Set-Cookie` header.  A caller may leave out
everything after the first two arguments. -/
def cookieText (name value : Str) (expires : Int := 0) (path domain : Str := [])
    (secure httpOnly : Bool := false) (sameSite : Str := str "Lax") : Str :=
  name ++ str "=" ++ value ++
    (if expires > 0 then str "; Expires=" ++ gmtTimeString expires else []) ++
    (if path ≠ [] then str "; Path=" ++ path else []) ++
    (if domain ≠ [] then str "; Domain=" ++ domain else []) ++
    (if secure then str "; Secure" else []) ++
    (if httpOnly then str "; HttpOnly" else []) ++
    (if sameSite ≠ [] then str "; SameSite=" ++ sameSite else [])

def setCookie (r : HTTPServerResponse) (name value : Str) (expires : Int := 0)
    (path domain : Str := []) (secure httpOnly : Bool := false)
    (sameSite : Str := str "Lax") : HTTPServerResponse :=
  r.addHeader (str "Set-Cookie") (cookieText name value expires path domain secure httpOnly sameSite)

/-- `now` is `std::time(nullptr)`. -/
def deleteCookie (r : HTTPServerResponse) (now : Int) (name : Str) (path domain : Str := [])
    (secure httpOnly : Bool := false) : HTTPServerResponse :=
  r.setCookie name [] (now - 3600) path domain secure httpOnly

end HTTPServerResponse

/-- `response_to_buffers`: one buffer for each piece, in the order they are sent. -/
def responseToBuffers (rep : HTTPServerResponse) (isHead : Bool) : List Str :=
  statusLine rep.status ::
    (rep.headers.toList.flatMap fun h => [h.1, str ": ", h.2, [CR, LF]]) ++
    (if isHead then [] else [[CR, LF], rep.content])

/-! ## Exceptions -/

/-- What may be thrown through the server, by the classes its `catch` clauses and its own code
tell apart.  `HttpResponseException` derives from nothing. -/
inductive Exception
  /-- `std::runtime_error` and what derives from it. -/
  | runtimeError (what : Str)
  /-- `std::invalid_argument`, a `std::logic_error`, as `stoi` raises it. -/
  | invalidArgument (what : Str)
  /-- `std::out_of_range`, a `std::logic_error`. -/
  | outOfRange (what : Str)
  /-- `std::length_error`, a `std::logic_error`. -/
  | lengthError (what : Str)
  | httpResponse (code : Status) (reason : Str)
  /-- Any other type. -/
  | other
  deriving DecidableEq

def Exception.isRuntimeError : Exception → Bool
  | .runtimeError _ => true
  | _ => false

end Wsrv
