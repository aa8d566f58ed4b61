import Wsrv.ClientRequest
import Wsrv.RequestDecode

/-!
# The URLs of the client

`URL::parse` takes a string apart and decodes the pieces of the path and of the
query; `URL::file` and `URL::str` put a string together, with or without the
encoding.  `HTTPClientImpl::execute` writes what `file()` gives.

A host that is missing, an escape that is cut short and a request without a
connection are undefined.
-/

namespace Wsrv

/-- `s.find(t)`. -/
def findText (t : Str) : Str → Option Nat
  | [] => if t = [] then some 0 else none
  | c :: s => if t.isPrefixOf (c :: s) then some 0 else (findText t s).map (· + 1)

deriving instance DecidableEq for URL

namespace URL

/-! ## Writing -/

/-- The loop of `makePathString`. -/
def pathLoop (encoded : Bool) : List Str → Bool → Str → Str
  | [], _, res => res
  | s :: segs, first, res =>
    let res := if first then res else res ++ str "/"
    let seg := if encoded then urlEncode s else s
    pathLoop encoded segs false (res ++ seg)

/-- `URL::makePathString`. -/
def makePathString (u : URL) (encoded : Bool) : Str := pathLoop encoded u.segments true []

/-- `URL::file`. -/
def file (u : URL) (encoded : Bool := false) : Str :=
  let res := u.makePathString encoded
  let query := u.makeQueryString encoded
  let res := if query = [] then res else res ++ str "?" ++ query
  if u.fragment = [] then res
  else res ++ str "#" ++ (if encoded then urlEncode u.fragment else u.fragment)

/-- `URL::str`. -/
protected def str (u : URL) (encoded : Bool := true) : Str :=
  (if u.protocol = [] then [] else u.protocol ++ Wsrv.str "://") ++ u.host ++
    (if u.port > 0 then Wsrv.str ":" ++ toString u.port.toNat else []) ++
    Wsrv.str "/" ++ u.file encoded

/-! ## Reading -/

/-- The loop of `parsePath`. -/
def parsePathLoop : List Str → List Str → Option (List Str)
  | [], segments => some segments
  | s :: tokens, segments =>
    if s = [] then parsePathLoop tokens segments
    else
      match urlDecode s with
      | some seg => parsePathLoop tokens (segments ++ [seg])
      | none => none

/-- `URL::parsePath`. -/
def parsePath (p : Str) : Option (List Str) :=
  if p = [] then some [] else parsePathLoop (split p (Wsrv.str "/")) []

/-- The loop of `parse` over the arguments; `emplace` keeps the first value of a key. -/
def parseQueryLoop : List Str → Dictionary → Option Dictionary
  | [], params => some params
  | t :: tokens, params =>
    match split t (Wsrv.str "=") with
    | [k, v] =>
      match urlDecode k, urlDecode v with
      | some k, some v => parseQueryLoop tokens (params.insertIfNew k v)
      | _, _ => none
    | _ => parseQueryLoop tokens params

/-- The path and the query of `parse`. -/
def parseFile (file : Str) : Option (List Str × Dictionary) :=
  match find file '?'.toUInt8 with
  | none => (parsePath file).map fun segments => (segments, ∅)
  | some pos =>
    match parsePath (file.take pos),
      parseQueryLoop (split (file.drop (pos + 1)) (Wsrv.str "&")) ∅ with
    | some segments, some params => some (segments, params)
    | _, _ => none

/-- The port of `parse`, when there is a second token. -/
def parsePort : List Str → Except Fault Int
  | [] => .ok (-1)
  | token :: _ =>
    match stoi token with
    | .ok port => .ok port
    | .error e => .error (.raised e)

/-- The host and the port, before the first slash. -/
def authority (rest : Str) : Str :=
  match find rest '/'.toUInt8 with
  | none => rest
  | some pos => rest.take pos

/-- `URL::parse` behind the protocol. -/
def parseRest (protocol rest : Str) : Except Fault URL :=
  match split (authority rest) (Wsrv.str ":") with
  | [] => .error .undefined
  | host :: tokens =>
    match parsePort tokens with
    | .error e => .error e
    | .ok port =>
      match find rest '/'.toUInt8 with
      | none => .ok { protocol := protocol, host := host, port := port }
      | some pos =>
        match parseFile (rest.drop (pos + 1)) with
        | none => .error .undefined
        | some (segments, params) =>
          .ok { protocol := protocol, host := host, port := port
                segments := segments, params := params }

/-- `URL::parse`. -/
def parse (url : Str) : Except Fault URL :=
  match findText (Wsrv.str "://") url with
  | none => parseRest [] url
  | some pos => parseRest (url.take pos) (url.drop (pos + 3))

end URL

/-! ## Sending -/

/-- `HTTPClientRequest::methodString`. -/
def HTTPClientRequest.methodString (req : HTTPClientRequest) : Str :=
  match req.method with
  | .GET => str "GET"
  | .POST => str "POST"
  | .DELETE => str "DELETE"
  | .PATCH => str "PATCH"
  | .PUT => str "PUT"
  | .HEAD => str "HEAD"
  | .OPTIONS => str "OPTIONS"
  | .TRACE => str "TRACE"

namespace HTTPClientImpl

/-- `writeHeaders`. -/
def writeHeaders (headers : Dictionary) : Str :=
  headers.toList.flatMap fun kv => kv.1 ++ str ":" ++ kv.2 ++ str "\r\n"

/-- What `execute` writes behind the `Host` header. -/
def requestEnd (req : HTTPClientRequest) : Str :=
  writeHeaders req.headers ++
    (if req.body = [] then []
      else str "Content-Length:" ++ toString req.body.length ++ str "\r\n" ++
        str "Content-Type: " ++ req.mime ++ str "\r\n") ++
    str "Accept: */*\r\n" ++ str "Connection: close\r\n\r\n" ++ req.body

/-- The `request_stream` of `execute`. -/
def requestStream (req : HTTPClientRequest) : Str :=
  req.methodString ++ str " /" ++ req.url.file ++ str " HTTP/1.1\r\n" ++
    str "Host: " ++ req.url.host ++ str "\r\n" ++ requestEnd req

/-- `connect` knows two protocols, and gives a null pointer for any other. -/
def connects (url : URL) : Bool := url.protocol == str "http" || url.protocol == str "https"

/-- What `execute` writes on the connection. -/
def execute (req : HTTPClientRequest) : Except Fault Str :=
  if connects req.url then .ok (requestStream req) else .error .undefined

end HTTPClientImpl

/-! ## The parts of the strings -/

namespace URL

/-- A part, as it is written. -/
def part (encoded : Bool) (s : Str) : Str := if encoded then urlEncode s else s

/-- A pair, as it is written. -/
def pair (encoded : Bool) (kv : Str × Str) : Str :=
  part encoded kv.1 ++ equal :: part encoded kv.2

theorem pathLoop_append (encoded : Bool) (segs : List Str) (res : Str) :
    pathLoop encoded segs false res =
      res ++ segs.flatMap fun s => '/'.toUInt8 :: part encoded s := by
  induction segs generalizing res with
  | nil => simp [pathLoop]
  | cons s segs ih =>
    rw [pathLoop, ih]
    simp [part, Wsrv.str]

theorem queryLoop_pairs (encoded : Bool) (kvs : List (Str × Str)) (res : Str) :
    queryLoop encoded kvs false res = res ++ kvs.flatMap fun kv => amp :: pair encoded kv := by
  induction kvs generalizing res with
  | nil => simp [queryLoop]
  | cons kv kvs ih =>
    rw [queryLoop, ih]
    simp [pair, part, amp, equal, Wsrv.str]

theorem makePathString_join (u : URL) (encoded : Bool) :
    u.makePathString encoded = ['/'.toUInt8].intercalate (u.segments.map (part encoded)) := by
  unfold makePathString
  cases u.segments with
  | nil => rfl
  | cons s segs =>
    rw [List.map_cons, intercalate_cons_flatMap, pathLoop, pathLoop_append, List.flatMap_map]
    rfl

theorem makeQueryString_join (u : URL) (encoded : Bool) :
    u.makeQueryString encoded = [amp].intercalate (u.params.toList.map (pair encoded)) := by
  unfold makeQueryString
  cases u.params.toList with
  | nil => rfl
  | cons kv kvs =>
    rw [List.map_cons, intercalate_cons_flatMap, queryLoop, queryLoop_pairs, List.flatMap_map]
    simp [pair, part, equal, Wsrv.str]

/-- What `parse` reads behind the protocol. -/
theorem parseRest_cases {protocol rest : Str} {u : URL} (h : parseRest protocol rest = .ok u) :
    u.protocol = protocol ∧ u.fragment = [] ∧
      (∃ tokens, split (authority rest) (Wsrv.str ":") = u.host :: tokens) ∧
      (u.segments = [] ∧ u.params = ∅ ∨ ∃ file, parseFile file = some (u.segments, u.params)) := by
  unfold parseRest at h
  split at h
  · cases h
  · rename_i host tokens htokens
    split at h
    · cases h
    · split at h
      · cases h
        exact ⟨rfl, rfl, ⟨tokens, htokens⟩, .inl ⟨rfl, rfl⟩⟩
      · split at h
        · cases h
        · rename_i hfile
          cases h
          exact ⟨rfl, rfl, ⟨tokens, htokens⟩, .inr ⟨_, hfile⟩⟩

theorem parse_cases {s : Str} {u : URL} (h : parse s = .ok u) :
    ∃ protocol rest, parseRest protocol rest = .ok u := by
  unfold parse at h
  split at h
  · exact ⟨_, _, h⟩
  · exact ⟨_, _, h⟩

/-- A URL that is parsed has no fragment: `parse` leaves it in the path or in the query. -/
theorem parse_fragment {s : Str} {u : URL} (h : parse s = .ok u) : u.fragment = [] := by
  obtain ⟨protocol, rest, hrest⟩ := parse_cases h
  exact (parseRest_cases hrest).2.1

end URL

end Wsrv
