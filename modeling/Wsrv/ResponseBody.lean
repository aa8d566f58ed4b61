import Wsrv.RequestDecode
import Wsrv.ResponseHead

/-!
# The body of a response

The operations of `HTTPServerResponse` that give a response its content.  They
read files, the clock and the canonical forms of paths from an `HostEnvironment`,
which may be another one for every operation.

Each operation leaves `Content-Length` in agreement with the content: it sets
both, or it touches neither (`length_agrees`).
-/

namespace Wsrv

/-! ## The environment -/

/-- The file system, the clock and the compressor.  A file may vanish and a path may have no
canonical form. -/
structure HostEnvironment where
  /-- `fs::exists(p) && fs::is_regular_file(p)`. -/
  fileExists : Str → Except Exception Bool
  /-- The seconds of `fs::last_write_time(p)`, which count from the epoch of the file clock. -/
  fileLastWriteTime : Str → Except Exception Int
  readFileToString : Str → Except Exception Str
  /-- The components of `fs::weakly_canonical(p)`; `none` where it throws. -/
  weaklyCanonical : Str → Option (List Str)
  /-- The components of `fs::canonical(p, ec)`; `none` where it sets the error code. -/
  canonical : Str → Option (List Str)
  /-- `fs::is_regular_file(p)`; `none` where it throws. -/
  isRegularFile : List Str → Option Bool
  /-- `time(nullptr)`. -/
  time : Int
  /-- What an `ozstream` writes. -/
  gzip : Str → Str
  /-- `well_known_mime_types`. -/
  wellKnownMimeTypes : Dictionary

/-! ## Texts -/

/-- `s.find_last_of(c)`. -/
def findLast (s : Str) (c : UInt8) : Option Nat :=
  if c ∈ s then some (s.length - 1 - s.reverse.idxOf c) else none

/-- `get_file_mime`. -/
def getFileMime (env : HostEnvironment) (mime p : Str) : Str :=
  if mime ≠ [] then mime
  else
    let extension := match findLast p '.'.toUInt8 with
      | none => []
      | some pos =>
        if p.drop pos = str ".gz" then
          match findLast (p.take pos) '.'.toUInt8 with
          | none => p.drop pos
          | some epos => (p.take pos).drop epos
        else p.drop pos
    if extension = [] then str "application/octet-stream"
    else env.wellKnownMimeTypes[extension]?.getD (str "application/octet-stream")

namespace HTTPServerResponse

/-! ## Operations -/

def getHeaderAttribute (r : HTTPServerResponse) (key : Str) (dflt : Str := []) : Str :=
  r.headers.getD key dflt

def setStatus (r : HTTPServerResponse) (st : Status) : HTTPServerResponse :=
  { r with status := st.code }

/-- The test for the magic bytes, on characters with a sign. -/
def looksGzipped (bytes : Str) : Bool :=
  decide (2 < bytes.length) && decide ((bytes.getD 0 0).toInt8.toInt = 0x1f) &&
    decide ((bytes.getD 1 0).toInt8.toInt = 0x8b)

/-- The header for the encoding of a file. -/
def addEncoding (r : HTTPServerResponse) (bytes encoding : Str) : HTTPServerResponse :=
  if encoding = [] then
    if looksGzipped bytes then r.addHeader (str "Content-Encoding") (str "gzip") else r
  else r.addHeader (str "Content-Encoding") encoding

/-- `HTTPServerResponse::encodeFileData`. -/
def encodeFileData (r : HTTPServerResponse) (env : HostEnvironment) (bytes encoding mime : Str)
    (modTime : Int) : HTTPServerResponse :=
  let r := r.setStatus .ok
  if bytes = [] then r
  else
    let r := r.addHeader (str "Content-Length") (toString bytes.length)
    let r := r.addEncoding bytes encoding
    let r := if mime ≠ [] then r.addHeader (str "Content-Type") mime else r
    let r := r.addHeader (str "Access-Control-Allow-Origin") (str "*")
    let r := r.addHeader (str "Date") (gmtTimeString env.time)
    let r := r.addHeader (str "Last-Modified") (gmtTimeString modTime)
    let r := r.addHeader (str "Etag") (toStringInt modTime)
    { r with content := bytes }

/-- `HTTPServerResponse::encodeFile`; an exception leaves the response as it is. -/
def encodeFile (r : HTTPServerResponse) (env : HostEnvironment) (filePath : Str)
    (encoding mime : Str := []) : Except Exception HTTPServerResponse := do
  if !(← env.fileExists filePath) then return r.setStatus .notFound
  else
    let modTime ← env.fileLastWriteTime filePath
    let bytes ← env.readFileToString filePath
    let omime := if mime = [] then getFileMime env mime filePath else mime
    return r.encodeFileData env bytes encoding omime modTime

/-- `HTTPServerResponse::file`. -/
def file (env : HostEnvironment) (pathName : Str) (encoding mime : Str := []) :
    Except Exception HTTPServerResponse :=
  init.encodeFile env pathName encoding mime

def write (r : HTTPServerResponse) (content : Str) (mime : Str := str "text/html") :
    HTTPServerResponse :=
  (({ r with content := content }.setContentType mime).setContentLength).setStatus .ok

def json (r : HTTPServerResponse) (obj : Str) : HTTPServerResponse :=
  r.write obj (str "application/json")

def html (r : HTTPServerResponse) (html : Str) : HTTPServerResponse := r.write html (str "text/html")

def append (r : HTTPServerResponse) (content : Str) : HTTPServerResponse :=
  { r with content := r.content ++ content }.setContentLength

def compress (r : HTTPServerResponse) (env : HostEnvironment) : HTTPServerResponse :=
  ({ r with content := env.gzip r.content }.addHeader (str "Content-Encoding")
    (str "gzip")).setContentLength

end HTTPServerResponse

/-! ## Paths -/

/-- `lhs / rhs` of two `fs::path`. -/
def joinPath (lhs rhs : Str) : Str :=
  if rhs.head? = some '/'.toUInt8 then rhs
  else if lhs ≠ [] ∧ lhs.getLast? ≠ some '/'.toUInt8 then lhs ++ '/'.toUInt8 :: rhs
  else lhs ++ rhs

/-- `std::mismatch(first1, last1, first2)`: what is left of the two ranges, and `none` where the
second one is read behind its end. -/
def mismatch : List Str → List Str → Option (List Str × List Str)
  | [], target => some ([], target)
  | _ :: _, [] => none
  | r :: root, t :: target =>
    if r = t then mismatch root target else some (r :: root, t :: target)

/-- `is_path_safe`; the error code of `fs::canonical` is not looked at. -/
def isPathSafe (env : HostEnvironment) (rootDir userRequestPath : Str) : Except Fault Bool :=
  match env.weaklyCanonical (joinPath rootDir userRequestPath) with
  | none => .ok false
  | some targetPath =>
    let canonicalRoot := (env.canonical rootDir).getD []
    match mismatch canonicalRoot targetPath with
    | none => .error .undefined
    | some (rootEnd, _) => .ok (decide (rootEnd = []) && (env.isRegularFile targetPath).getD false)

/-- `HTTPServerResponse::serveStaticFile`. -/
def HTTPServerResponse.serveStaticFile (r : HTTPServerResponse) (env : HostEnvironment)
    (folder path : Str) : Except Fault (Bool × HTTPServerResponse) :=
  let p := folder ++ '/'.toUInt8 :: path
  match isPathSafe env folder path with
  | .error f => .error f
  | .ok false => .ok (false, r)
  | .ok true =>
    match env.fileExists p with
    | .error e => .error (.raised e)
    | .ok false => .ok (false, r)
    | .ok true =>
      match r.encodeFile env p with
      | .error e => .error (.raised e)
      | .ok r => .ok (true, r)

namespace ResponseBody

open HTTPServerResponse

/-! ## Sequences of operations -/

/-- The operations that build a response, with their arguments. -/
inductive Op
  | stockReply (status : Status)
  | write (content mime : Str)
  | html (text : Str)
  | json (obj : Str)
  | append (content : Str)
  | compress
  | encodeFileData (bytes encoding mime : Str) (modTime : Int)
  | encodeFile (filePath encoding mime : Str)
  | serveStaticFile (folder path : Str)
  | redirect (url : Str) (code : Status)
  | setStatus (st : Status)
  | setContentType (mime : Str)
  | setCookie (name value : Str) (expires : Int) (path domain : Str) (secure httpOnly : Bool)
      (sameSite : Str)

/-- What an operation makes of a response. -/
def Op.run (env : HostEnvironment) (r : HTTPServerResponse) : Op → Except Fault HTTPServerResponse
  | stockReply status => .ok (HTTPServerResponse.stockReply status)
  | write content mime => .ok (r.write content mime)
  | html text => .ok (r.html text)
  | json obj => .ok (r.json obj)
  | append content => .ok (r.append content)
  | compress => .ok (r.compress env)
  | encodeFileData bytes encoding mime modTime =>
    .ok (r.encodeFileData env bytes encoding mime modTime)
  | encodeFile filePath encoding mime => (r.encodeFile env filePath encoding mime).mapError .raised
  | serveStaticFile folder path => (r.serveStaticFile env folder path).map Prod.snd
  | redirect url code => .ok (r.redirect url code)
  | setStatus st => .ok (r.setStatus st)
  | setContentType mime => .ok (r.setContentType mime)
  | setCookie name value expires path domain secure httpOnly sameSite =>
    .ok (r.setCookie name value expires path domain secure httpOnly sameSite)

/-- The response behind an operation.  An exception leaves it as it is, and it may be caught;
there is none behind undefined behaviour. -/
def Op.after (env : HostEnvironment) (r : HTTPServerResponse) (op : Op) : Option HTTPServerResponse :=
  match op.run env r with
  | .ok r' => some r'
  | .error (.raised _) => some r
  | .error .undefined => none

/-- The response behind some operations, each with its environment. -/
def runOps : List (HostEnvironment × Op) → HTTPServerResponse → Option HTTPServerResponse
  | [], r => some r
  | (env, op) :: ops, r => (op.after env r).bind (runOps ops)

/-! ## The length of the content -/

/-- `Content-Length` is there when there is content, and it is the size of the content. -/
structure Agrees (r : HTTPServerResponse) : Prop where
  present : r.content ≠ [] → ∃ v, r.headers[str "Content-Length"]? = some v
  size : ∀ v, r.headers[str "Content-Length"]? = some v → v = toString r.content.length

/-- The header is the size of the content. -/
theorem Agrees.of_length {r : HTTPServerResponse}
    (h : r.headers[str "Content-Length"]? = some (toString r.content.length)) : Agrees r :=
  ⟨fun _ => ⟨_, h⟩, fun _ hv => Option.some.inj (hv.symm.trans h)⟩

/-- Neither the content nor the header is touched. -/
theorem Agrees.of_same {r r' : HTTPServerResponse} (h : Agrees r) (hcontent : r'.content = r.content)
    (hlength : r'.headers[str "Content-Length"]? = r.headers[str "Content-Length"]?) : Agrees r' := by
  constructor
  · rw [hcontent, hlength]
    exact h.present
  · rw [hcontent, hlength]
    exact h.size

theorem agrees_init : Agrees .init := by
  refine ⟨fun h => absurd rfl h, fun _ hv => ?_⟩
  simp [init] at hv

/-- A header leaves the others alone. -/
theorem addHeader_ne (r : HTTPServerResponse) {key key' : Str} (val : Str) (h : key ≠ key') :
    (r.addHeader key val).headers[key']? = r.headers[key']? := by
  rw [addHeader, Std.ExtTreeMap.getElem?_insert, if_neg]
  exact fun hc => h (Std.LawfulEqCmp.eq_of_compare hc)

theorem Agrees.addHeader {r : HTTPServerResponse} (h : Agrees r) {key : Str} (val : Str)
    (hkey : key ≠ str "Content-Length") : Agrees (r.addHeader key val) :=
  h.of_same rfl (addHeader_ne r val hkey)

/-- `setContentLength` makes them agree, whatever they were. -/
theorem agrees_setContentLength (r : HTTPServerResponse) : Agrees r.setContentLength :=
  .of_length Std.ExtTreeMap.getElem?_insert_self

theorem Agrees.setStatus {r : HTTPServerResponse} (h : Agrees r) (st : Status) :
    Agrees (r.setStatus st) :=
  ⟨h.present, h.size⟩

theorem agrees_write (r : HTTPServerResponse) (content mime : Str) : Agrees (r.write content mime) :=
  (agrees_setContentLength _).setStatus .ok

theorem addEncoding_length (r : HTTPServerResponse) (bytes encoding : Str) :
    (r.addEncoding bytes encoding).headers[str "Content-Length"]? =
      r.headers[str "Content-Length"]? := by
  unfold addEncoding
  split_ifs
  · exact addHeader_ne r _ (by decide)
  · rfl
  · exact addHeader_ne r _ (by decide)

/-- **A file that is not empty brings its length along, and an empty one changes nothing.** -/
theorem Agrees.encodeFileData {r : HTTPServerResponse} (h : Agrees r) (env : HostEnvironment)
    (bytes encoding mime : Str) (modTime : Int) :
    Agrees (r.encodeFileData env bytes encoding mime modTime) := by
  unfold HTTPServerResponse.encodeFileData
  split
  · exact h.of_same rfl rfl
  · apply Agrees.of_length
    have htype (r : HTTPServerResponse) :
        (if mime ≠ [] then r.addHeader (str "Content-Type") mime else r).headers[str "Content-Length"]?
          = r.headers[str "Content-Length"]? := by
      split
      · exact addHeader_ne r _ (by decide)
      · rfl
    show (HTTPServerResponse.addHeader _ (str "Etag") _).headers[str "Content-Length"]? = _
    rw [addHeader_ne _ _ (by decide), addHeader_ne _ _ (by decide),
      addHeader_ne _ _ (by decide), addHeader_ne _ _ (by decide), htype, addEncoding_length]
    exact Std.ExtTreeMap.getElem?_insert_self

theorem Agrees.encodeFile {r r' : HTTPServerResponse} (h : Agrees r) {env : HostEnvironment}
    {filePath encoding mime : Str} (hrun : r.encodeFile env filePath encoding mime = .ok r') :
    Agrees r' := by
  unfold HTTPServerResponse.encodeFile at hrun
  rcases hexists : env.fileExists filePath with e | _ | _
  · rw [hexists] at hrun
    cases hrun
  · rw [hexists] at hrun
    obtain rfl := Except.ok.inj hrun
    exact h.setStatus .notFound
  · rw [hexists] at hrun
    rcases htime : env.fileLastWriteTime filePath with e | modTime
    · rw [htime] at hrun
      cases hrun
    rcases hread : env.readFileToString filePath with e | bytes
    · rw [htime, hread] at hrun
      cases hrun
    · rw [htime, hread] at hrun
      obtain rfl := Except.ok.inj hrun
      exact h.encodeFileData env _ _ _ _

theorem Agrees.serveStaticFile {r r' : HTTPServerResponse} (h : Agrees r) {env : HostEnvironment}
    {folder path : Str} {served : Bool}
    (hrun : r.serveStaticFile env folder path = .ok (served, r')) : Agrees r' := by
  simp only [HTTPServerResponse.serveStaticFile] at hrun
  rcases hsafe : isPathSafe env folder path with f | _ | _
  · simp [hsafe] at hrun
  · simp only [hsafe] at hrun
    obtain rfl := (Prod.mk.inj (Except.ok.inj hrun)).2
    exact h
  · rcases hexists : env.fileExists (folder ++ '/'.toUInt8 :: path) with e | _ | _
    · simp [hsafe, hexists] at hrun
    · simp only [hsafe, hexists] at hrun
      obtain rfl := (Prod.mk.inj (Except.ok.inj hrun)).2
      exact h
    · rcases hfile : r.encodeFile env (folder ++ '/'.toUInt8 :: path) with e | r''
      · simp [hsafe, hexists, hfile] at hrun
      · simp only [hsafe, hexists, hfile] at hrun
        obtain rfl := (Prod.mk.inj (Except.ok.inj hrun)).2
        exact h.encodeFile hfile

/-- **One operation.** -/
theorem Agrees.run {r r' : HTTPServerResponse} (h : Agrees r) {env : HostEnvironment} (op : Op)
    (hrun : op.run env r = .ok r') : Agrees r' := by
  cases op with
  | stockReply status =>
    obtain rfl := Except.ok.inj hrun
    exact agrees_setContentLength _
  | write content mime =>
    obtain rfl := Except.ok.inj hrun
    exact agrees_write _ _ _
  | html text =>
    obtain rfl := Except.ok.inj hrun
    exact agrees_write _ _ _
  | json obj =>
    obtain rfl := Except.ok.inj hrun
    exact agrees_write _ _ _
  | append content =>
    obtain rfl := Except.ok.inj hrun
    exact agrees_setContentLength _
  | compress =>
    obtain rfl := Except.ok.inj hrun
    exact agrees_setContentLength _
  | encodeFileData bytes encoding mime modTime =>
    obtain rfl := Except.ok.inj hrun
    exact h.encodeFileData env _ _ _ _
  | encodeFile filePath encoding mime =>
    rcases hfile : r.encodeFile env filePath encoding mime with e | r''
    · simp [Op.run, hfile, Except.mapError] at hrun
    · obtain rfl : r'' = r' := by simpa [Op.run, hfile, Except.mapError] using hrun
      exact h.encodeFile hfile
  | serveStaticFile folder path =>
    rcases hserve : r.serveStaticFile env folder path with e | ⟨served, r''⟩
    · simp [Op.run, hserve, Except.map] at hrun
    · obtain rfl : r'' = r' := by simpa [Op.run, hserve, Except.map] using hrun
      exact h.serveStaticFile hserve
  | redirect url code =>
    obtain rfl := Except.ok.inj hrun
    exact (h.setStatus code).addHeader _ (by decide)
  | setStatus st =>
    obtain rfl := Except.ok.inj hrun
    exact h.setStatus st
  | setContentType mime =>
    obtain rfl := Except.ok.inj hrun
    exact h.addHeader _ (by decide)
  | setCookie name value expires path domain secure httpOnly sameSite =>
    obtain rfl := Except.ok.inj hrun
    exact h.addHeader _ (by decide)

theorem Agrees.runOps {ops : List (HostEnvironment × Op)} {r r' : HTTPServerResponse} (h : Agrees r)
    (hrun : runOps ops r = some r') : Agrees r' := by
  induction ops generalizing r with
  | nil =>
    obtain rfl := Option.some.inj hrun
    exact h
  | cons step ops ih =>
    obtain ⟨env, op⟩ := step
    obtain ⟨r₁, hop, hrest⟩ := Option.bind_eq_some_iff.mp hrun
    refine ih ?_ hrest
    unfold Op.after at hop
    rcases hstep : op.run env r with (e | _) | r₂
    · rw [hstep] at hop
      obtain rfl := Option.some.inj hop
      exact h
    · rw [hstep] at hop
      cases hop
    · rw [hstep] at hop
      obtain rfl := Option.some.inj hop
      exact h.run op hstep

/-- **Content-Length agrees with the body** behind every sequence of operations. -/
theorem length_agrees (ops : List (HostEnvironment × Op)) (r : HTTPServerResponse)
    (h : runOps ops .init = some r) : Agrees r :=
  agrees_init.runOps h

/-- An environment without files. -/
def emptyEnvironment : HostEnvironment where
  fileExists _ := .ok false
  fileLastWriteTime _ := .error (.runtimeError (str "filesystem error"))
  readFileToString _ := .ok []
  weaklyCanonical _ := none
  canonical _ := none
  isRegularFile _ := some false
  time := 784111777
  gzip s := s
  wellKnownMimeTypes := ∅

/-- A response that is written, then given an empty file, and appended to. -/
theorem sampleOps_agree :
    Agrees (((HTTPServerResponse.init.write (str "ab")).encodeFileData emptyEnvironment [] [] [] 0).append
      (str "c")) :=
  length_agrees [(emptyEnvironment, .write (str "ab") (str "text/html")),
    (emptyEnvironment, .encodeFileData [] [] [] 0), (emptyEnvironment, .append (str "c"))] _ rfl

end ResponseBody

end Wsrv
