import Wsrv.Connection
import Wsrv.HeaderCase
import Wsrv.ResponseDelivery

/-!
# Exchanges

The two ends of the repository together: what `HTTPClientImpl::execute` writes
is parsed and decoded by an `HttpConnection`, answered by its handler, written by
`response_to_buffers` and read back by `readResponse` (`exchange`).  Between the
ends the bytes may be cut into any reads.
-/

namespace Wsrv

open Http
open RequestParser (WireRequest Cut attributes targetTail startRequest)

namespace RequestParser

/-- `decode_message` keeps what only the head of the message decides. -/
theorem decodeMessage_kept {α : Type} (rp : RequestParser) (g : HTTPServerRequest → α)
    (hparts : ∀ req path query GET, g { req with path := path, query := query, GET := GET } = g req)
    (hcookies : ∀ req COOKIE, g { req with COOKIE := COOKIE } = g req)
    (hform : ∀ req POST FILE content contentType,
      g { req with POST := POST, FILE := FILE, content := content, contentType := contentType } = g req) :
    g (rp.decodeMessage .init).2 = g (startRequest rp .init) := by
  unfold decodeMessage
  rcases parseUrl_cases (startRequest rp .init) rp.fields.url with
    ⟨f, hu, hp⟩ | ⟨hu, hp⟩ | ⟨path, query, GET, hu, hp⟩
  · rw [hp]
    rfl
  · rw [hp]
    rfl
  · obtain ⟨b, COOKIE, hc, -⟩ := parseCookies_ok
      { startRequest rp .init with path := path, query := query, GET := GET }
    have hkept := (hcookies { startRequest rp .init with path := path, query := query, GET := GET }
      COOKIE).trans (hparts (startRequest rp .init) path query GET)
    rw [hp, Decoded.andThen, hc]
    cases b with
    | false => exact hkept
    | true =>
      simp only [Decoded.andThen]
      split
      · obtain ⟨-, POST, FILE, content, contentType, hframe⟩ := parseFormData_frame
          { startRequest rp .init with path := path, query := query, GET := GET, COOKIE := COOKIE }
          ⟨rp.fields.body, false⟩
        rw [hframe]
        exact (hform _ POST FILE content contentType).trans hkept
      · exact hkept

end RequestParser

namespace HttpConnection

/-! ## The connection -/

/-- The parser behind a request that was written line by line, with `url` for its target. -/
def arrived (r : WireRequest) (url : Str) : RequestParser where
  parser := { init .request with method := methodOf r.method }
  fields := { r.log.fields with url := url }

/-- The decoder of an environment is `decode_message`, where that returns. -/
def Decodes (env : Environment) : Prop :=
  ∀ rp req b req', RequestParser.decodeMessage rp req = (.ok b, req') → env.decode rp req = (b, req')

/-- The request as the handler gets it. -/
def addressed (env : Environment) (req : HTTPServerRequest) : HTTPServerRequest :=
  { req with SERVER := req.SERVER.insertIfNew (str "REMOTE_ADDR") env.remoteAddress }

/-- One write, and the connection is done. -/
def written (rep : HTTPServerResponse) (req : HTTPServerRequest) : Trace :=
  ⟨[responseToBuffers rep (req.method == str "HEAD")], none⟩

/-- What becomes of a message that was decoded: the answer of the handler, a page for an exception
that is a `std::runtime_error`, or for a request that is not valid. -/
def answered (env : Environment) (valid : Bool) (req : HTTPServerRequest) : Trace :=
  if valid then
    match env.handler (addressed env req) .init with
    | (.ok (), req, rep) => written rep req
    | (.error e, req, _) =>
      if e.isRuntimeError then written (.stockReply .internalServerError) req else ⟨[], some e⟩
  else written (.stockReply .badRequest) req

/-- What `complete` starts, and no read. -/
def ofComplete : Except Exception (Started × HttpConnection) → Trace
  | .error e => ⟨[], some e⟩
  | .ok (.write buffers, _) => ⟨[buffers], none⟩
  | .ok (_, _) => ⟨[], none⟩

/-- The reads up to the one that completes the message move the parser only. -/
theorem serve_feed (env : Environment) (reads : List Str) {c : HttpConnection} {rp : RequestParser}
    (h : c.requestParser.feed reads = (.ok, rp)) :
    c.serve env (reads.map .bytes) = ofComplete (complete env { c with requestParser := rp }) := by
  induction reads generalizing c with
  | nil => cases h
  | cons data reads ih =>
    rw [List.map_cons, serve, onRead]
    rw [RequestParser.feed] at h
    rcases hp : c.requestParser.parse data with ⟨_ | _ | _, rp'⟩
    · rw [hp] at h
      cases h
      simp only
      rcases hc : complete env { c with requestParser := rp } with e | ⟨_ | buffers | _ | _, c'⟩
      · rfl
      · exact absurd (complete_started hc) (by simp)
      · rfl
      · rfl
      · rfl
    · rw [hp] at h
      cases h
    · rw [hp] at h
      exact ih (c := { c with requestParser := rp' }) h

/-- While the parser waits, nothing is started but reads. -/
theorem serve_waits (env : Environment) (reads : List Str) {c : HttpConnection}
    (h : (c.requestParser.feed reads).1 = .indeterminate) : c.serve env (reads.map .bytes) = ⟨[], none⟩ := by
  induction reads generalizing c with
  | nil => rfl
  | cons data reads ih =>
    rw [List.map_cons, serve, onRead]
    rw [RequestParser.feed] at h
    rcases hp : c.requestParser.parse data with ⟨_ | _ | _, rp⟩
    · rw [hp] at h
      cases h
    · rw [hp] at h
      cases h
    · rw [hp] at h
      exact ih (c := { c with requestParser := rp }) h

theorem complete_answered {env : Environment} {rp : RequestParser} {valid : Bool} {req : HTTPServerRequest}
    (h : env.decode rp .init = (valid, req)) :
    ofComplete (complete env ⟨rp, .init, .init⟩) = answered env valid req := by
  unfold complete answered
  simp only [h]
  cases valid with
  | false => rfl
  | true =>
    rcases hh : env.handler (addressed env req) .init with ⟨e | _, req', rep⟩
    · rw [addressed] at hh
      simp only [hh]
      split_ifs <;> rfl
    · rw [addressed] at hh
      simp only [hh]
      rfl

theorem arrived_decodes {r : WireRequest} {url : Str} {rp : RequestParser}
    (hm : rp.parser.method = methodOf r.method) (hf : rp.fields.eraseUrl = r.log.fields)
    (hurl : rp.fields.url = url) :
    rp.decodeMessage .init = (arrived r url).decodeMessage .init := by
  refine (RequestParser.decode_target_iff hm ?_).mpr (congrArg RequestParser.urlParts hurl)
  exact hf.trans rfl

/-- A request is answered, in whatever reads it comes. -/
theorem serve_arrived {r : WireRequest} (hr : r.Sound) (junk : Bool) {reads : List Str}
    (hc : Cut r.bytes reads) {env : Environment} (hdec : Decodes env) {valid : Bool}
    {req : HTTPServerRequest}
    (hmsg : (arrived r (targetTail reads)).decodeMessage .init = (.ok valid, req)) :
    (new junk).serve env (reads.map .bytes) = answered env valid req := by
  obtain ⟨rp, hfeed, hm, hf, hurl⟩ := RequestParser.delivered hr junk hc
  have hdecode := hdec _ _ _ _ ((arrived_decodes hm hf hurl).trans hmsg)
  rw [serve_feed env reads hfeed]
  exact complete_answered hdecode

/-- **A request is answered with its last byte**, in whatever reads it comes: before the last read
nothing is written, and with it what the handler makes of the decoded message. -/
theorem answered_with_last {r : WireRequest} (hr : r.Sound) (junk : Bool) {reads : List Str}
    (hc : Cut r.bytes reads) {env : Environment} (hdec : Decodes env) {valid : Bool}
    {req : HTTPServerRequest}
    (hmsg : (arrived r (targetTail reads)).decodeMessage .init = (.ok valid, req)) :
    (∀ i < reads.length, (new junk).serve env ((reads.take i).map .bytes) = ⟨[], none⟩) ∧
      (new junk).serve env (reads.map .bytes) = answered env valid req :=
  ⟨fun _ hi => serve_waits env _ (RequestParser.waits hr junk hc hi), serve_arrived hr junk hc hdec hmsg⟩

/-- A server without routes. -/
def emptyServer : Environment where
  decode rp req :=
    match rp.decodeMessage req with
    | (.ok b, req) => (b, req)
    | (.error _, req) => (false, req)
  handler req _ := (.ok (), req, .stockReply .notFound)
  remoteAddress := str "127.0.0.1"

theorem emptyServer_decodes : Decodes emptyServer := by
  intro rp req b req' h
  simp only [emptyServer, h]

/-- A `POST` with two headers and a body, cut inside of its head and of its body. -/
def plainPost : WireRequest where
  method := .POST
  target := str "/a?b=c"
  lines := [⟨str "Content-Length", str "3", false⟩, ⟨str "Content-Type", str "text/plain", true⟩]
  body := str "xyz"

theorem plainPost_answered :
    (new true).serve emptyServer
        ([plainPost.bytes.take 20, (plainPost.bytes.drop 20).take 48, plainPost.bytes.drop 68].map .bytes) =
      ⟨[responseToBuffers (.stockReply .notFound) false], none⟩ := by
  have hsound : plainPost.Sound := ⟨by decide +kernel, by decide +kernel,
    .inr ⟨⟨str "Content-Length", str "3", false⟩, List.mem_cons_self, rfl⟩, by decide, by decide +kernel⟩
  have hvalid : ((arrived plainPost (targetTail
      [plainPost.bytes.take 20, (plainPost.bytes.drop 20).take 48, plainPost.bytes.drop 68])).decodeMessage
      .init).1 = .ok true := by decide +kernel
  have hcut : Cut plainPost.bytes
      [plainPost.bytes.take 20, (plainPost.bytes.drop 20).take 48, plainPost.bytes.drop 68] :=
    ⟨by decide +kernel, by decide +kernel⟩
  have hanswer := (answered_with_last hsound true hcut emptyServer_decodes (Prod.ext hvalid rfl)).2
  rw [hanswer]
  decide +kernel

end HttpConnection

/-! ## The client -/

namespace HTTPClientImpl

open HttpConnection

/-- The headers that are sent. -/
def sentHeaders (req : HTTPClientRequest) : Dictionary :=
  (headerLines req).foldl (fun d l => d.insert l.name l.value) ∅

/-- No read but the last ends inside of the target or directly behind it. -/
def Uncut (reads : List Str) : Prop :=
  ∀ i < reads.length,
    ((reads.take i).foldl RequestParser.TargetScan.read .start).stage ≠ .target

/-- A request of the client as the server has parsed it. -/
def received (req : HTTPClientRequest) : RequestParser := arrived (wire req) ('/'.toUInt8 :: req.url.file)

theorem received_attributes (req : HTTPClientRequest) :
    attributes (received req) = (sentHeaders req).insert (str "REQUEST_METHOD") req.methodString := by
  have hheaders : (received req).fields.headers = sentHeaders req := by
    simp only [received, arrived, MessageLog.fields, WireRequest.log, sentHeaders, wire, List.foldl_map,
      MessageLog.pairOf]
  have hmethod : methodString (received req).parser.method = req.methodString := by
    simp only [received, arrived, wire, HTTPClientRequest.methodString]
    cases req.method <;> rfl
  simp only [attributes, startRequest, hheaders, hmethod, RequestParser.emplaceHeaders,
    HTTPServerRequest.init, foldl_insertIfNew]

/-- **From the client to the handler and back.**  Where the request can be sent and is accepted, and
the answer can be delivered, the handler sees the method and the headers of the client, and the client
gets the response of the handler. -/
theorem exchange {req : HTTPClientRequest} (hreq : Sendable req) {sent : Str}
    (hsent : execute req = .ok sent) {reads : List Str} (hcut : Cut sent reads) (huncut : Uncut reads)
    {env : Environment} (hdec : Decodes env) {sreq : HTTPServerRequest}
    (hmsg : (received req).decodeMessage .init = (.ok true, sreq)) {sreq' : HTTPServerRequest}
    {rep : HTTPServerResponse} (hanswer : env.handler (addressed env sreq) .init = (.ok (), sreq', rep))
    (hget : sreq'.method ≠ str "HEAD") (hrep : Deliverable rep) (junk junk' : Bool) :
    sreq.method = req.methodString ∧
      sreq.SERVER = (sentHeaders req).insert (str "REQUEST_METHOD") req.methodString ∧
      ∃ buffers, (HttpConnection.new junk).serve env (reads.map .bytes) = ⟨[buffers], none⟩ ∧
        ∀ d : Delivery, d.stream = buffers.flatten →
          readResponse junk' d = .ok { rep with status := sentCode rep.status } := by
  have hserver := RequestParser.decodeMessage_server (received req)
  have hmethod := (received req).decodeMessage_kept (·.method) (fun _ _ _ _ => rfl) (fun _ _ => rfl)
    fun _ _ _ _ _ => rfl
  rw [hmsg] at hserver hmethod
  have hbytes : sent = (wire req).bytes := by
    unfold execute at hsent
    rw [if_pos hreq.connects, requestStream_wire] at hsent
    exact (Except.ok.inj hsent).symm
  subst hbytes
  have htarget : targetTail reads = '/'.toUInt8 :: req.url.file := by
    rw [RequestParser.targetTail_uncut huncut, hcut.flatten, RequestParser.targetTail_bytes hreq.sound]
    rfl
  have harrived : (arrived (wire req) (targetTail reads)).decodeMessage .init = (.ok true, sreq) := by
    rw [htarget]
    exact hmsg
  have hserve := serve_arrived hreq.sound junk hcut hdec harrived
  have hwritten : answered env true sreq = ⟨[responseToBuffers rep false], none⟩ := by
    rw [answered, if_pos rfl]
    simp only [hanswer, written, beq_false_of_ne hget]
  refine ⟨hmethod.trans ?_, hserver.trans (received_attributes req), responseToBuffers rep false,
    hserve.trans hwritten, fun d hd => ?_⟩
  · simp only [startRequest, received, arrived, wire, HTTPClientRequest.methodString]
    cases req.method <;> rfl
  · rw [readResponse_eq, hd]
    exact replyOf_response hrep junk'

/-- `http://a.org/b?q=1`. -/
def plainGet : HTTPClientRequest where
  url := { protocol := str "http", host := str "a.org", segments := [str "b"]
           params := (∅ : Dictionary).insertIfNew (str "q") (str "1") }

theorem plainGet_exchanged :
    ∃ buffers, (HttpConnection.new false).serve emptyServer
        [.bytes ((requestStream plainGet).take 20), .bytes ((requestStream plainGet).drop 20)] =
        ⟨[buffers], none⟩ ∧
      ∀ d : Delivery, d.stream = buffers.flatten →
        readResponse true d = .ok { HTTPServerResponse.stockReply .notFound with status := 404 } := by
  have hsendable : Sendable plainGet := ⟨by decide +kernel, by decide +kernel, by decide +kernel,
    by decide +kernel, by decide +kernel, by decide, by decide +kernel⟩
  have hvalid : ((received plainGet).decodeMessage .init).1 = .ok true := by decide +kernel
  have hsent : execute plainGet = .ok (requestStream plainGet) := by decide +kernel
  have hcut : Cut (requestStream plainGet)
      [(requestStream plainGet).take 20, (requestStream plainGet).drop 20] :=
    ⟨by decide +kernel, by decide +kernel⟩
  exact (exchange hsendable hsent hcut (by unfold Uncut; decide +kernel) emptyServer_decodes
    (Prod.ext hvalid rfl) rfl (by decide +kernel) notFound_deliverable false true).2.2

end HTTPClientImpl

end Wsrv
