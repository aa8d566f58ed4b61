import Wsrv.RequestDecode

/-!
# Connections

The callback that `HttpConnection::read` gives to `async_read_some`, and the run
of a connection over the reads that complete.  An exception that leaves the
callback goes up into the thread of the io service and ends it.

`serve_contained_iff` says when that cannot happen: the `catch` clause around
the handler takes a `std::runtime_error` and nothing else.
-/

namespace Wsrv

/-- What a connection is given: the decoder, the handler and the address of the client. -/
structure Environment where
  decode : RequestParser → HTTPServerRequest → Bool × HTTPServerRequest
  handler : HTTPServerRequest → HTTPServerResponse →
    Except Exception Unit × HTTPServerRequest × HTTPServerResponse
  remoteAddress : Str

/-- How a read completes: with bytes, because it was aborted, or with another error. -/
inductive ReadCompletion
  | bytes (data : Str)
  | aborted
  | failed
  deriving DecidableEq

/-- What the callback starts before it returns. -/
inductive Started
  | read
  | write (buffers : List Str)
  | stop
  | nothing
  deriving DecidableEq

structure HttpConnection where
  requestParser : RequestParser
  request : HTTPServerRequest
  response : HTTPServerResponse

namespace HttpConnection

/-- `junk` is what `is_complete_` holds before it is set. -/
def new (junk : Bool) : HttpConnection := ⟨RequestParser.new junk, .init, .init⟩

/-- The response as it is written. -/
def send (c : HttpConnection) : Started × HttpConnection :=
  (.write (responseToBuffers c.response (c.request.method == str "HEAD")), c)

/-- The branch of a complete message. -/
def complete (env : Environment) (c : HttpConnection) :
    Except Exception (Started × HttpConnection) :=
  match env.decode c.requestParser c.request with
  | (false, req) =>
    .ok (send { c with request := req, response := .stockReply .badRequest })
  | (true, req) =>
    let req := { req with
      SERVER := req.SERVER.insertIfNew (str "REMOTE_ADDR") env.remoteAddress }
    match env.handler req c.response with
    | (.ok (), req, resp) => .ok (send { c with request := req, response := resp })
    | (.error e, req, _) =>
      if e.isRuntimeError then
        .ok (send { c with request := req, response := .stockReply .internalServerError })
      else .error e

/-- **The callback of `HttpConnection::read`.**  Its second test for an error is the first one
again. -/
def onRead (env : Environment) (c : HttpConnection) (r : ReadCompletion) :
    Except Exception (Started × HttpConnection) :=
  match r with
  | .aborted => .ok (.nothing, c)
  | .failed => .ok (.stop, c)
  | .bytes data =>
    match c.requestParser.parse data with
    | (.ok, rp) => complete env { c with requestParser := rp }
    | (.error, rp) =>
      .ok (send { c with requestParser := rp, response := .stockReply .badRequest })
    | (.indeterminate, rp) => .ok (.read, { c with requestParser := rp })

/-- What is seen of a connection: the responses it writes, and the exception that ends its
thread. -/
structure Trace where
  writes : List (List Str)
  escaped : Option Exception
  deriving DecidableEq

/-- The run of a connection over its reads.  It reads on after `Started.read` only: the callback of
a write shuts the socket down. -/
def serve (env : Environment) : HttpConnection → List ReadCompletion → Trace
  | _, [] => ⟨[], none⟩
  | c, r :: rest =>
    match c.onRead env r with
    | .error e => ⟨[], some e⟩
    | .ok (.read, c) => serve env c rest
    | .ok (.write buffers, _) => ⟨[buffers], none⟩
    | .ok (_, _) => ⟨[], none⟩

/-- A complete message starts a write, if anything. -/
theorem complete_started {env : Environment} {c c' : HttpConnection} {started : Started}
    (h : complete env c = .ok (started, c')) : ∃ buffers, started = .write buffers := by
  have hsent : ∀ {c : HttpConnection}, (.ok (send c) : Except Exception _) = .ok (started, c') →
      ∃ buffers, started = .write buffers := by
    intro c hc
    cases hc
    exact ⟨_, rfl⟩
  unfold complete at h
  split at h
  · exact hsent h
  · simp only at h
    split at h
    · exact hsent h
    · split_ifs at h
      exact hsent h

/-- The reads that bring bytes, up to the first that does not. -/
def received : List ReadCompletion → List Str
  | .bytes data :: rest => data :: received rest
  | _ => []

/-- The handler leaves nothing for the callback but a `std::runtime_error`. -/
def HandlerContained (env : Environment) (req : HTTPServerRequest) : Prop :=
  ∀ e, (env.handler { req with
    SERVER := req.SERVER.insertIfNew (str "REMOTE_ADDR") env.remoteAddress } .init).1 = .error e →
    e.isRuntimeError = true

/-- A complete message is answered by one write, or the handler's exception escapes. -/
theorem complete_cases (env : Environment) (c : HttpConnection) (hreq : c.request = .init)
    (hresp : c.response = .init) :
    (∃ buffers c', complete env c = .ok (.write buffers, c') ∧
      ∀ req, env.decode c.requestParser .init = (true, req) → HandlerContained env req) ∨
    ∃ e req, complete env c = .error e ∧ env.decode c.requestParser .init = (true, req) ∧
      ¬HandlerContained env req := by
  unfold complete HandlerContained
  rw [hreq, hresp]
  rcases hd : env.decode c.requestParser .init with ⟨_ | _, req⟩
  · exact .inl ⟨_, _, rfl, fun req' h => by simp at h⟩
  · simp only [Prod.mk.injEq, true_and, forall_eq']
    rcases hh : env.handler { req with
      SERVER := req.SERVER.insertIfNew (str "REMOTE_ADDR") env.remoteAddress } .init with
      ⟨e | _, req', resp⟩
    · simp only []
      cases he : e.isRuntimeError with
      | true => exact .inl ⟨_, _, rfl, fun e' h => by cases h; exact he⟩
      | false =>
        refine .inr ⟨e, req, rfl, rfl, fun h => ?_⟩
        exact absurd ((h e (by rw [hh])).symm.trans he) (by decide)
    · exact .inl ⟨_, _, rfl, fun e' h => by cases h⟩

/-- **When nothing escapes from the callback.**  On every run over reads, no exception leaves the
callback and a completed message is answered by exactly one write, if and only if the handler, on
the request that the completed message is decoded to, returns or throws a
`std::runtime_error`. -/
theorem serve_contained_iff (junk : Bool) (env : Environment) (reads : List ReadCompletion) :
    let t := (new junk).serve env reads
    let m := (RequestParser.new junk).feed (received reads)
    (t.escaped = none ∧ (m.1 = .ok → t.writes.length = 1)) ↔
      (m.1 = .ok → ∀ req, env.decode m.2 .init = (true, req) → HandlerContained env req) := by
  have general : ∀ c : HttpConnection, c.request = .init → c.response = .init →
      (((c.serve env reads).escaped = none ∧
        ((c.requestParser.feed (received reads)).1 = .ok →
          (c.serve env reads).writes.length = 1)) ↔
      ((c.requestParser.feed (received reads)).1 = .ok → ∀ req,
        env.decode (c.requestParser.feed (received reads)).2 .init = (true, req) →
          HandlerContained env req)) := by
    induction reads with
    | nil =>
      intro c _ _
      simp [serve, received, RequestParser.feed]
    | cons r rest ih =>
      intro c hreq hresp
      cases r with
      | aborted => simp [serve, onRead, received, RequestParser.feed]
      | failed => simp [serve, onRead, received, RequestParser.feed]
      | bytes data =>
        rw [serve, received, RequestParser.feed, onRead]
        rcases c.requestParser.parse data with ⟨_ | _ | _, rp⟩
        · rcases complete_cases env { c with requestParser := rp } hreq hresp with
            ⟨buffers, c', hc, hcontained⟩ | ⟨e, req, hc, hd, hnot⟩
          · simp only [hc]
            exact ⟨fun _ _ => hcontained, fun _ => ⟨trivial, fun _ => rfl⟩⟩
          · simp only [hc]
            exact ⟨fun h => by simp at h, fun h => absurd (h trivial req hd) hnot⟩
        · simp [send]
        · exact ih { c with requestParser := rp } hreq hresp
  exact general (new junk) rfl rfl

/-- A handler that throws what `std::stoull` throws on a text without a number. -/
def stoullHandler : Environment where
  decode rp req :=
    match rp.decodeMessage req with
    | (.ok b, req) => (b, req)
    | (.error _, req) => (false, req)
  handler req resp := (.error (.invalidArgument (str "stoull")), req, resp)
  remoteAddress := str "127.0.0.1"

theorem stoull_escapes :
    (new false).serve stoullHandler [.bytes (str "GET /photo/abc/ HTTP/1.1\r\n\r\n")] =
      ⟨[], some (.invalidArgument (str "stoull"))⟩ := by
  decide +kernel

end HttpConnection

end Wsrv
