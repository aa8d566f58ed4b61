import Wsrv.Connection
import Wsrv.Lib.EventLoop

/-!
# The server

`ServerImpl` accepts connections on one service of an `io_service_pool`, runs
their callbacks on another and waits for signals on a third, or on the same ones
where the pool is small.  An `HttpConnection` is in the set of the
`ConnectionManager` from its start to its end.

A state says how far each callback and each call of `handle_stop` has come, and
an `Event` is one step of one of them, or a completion that the kernel reports.
What is done under the mutex of the manager is one step.
-/

namespace Wsrv

open EventLoop

/-! ## The pool of services -/

structure IoServicePool where
  size : Nat
  nextIoService : Nat

namespace IoServicePool

def new (poolSize : Nat) : Except Exception IoServicePool :=
  if poolSize = 0 then .error (.runtimeError (str "io_service_pool size is 0")) else .ok ⟨poolSize, 0⟩

/-- `get_io_service`, the number of the service. -/
def getIoService (p : IoServicePool) : Nat × IoServicePool :=
  let next := p.nextIoService + 1
  (p.nextIoService, { p with nextIoService := if next = p.size then 0 else next })

end IoServicePool

/-! ## Connections -/

/-- How an `async_write` completes. -/
inductive WriteCompletion
  | written
  | aborted
  | failed
  deriving DecidableEq

/-- How far a connection has come.  In `inRead` the callback runs, and is to do what is said. -/
inductive CallbackPhase
  | reading
  | readDone (r : ReadCompletion)
  | inRead (result : Except Exception (Started × HttpConnection))
  | writing
  | writeDone (w : WriteCompletion)
  | inWrite (w : WriteCompletion)
  | idle

/-- One of its callbacks runs. -/
def CallbackPhase.inCallback : CallbackPhase → Bool
  | .inRead _ | .inWrite _ => true
  | _ => false

/-- A connection that was started. -/
structure ManagedConnection where
  http : HttpConnection
  /-- It is in `connections_`. -/
  managed : Bool
  /-- `socket_.is_open()`. -/
  isOpen : Bool
  phase : CallbackPhase
  /-- The completions that its callbacks were given. -/
  seen : List ReadCompletion
  /-- What it gave to `async_write`. -/
  writes : List (List Str)

namespace ManagedConnection

def start (junk : Bool) : ManagedConnection :=
  ⟨.new junk, true, true, .reading, [], []⟩

/-- `socket_.close()`: what is outstanding is aborted. -/
def close (c : ManagedConnection) : ManagedConnection :=
  { c with
    isOpen := false
    phase := match c.phase with
      | .reading => .readDone .aborted
      | .writing => .writeDone .aborted
      | p => p }

/-- `ConnectionManager::stop`. -/
def stop (c : ManagedConnection) : ManagedConnection := { c.close with managed := false }

/-- The kernel has bytes for a read, or an error. -/
def readCompletes (r : ReadCompletion) (c : ManagedConnection) : Option ManagedConnection :=
  match c.phase, r with
  | .reading, .bytes data =>
    if data ≠ [] ∧ data.length ≤ 8192 then some { c with phase := .readDone (.bytes data) } else none
  | .reading, .failed => some { c with phase := .readDone .failed }
  | _, _ => none

def writeCompletes (ok : Bool) (c : ManagedConnection) : Option ManagedConnection :=
  match c.phase with
  | .writing => some { c with phase := .writeDone (if ok then .written else .failed) }
  | _ => none

/-- The message is complete, and `decode_message` does not return. -/
def undecoded (c : ManagedConnection) : ReadCompletion → Bool
  | .bytes data =>
    match c.http.requestParser.parse data with
    | (.ok, rp) => (rp.decodeMessage c.http.request).1.isOk.not
    | _ => false
  | _ => false

/-- The callback comes to `remote_endpoint()`. -/
def asksEndpoint (env : Environment) (c : ManagedConnection) : ReadCompletion → Bool
  | .bytes data =>
    match c.http.requestParser.parse data with
    | (.ok, rp) => (env.decode rp c.http.request).1
    | _ => false
  | _ => false

/-- The callback of `read` begins.  What it makes of the bytes, the answer of the handler included, is
fixed here: no other thread has a part in it. -/
def readBegins (env : Environment) (c : ManagedConnection) : Option ManagedConnection :=
  match c.phase with
  | .readDone r => some { c with phase := .inRead (c.http.onRead env r), seen := c.seen ++ [r] }
  | _ => none

/-- It returns; an operation on a closed socket fails. -/
def readEnds (c : ManagedConnection) : Option ManagedConnection :=
  match c.phase with
  | .inRead (.ok (.read, http)) =>
    some { c with http := http, phase := if c.isOpen then .reading else .readDone .failed }
  | .inRead (.ok (.write buffers, http)) =>
    some { c with
      http := http
      writes := c.writes ++ [buffers]
      phase := if c.isOpen then .writing else .writeDone .failed }
  | .inRead (.ok (.stop, http)) => some { c.stop with http := http, phase := .idle }
  | .inRead (.ok (.nothing, http)) => some { c with http := http, phase := .idle }
  | _ => none

def writeBegins (c : ManagedConnection) : Option ManagedConnection :=
  match c.phase with
  | .writeDone w => some { c with phase := .inWrite w }
  | _ => none

def writeEnds (c : ManagedConnection) : Option ManagedConnection :=
  match c.phase with
  | .inWrite .aborted => some { c with phase := .idle }
  | .inWrite _ => some { c.stop with phase := .idle }
  | _ => none

end ManagedConnection

/-! ## The server -/

/-- What runs on a service. -/
inductive Task
  | signal
  | accept
  | connection (i : Nat)
  deriving DecidableEq

/-- The callback of `async_accept`: outstanding, queued, behind its test of the acceptor, before
`start_accept()`, or gone. -/
inductive AcceptPhase
  | pending
  | completed (ok : Bool)
  | checked
  | restarting
  | finished
  deriving DecidableEq

/-- A call of `handle_stop`: what it does next. -/
inductive StopPhase
  | close
  | stopAll
  | pool (i : Nat)
  | done
  deriving DecidableEq

structure Stop where
  /-- The callback of the signals calls it, and no other thread. -/
  bySignal : Bool
  phase : StopPhase
  deriving DecidableEq

structure ServerImpl where
  pool : IoServicePool
  /-- The services of `signals_`, `acceptor_` and `socket_`; a socket that is accepted keeps that of
  `socket_`. -/
  home : Task → Nat
  loops : Loops Nat Task
  acceptorOpen : Bool
  accept : AcceptPhase
  connections : List ManagedConnection
  /-- The wait for a signal is outstanding. -/
  awaiting : Bool
  stops : List Stop
  /-- An exception has left the thread of a service, or what the decoder does is undefined. -/
  terminated : Bool

namespace ServerImpl

/-- The constructor and `run`, up to the first `start_accept`. -/
def run (pool : IoServicePool) : ServerImpl :=
  let (signals, pool) := pool.getIoService
  let (acceptor, pool) := pool.getIoService
  let (socket, pool) := pool.getIoService
  { pool := pool
    home := fun
      | .signal => signals
      | .accept => acceptor
      | .connection _ => socket
    loops := .idle
    acceptorOpen := true
    accept := .pending
    connections := []
    awaiting := true
    stops := []
    terminated := false }

inductive Event
  | acceptCompletes (ok : Bool)
  | acceptBegins
  | acceptStarts
  | acceptAgain
  | readCompletes (i : Nat) (r : ReadCompletion)
  /-- `connected` says whether `remote_endpoint()` finds a peer. -/
  | readBegins (i : Nat) (connected : Bool)
  | readEnds (i : Nat)
  | writeCompletes (i : Nat) (ok : Bool)
  | writeBegins (i : Nat)
  | writeEnds (i : Nat)
  | signal
  | stop
  | stopContinues (k : Nat)

/-- A step of one connection. -/
def onConnection (i : Nat) (f : ManagedConnection → Option ManagedConnection) (s : ServerImpl) :
    Option ServerImpl :=
  (s.connections[i]?.bind f).map fun c => { s with connections := s.connections.set i c }

def begin (t : Task) (s : ServerImpl) : Option ServerImpl :=
  (s.loops.begin (s.home t) t).map fun loops => { s with loops := loops }

def finish (t : Task) (s : ServerImpl) : ServerImpl := { s with loops := s.loops.finish (s.home t) }

/-! ### Accepting -/

def acceptCompletes (ok : Bool) (s : ServerImpl) : Option ServerImpl :=
  if s.accept = .pending then some { s with accept := .completed ok } else none

def acceptBegins (s : ServerImpl) : Option ServerImpl :=
  match s.accept with
  | .completed ok =>
    (s.begin .accept).map fun s =>
      if s.acceptorOpen then { s with accept := if ok then .checked else .restarting }
      else { s.finish .accept with accept := .finished }
  | _ => none

/-- `connection_manager_.start`. -/
def acceptStarts (junk : Nat → Bool) (s : ServerImpl) : Option ServerImpl :=
  if s.accept = .checked then
    some { s with
      connections := s.connections ++ [.start (junk s.connections.length)]
      accept := .restarting }
  else none

/-- `start_accept()`, on a closed acceptor too. -/
def acceptAgain (s : ServerImpl) : Option ServerImpl :=
  if s.accept = .restarting then
    some { s.finish .accept with accept := if s.acceptorOpen then .pending else .completed false }
  else none

/-! ### Connections -/

/-- The callback of a read begins, or `decode_message` or `remote_endpoint()` throws and nothing
catches it.  The call of the handler is in the same step, though it may come when another thread is
further on. -/
def readBegins (env : Nat → Environment) (i : Nat) (connected : Bool) (s : ServerImpl) :
    Option ServerImpl :=
  match s.connections[i]? with
  | some c =>
    match c.phase with
    | .readDone r =>
      (s.begin (.connection i)).bind fun begun =>
        if c.undecoded r || c.asksEndpoint (env i) r && !(connected && c.isOpen) then
          some { s with terminated := true }
        else begun.onConnection i (·.readBegins (env i))
    | _ => none
  | none => none

/-- The callback of a read returns, or its exception ends the thread. -/
def readEnds (i : Nat) (s : ServerImpl) : Option ServerImpl :=
  match s.connections[i]? with
  | some c =>
    match c.phase with
    | .inRead (.error _) => some { s with terminated := true }
    | _ => ((s.finish (.connection i)).onConnection i (·.readEnds))
  | none => none

/-! ### Stopping -/

def closeAcceptor (s : ServerImpl) : ServerImpl :=
  { s with
    acceptorOpen := false
    accept := if s.accept = .pending then .completed false else s.accept }

/-- `ConnectionManager::stop_all`. -/
def stopAll (s : ServerImpl) : ServerImpl :=
  { s with connections := s.connections.map fun c => if c.managed then c.stop else c }

/-- One step of a call of `handle_stop`. -/
def stopContinues (k : Nat) (s : ServerImpl) : Option ServerImpl :=
  match s.stops[k]? with
  | some ⟨bySignal, phase⟩ =>
    match phase with
    | .close => some { s.closeAcceptor with stops := s.stops.set k ⟨bySignal, .stopAll⟩ }
    | .stopAll => some { s.stopAll with stops := s.stops.set k ⟨bySignal, .pool 0⟩ }
    | .pool i =>
      if i < s.pool.size then
        some { s with loops := s.loops.stop i, stops := s.stops.set k ⟨bySignal, .pool (i + 1)⟩ }
      else
        let s := { s with stops := s.stops.set k ⟨bySignal, .done⟩ }
        some (if bySignal then s.finish .signal else s)
    | .done => none
  | none => none

/-- One event; what cannot happen gives nothing. -/
def step (env : Nat → Environment) (junk : Nat → Bool) (s : ServerImpl) (e : Event) : Option ServerImpl :=
  if s.terminated then none
  else
    match e with
    | .acceptCompletes ok => s.acceptCompletes ok
    | .acceptBegins => s.acceptBegins
    | .acceptStarts => s.acceptStarts junk
    | .acceptAgain => s.acceptAgain
    | .readCompletes i r => s.onConnection i (·.readCompletes r)
    | .readBegins i connected => s.readBegins env i connected
    | .readEnds i => s.readEnds i
    | .writeCompletes i ok => s.onConnection i (·.writeCompletes ok)
    | .writeBegins i => (s.begin (.connection i)).bind (·.onConnection i (·.writeBegins))
    | .writeEnds i => (s.onConnection i (·.writeEnds)).map (·.finish (.connection i))
    | .signal =>
      if s.awaiting then
        (s.begin .signal).map fun s => { s with awaiting := false, stops := s.stops ++ [⟨true, .close⟩] }
      else none
    | .stop => some { s with stops := s.stops ++ [⟨false, .close⟩] }
    | .stopContinues k => s.stopContinues k

/-- The events one after the other. -/
def steps (env : Nat → Environment) (junk : Nat → Bool) (s : ServerImpl) (es : List Event) :
    Option ServerImpl := es.foldlM (step env junk) s

end ServerImpl

end Wsrv
