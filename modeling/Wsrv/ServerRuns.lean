import Wsrv.ServerImpl

/-!
# Runs of the server

What holds in every state that a run of events comes to, in whatever order the
threads and the kernel take their steps.  A connection is in the set of the
manager as long as its socket is open, and then it is waited for
(`nothing_forgotten`).  It writes what `HttpConnection.serve` says of the
completions it was given (`connections_serve`), and no two connections are in
their callbacks at once (`callbacks_alone`).
-/

namespace Wsrv

open EventLoop

/-! ## One connection -/

namespace ManagedConnection

variable {env : Environment} {junk : Bool} {c c' : ManagedConnection}

/-- What was seen so far leaves the connection in the state `http`. -/
def Leaves (env : Environment) (junk : Bool) (seen : List ReadCompletion) (http : HttpConnection) : Prop :=
  ∀ rest, (HttpConnection.new junk).serve env (seen ++ rest) = http.serve env rest

/-- A connection has done what `serve` says. -/
def Serves (env : Environment) (junk : Bool) (c : ManagedConnection) : Prop :=
  match c.phase with
  | .reading | .readDone _ => c.writes = [] ∧ Leaves env junk c.seen c.http
  | .inRead result => c.writes = [] ∧ ∃ before r, c.seen = before ++ [r] ∧ result = c.http.onRead env r ∧
      Leaves env junk before c.http
  | _ => (HttpConnection.new junk).serve env c.seen = ⟨c.writes, none⟩

/-- Its operation was aborted. -/
def CallbackPhase.aborted : CallbackPhase → Prop
  | .readDone r => r = .aborted
  | .inRead result => ∃ http, result = .ok (.nothing, http)
  | .writeDone w | .inWrite w => w = .aborted
  | _ => False

structure Sound (env : Environment) (junk : Bool) (c : ManagedConnection) : Prop where
  managed : c.managed = c.isOpen
  /-- An open socket is waited for. -/
  waited : c.isOpen = true → c.phase ≠ .idle
  /-- The kernel has nothing to do for a closed one. -/
  pending : c.phase = .reading ∨ c.phase = .writing → c.isOpen = true
  aborted : CallbackPhase.aborted c.phase → c.isOpen = false
  serves : c.Serves env junk

/-- A step of the connection itself: it is not one that has ended, and it closes the socket with its
last step only. -/
structure Advances (env : Environment) (junk : Bool) (c c' : ManagedConnection) : Prop where
  sound : c'.Sound env junk
  live : c.phase ≠ .idle
  closing : c'.isOpen = c.isOpen ∨ c'.phase = .idle

theorem start_sound : (start junk).Sound env junk where
  managed := rfl
  waited _ := CallbackPhase.noConfusion
  pending _ := rfl
  aborted h := h.elim
  serves := ⟨rfl, fun rest => by rw [start, List.nil_append]⟩

theorem close_serves (h : c.Serves env junk) : c.close.Serves env junk := by
  unfold Serves close at *
  cases hp : c.phase <;> rw [hp] at h <;> exact h

theorem close_not_pending (c : ManagedConnection) :
    ¬(c.close.phase = .reading ∨ c.close.phase = .writing) := by
  unfold close
  cases c.phase <;> simp

theorem stop_sound (h : c.Sound env junk) : c.stop.Sound env junk where
  managed := rfl
  waited ho := Bool.noConfusion ho
  pending hp := absurd hp c.close_not_pending
  aborted _ := rfl
  serves := close_serves h.serves

/-- A step that leaves the sockets alone. -/
theorem Advances.of_phase {p : CallbackPhase} {seen : List ReadCompletion} (h : c.Sound env junk)
    (hlive : c.phase ≠ .idle) (hidle : p ≠ .idle) (hpending : ¬(p = .reading ∨ p = .writing))
    (haborted : CallbackPhase.aborted p → c.isOpen = false)
    (hserves : ({ c with phase := p, seen := seen } : ManagedConnection).Serves env junk) :
    Advances env junk c { c with phase := p, seen := seen } where
  sound := ⟨h.managed, fun _ => hidle, fun hp => absurd hp hpending, haborted, hserves⟩
  live := hlive
  closing := .inl rfl

theorem readCompletes_advances {r : ReadCompletion} (h : c.Sound env junk)
    (hs : c.readCompletes r = some c') :
    Advances env junk c c' ∧ c.phase.inCallback = false ∧ c'.phase.inCallback = false := by
  have hserves := h.serves
  unfold readCompletes at hs
  split at hs
  · rename_i data hp
    split_ifs at hs
    cases hs
    rw [Serves, hp] at hserves
    exact ⟨.of_phase h (by simp [hp]) (by simp) (by simp) (fun ha => by cases ha) hserves,
      by rw [hp]; rfl, rfl⟩
  · rename_i hp
    cases hs
    rw [Serves, hp] at hserves
    exact ⟨.of_phase h (by simp [hp]) (by simp) (by simp) (fun ha => by cases ha) hserves,
      by rw [hp]; rfl, rfl⟩
  · cases hs

theorem writeCompletes_advances {ok : Bool} (h : c.Sound env junk) (hs : c.writeCompletes ok = some c') :
    Advances env junk c c' ∧ c.phase.inCallback = false ∧ c'.phase.inCallback = false := by
  have hserves := h.serves
  unfold writeCompletes at hs
  split at hs
  · rename_i hp
    cases hs
    rw [Serves, hp] at hserves
    exact ⟨.of_phase h (by simp [hp]) (by simp) (by simp) (fun ha => by cases ok <;> cases ha) hserves,
      by rw [hp]; rfl, rfl⟩
  · cases hs

theorem onRead_nothing {http http' : HttpConnection} {r : ReadCompletion}
    (h : http.onRead env r = .ok (.nothing, http')) : r = .aborted := by
  unfold HttpConnection.onRead at h
  cases r with
  | aborted => rfl
  | failed => cases h
  | bytes data =>
    simp only at h
    rcases hp : http.requestParser.parse data with ⟨_ | _ | _, rp⟩
    · rw [hp] at h
      obtain ⟨buffers, hwrite⟩ := HttpConnection.complete_started h
      cases hwrite
    · rw [hp] at h
      cases h
    · rw [hp] at h
      cases h

theorem readBegins_advances (h : c.Sound env junk) (hs : c.readBegins env = some c') :
    Advances env junk c c' ∧ c.phase.inCallback = false ∧ c'.phase.inCallback = true := by
  have hserves := h.serves
  have haborted := h.aborted
  unfold readBegins at hs
  split at hs
  · rename_i r hp
    cases hs
    rw [Serves, hp] at hserves
    rw [hp] at haborted
    obtain ⟨hwrites, hleaves⟩ := hserves
    refine ⟨.of_phase h (by simp [hp]) (by simp) (by simp) (fun ha => ?_)
      ⟨hwrites, c.seen, r, rfl, rfl, hleaves⟩, by rw [hp]; rfl, rfl⟩
    obtain ⟨http, hnothing⟩ := ha
    exact haborted (onRead_nothing hnothing)
  · cases hs

theorem writeBegins_advances (h : c.Sound env junk) (hs : c.writeBegins = some c') :
    Advances env junk c c' ∧ c.phase.inCallback = false ∧ c'.phase.inCallback = true := by
  have hserves := h.serves
  have haborted := h.aborted
  unfold writeBegins at hs
  split at hs
  · rename_i w hp
    cases hs
    rw [Serves, hp] at hserves
    rw [hp] at haborted
    exact ⟨.of_phase h (by simp [hp]) (by simp) (by simp) haborted hserves, by rw [hp]; rfl, rfl⟩
  · cases hs

theorem writeEnds_advances (h : c.Sound env junk) (hs : c.writeEnds = some c') :
    Advances env junk c c' ∧ c.phase.inCallback = true ∧ c'.phase.inCallback = false := by
  have hserves := h.serves
  unfold writeEnds at hs
  split at hs
  · rename_i hp
    cases hs
    have hclosed := h.aborted (by rw [hp]; rfl)
    rw [Serves, hp] at hserves
    exact ⟨⟨⟨h.managed, fun ho => absurd (hclosed.symm.trans ho) (by decide), fun hq => by simp at hq,
      fun ha => ha.elim, hserves⟩, by simp [hp], .inr rfl⟩, by rw [hp]; rfl, rfl⟩
  · rename_i w _ hp
    cases hs
    rw [Serves, hp] at hserves
    exact ⟨⟨⟨rfl, fun ho => Bool.noConfusion ho, fun hq => by simp at hq, fun ha => ha.elim, hserves⟩,
      by simp [hp], .inr rfl⟩, by rw [hp]; rfl, rfl⟩
  · cases hs

/-- What `serve` makes of the last completion. -/
theorem serve_last {http : HttpConnection} {before : List ReadCompletion} {r : ReadCompletion}
    (hleaves : Leaves env junk before http) (rest : List ReadCompletion) :
    (HttpConnection.new junk).serve env (before ++ [r] ++ rest) = http.serve env (r :: rest) := by
  rw [List.append_assoc]
  exact hleaves ([r] ++ rest)

theorem readEnds_advances (h : c.Sound env junk) (hs : c.readEnds = some c') :
    Advances env junk c c' ∧ c.phase.inCallback = true ∧ c'.phase.inCallback = false := by
  have hserves := h.serves
  have haborted := h.aborted
  unfold readEnds at hs
  split at hs
  -- it reads on
  · rename_i http hp
    cases hs
    rw [Serves, hp] at hserves
    obtain ⟨hwrites, before, r, hseen, hresult, hleaves⟩ := hserves
    have hleaves' : Leaves env junk c.seen http := by
      intro rest
      rw [hseen, serve_last hleaves, HttpConnection.serve, ← hresult]
    refine ⟨⟨⟨h.managed, fun _ => ?_, fun hq => ?_, fun ha => ?_, ?_⟩, by simp [hp], .inl rfl⟩,
      by rw [hp]; rfl, ?_⟩
    · split_ifs <;> simp
    · split_ifs at hq with ho
      · exact ho
      · simp at hq
    · split_ifs at ha <;> cases ha
    · cases ho : c.isOpen <;> exact ⟨hwrites, hleaves'⟩
    · cases c.isOpen <;> rfl
  -- it writes
  · rename_i buffers http hp
    cases hs
    rw [Serves, hp] at hserves
    obtain ⟨hwrites, before, r, hseen, hresult, hleaves⟩ := hserves
    have hdone : (HttpConnection.new junk).serve env c.seen = ⟨c.writes ++ [buffers], none⟩ := by
      have hlast := serve_last hleaves (r := r) []
      rw [List.append_nil] at hlast
      rw [hseen, hlast, HttpConnection.serve, ← hresult, hwrites]
      rfl
    refine ⟨⟨⟨h.managed, fun _ => ?_, fun hq => ?_, fun ha => ?_, ?_⟩, by simp [hp], .inl rfl⟩,
      by rw [hp]; rfl, ?_⟩
    · split_ifs <;> simp
    · split_ifs at hq with ho
      · exact ho
      · simp at hq
    · split_ifs at ha <;> cases ha
    · cases ho : c.isOpen <;> exact hdone
    · cases c.isOpen <;> rfl
  -- it is stopped
  · rename_i http hp
    cases hs
    rw [Serves, hp] at hserves
    obtain ⟨hwrites, before, r, hseen, hresult, hleaves⟩ := hserves
    have hdone : (HttpConnection.new junk).serve env c.seen = ⟨c.writes, none⟩ := by
      have hlast := serve_last hleaves (r := r) []
      rw [List.append_nil] at hlast
      rw [hseen, hlast, HttpConnection.serve, ← hresult, hwrites]
    exact ⟨⟨⟨rfl, fun ho => Bool.noConfusion ho, fun hq => by simp at hq, fun ha => ha.elim, hdone⟩,
      by simp [hp], .inr rfl⟩, by rw [hp]; rfl, rfl⟩
  -- it was aborted
  · rename_i http hp
    cases hs
    have hclosed := haborted (by rw [hp]; exact ⟨http, rfl⟩)
    rw [Serves, hp] at hserves
    obtain ⟨hwrites, before, r, hseen, hresult, hleaves⟩ := hserves
    have hdone : (HttpConnection.new junk).serve env c.seen = ⟨c.writes, none⟩ := by
      have hlast := serve_last hleaves (r := r) []
      rw [List.append_nil] at hlast
      rw [hseen, hlast, HttpConnection.serve, ← hresult, hwrites]
    exact ⟨⟨⟨h.managed, fun ho => absurd (hclosed.symm.trans ho) (by decide), fun hq => by simp at hq,
      fun ha => ha.elim, hdone⟩, by simp [hp], .inr rfl⟩, by rw [hp]; rfl, rfl⟩
  · cases hs

/-- A connection that is managed behind a step was so before. -/
theorem Advances.managed (ha : Advances env junk c c') (h : c.Sound env junk) (hm : c'.managed = true) :
    c.managed = true := by
  have hopen : c'.isOpen = true := ha.sound.managed.symm.trans hm
  rcases ha.closing with hsame | hidle
  · rw [h.managed, ← hsame, hopen]
  · exact absurd hidle (ha.sound.waited hopen)

end ManagedConnection

/-! ## The server -/

namespace ServerImpl

variable {env : Nat → Environment} {junk : Nat → Bool} {s s' : ServerImpl}

/-- A call of `stop_all` has returned. -/
def Swept (s : ServerImpl) : Prop := ∃ stop ∈ s.stops, stop.phase ≠ .close ∧ stop.phase ≠ .stopAll

/-- `handle_stop` is called by the callback of the signals only, and on the service of the acceptor. -/
structure Single (s : ServerImpl) : Prop where
  home : s.home .accept = s.home .signal
  calls : ∀ stop ∈ s.stops, stop.bySignal = true

/-- The service of a task, by the size of the pool. -/
def service (n : Nat) : Task → Nat
  | .signal => 0
  | .accept => 1 % n
  | .connection _ => 2 % n

/-- The connections in the set of the manager, and one that is to be started. -/
def kept (s : ServerImpl) : Nat :=
  s.connections.countP (·.managed) + if s.accept = .checked then 1 else 0

structure Inv (env : Nat → Environment) (junk : Nat → Bool) (s : ServerImpl) : Prop where
  home : s.home = service s.pool.size
  sound : ∀ (i : Nat) (c : ManagedConnection), s.connections[i]? = some c → c.Sound (env i) (junk i)
  callbacks : ∀ i, Runs s.home s.loops (.connection i) ↔
    ∃ c, s.connections[i]? = some c ∧ c.phase.inCallback = true
  acceptor : Runs s.home s.loops .accept ↔ s.accept = .checked ∨ s.accept = .restarting
  signal : ∀ stop ∈ s.stops, stop.bySignal = true → stop.phase ≠ .done → Runs s.home s.loops .signal
  /-- One signal is waited for. -/
  signals : s.stops.countP (·.bySignal) + (if s.awaiting then 1 else 0) ≤ 1
  /-- Nothing ends the accepting of connections but the end of the acceptor. -/
  accepting : s.acceptorOpen = true → s.accept ≠ .finished
  pendingOpen : s.accept = .pending → s.acceptorOpen = true
  closed : ∀ stop ∈ s.stops, stop.phase ≠ .close → s.acceptorOpen = false
  late : s.Swept → s.kept ≤ 1 ∧ (s.Single → s.kept = 0)
  /-- Only `stop_all` closes a socket that is waited for. -/
  cut : ∀ (i : Nat) (c : ManagedConnection), s.connections[i]? = some c → c.isOpen = false → c.phase ≠ .idle → s.Swept

theorem getIoService_mod {n k : Nat} (hn : 0 < n) :
    IoServicePool.getIoService ⟨n, k % n⟩ = (k % n, ⟨n, (k + 1) % n⟩) := by
  have hlt := Nat.mod_lt k hn
  have hnext : (if k % n + 1 = n then 0 else k % n + 1) = (k + 1) % n := by
    rw [← Nat.mod_add_mod]
    split_ifs with hlast
    · rw [hlast, Nat.mod_self]
    · exact (Nat.mod_eq_of_lt (by omega)).symm
  unfold IoServicePool.getIoService
  simp only [hnext]

theorem new_eq {n : Nat} {pool : IoServicePool} (hp : IoServicePool.new n = .ok pool) :
    0 < n ∧ pool = ⟨n, 0⟩ := by
  unfold IoServicePool.new at hp
  split_ifs at hp with hn
  exact ⟨Nat.pos_of_ne_zero hn, (Except.ok.inj hp).symm⟩

/-- The services are taken in turn. -/
theorem run_home {n : Nat} {pool : IoServicePool} (hp : IoServicePool.new n = .ok pool) :
    (run pool).home = service n ∧ (run pool).pool.size = n := by
  obtain ⟨hn, rfl⟩ := new_eq hp
  have h0 := getIoService_mod (k := 0) hn
  have h1 := getIoService_mod (k := 1) hn
  have h2 := getIoService_mod (k := 2) hn
  rw [Nat.zero_mod] at h0
  unfold run
  simp only [h0, h1, h2, and_true]
  funext t
  cases t <;> rfl

theorem inv_run {n : Nat} {pool : IoServicePool} (hp : IoServicePool.new n = .ok pool) :
    Inv env junk (run pool) where
  home := by
    obtain ⟨hhome, hsize⟩ := run_home hp
    rw [hhome, hsize]
  sound _ _ h := by simp [run] at h
  callbacks i := by
    refine ⟨fun h => absurd h Loops.not_runs_idle, ?_⟩
    rintro ⟨c, hc, -⟩
    simp [run] at hc
  acceptor := ⟨fun h => absurd h Loops.not_runs_idle, fun h => by simp [run] at h⟩
  signal _ h := by simp [run] at h
  signals := by simp [run]
  accepting _ := AcceptPhase.noConfusion
  pendingOpen _ := rfl
  closed _ h := by simp [run] at h
  late h := by
    obtain ⟨stop, hstop, -⟩ := h
    simp [run] at hstop
  cut _ _ h := by simp [run] at h

theorem Swept.acceptorClosed (hi : Inv env junk s) (h : s.Swept) : s.acceptorOpen = false := by
  obtain ⟨stop, hstop, hclose, -⟩ := h
  exact hi.closed stop hstop hclose

/-! ### Connections -/

theorem onConnection_eq {i : Nat} {f : ManagedConnection → Option ManagedConnection}
    (h : s.onConnection i f = some s') :
    ∃ c c', s.connections[i]? = some c ∧ f c = some c' ∧
      s' = { s with connections := s.connections.set i c' } := by
  unfold onConnection at h
  obtain ⟨c', hc', rfl⟩ := Option.map_eq_some_iff.mp h
  obtain ⟨c, hc, hf⟩ := Option.bind_eq_some_iff.mp hc'
  exact ⟨c, c', hc, hf, rfl⟩

theorem begin_eq {t : Task} (h : s.begin t = some s') :
    ∃ loops, s.loops.begin (s.home t) t = some loops ∧ s' = { s with loops := loops } := by
  obtain ⟨loops, hloops, rfl⟩ := Option.map_eq_some_iff.mp h
  exact ⟨loops, hloops, rfl⟩

/-- **A step of one connection** keeps the invariant, where its loop runs what it is in. -/
theorem Inv.advance (hi : Inv env junk s) {i : Nat} {c c' : ManagedConnection}
    (hc : s.connections[i]? = some c) (ha : c.Advances (env i) (junk i) c') (loops : Loops Nat Task)
    (hself : Runs s.home loops (.connection i) ↔ c'.phase.inCallback = true)
    (hother : ∀ t, t ≠ .connection i → (Runs s.home loops t ↔ Runs s.home s.loops t)) :
    Inv env junk { s with loops := loops, connections := s.connections.set i c' } := by
  obtain ⟨hlt, hget⟩ := List.getElem?_eq_some_iff.mp hc
  have hset : ∀ j d, (s.connections.set i c')[j]? = some d →
      j = i ∧ d = c' ∨ j ≠ i ∧ s.connections[j]? = some d := by
    intro j d hd
    by_cases hj : j = i
    · subst hj
      rw [List.getElem?_set_self hlt] at hd
      exact .inl ⟨rfl, (Option.some.inj hd).symm⟩
    · rw [List.getElem?_set_ne (Ne.symm hj)] at hd
      exact .inr ⟨hj, hd⟩
  have hcount : (s.connections.set i c').countP (·.managed) ≤ s.connections.countP (·.managed) := by
    rw [List.countP_set (h := hlt), hget]
    have hmanaged := ha.managed (hi.sound i c hc)
    by_cases hm : c'.managed = true
    · have hpos : 0 < s.connections.countP (·.managed) :=
        List.countP_pos_iff.mpr ⟨c, List.mem_of_getElem? hc, hmanaged hm⟩
      simp only [hm, hmanaged hm, if_true]
      omega
    · simp only [hm]
      simp
  refine ⟨hi.home, fun j d hd => ?_, fun j => ?_, ?_, fun stop hs hb hd => ?_, hi.signals, hi.accepting,
    hi.pendingOpen, hi.closed, fun h => ?_, fun j d hd hclosed hlive => ?_⟩
  · rcases hset j d hd with ⟨rfl, rfl⟩ | ⟨-, hd⟩
    · exact ha.sound
    · exact hi.sound j d hd
  · by_cases hj : j = i
    · subst hj
      rw [hself]
      refine ⟨fun h => ⟨c', List.getElem?_set_self hlt, h⟩, ?_⟩
      rintro ⟨d, hd, hrun⟩
      rcases hset j d hd with ⟨-, rfl⟩ | ⟨hne, -⟩
      · exact hrun
      · exact absurd rfl hne
    · have hsame : (s.connections.set i c')[j]? = s.connections[j]? := List.getElem?_set_ne (Ne.symm hj)
      rw [hother _ fun h => hj (Task.connection.inj h), hi.callbacks j]
      simp only [hsame]
  · rw [hother _ Task.noConfusion]
    exact hi.acceptor
  · rw [hother _ Task.noConfusion]
    exact hi.signal stop hs hb hd
  · obtain ⟨hlate, hsingle⟩ := hi.late h
    have hle : kept { s with loops := loops, connections := s.connections.set i c' } ≤ s.kept := by
      unfold kept
      simp only
      omega
    exact ⟨hle.trans hlate, fun hs => Nat.le_zero.mp (hle.trans (hsingle ⟨hs.home, hs.calls⟩).le)⟩
  · rcases hset j d hd with ⟨rfl, rfl⟩ | ⟨-, hd⟩
    · rcases ha.closing with hsame | hidle
      · exact hi.cut j c hc (hsame ▸ hclosed) ha.live
      · exact absurd hidle hlive
    · exact hi.cut j d hd hclosed hlive

/-- The loops are as they were. -/
theorem Inv.advance_kernel (hi : Inv env junk s) {i : Nat} {c c' : ManagedConnection}
    (hc : s.connections[i]? = some c) (ha : c.Advances (env i) (junk i) c')
    (hbefore : c.phase.inCallback = false) (hbehind : c'.phase.inCallback = false) :
    Inv env junk { s with connections := s.connections.set i c' } := by
  refine hi.advance hc ha s.loops ?_ fun _ _ => Iff.rfl
  rw [hi.callbacks i, hbehind]
  refine iff_of_false ?_ Bool.false_ne_true
  rintro ⟨d, hd, hrun⟩
  rw [hc] at hd
  cases hd
  rw [hbefore] at hrun
  cases hrun

/-- A callback begins. -/
theorem Inv.advance_begin (hi : Inv env junk s) {i : Nat} {c c' : ManagedConnection} {loops : Loops Nat Task}
    (hbegin : s.loops.begin (s.home (.connection i)) (.connection i) = some loops)
    (hc : s.connections[i]? = some c) (ha : c.Advances (env i) (junk i) c')
    (hbehind : c'.phase.inCallback = true) :
    Inv env junk { s with loops := loops, connections := s.connections.set i c' } := by
  refine hi.advance hc ha loops ?_ fun t ht => ?_
  · rw [Loops.runs_begin hbegin, hbehind]
    exact iff_of_true (.inl rfl) rfl
  · rw [Loops.runs_begin hbegin, or_iff_right ht]

/-- It ends. -/
theorem Inv.advance_finish (hi : Inv env junk s) {i : Nat} {c c' : ManagedConnection}
    (hc : s.connections[i]? = some c) (ha : c.Advances (env i) (junk i) c')
    (hbefore : c.phase.inCallback = true) (hbehind : c'.phase.inCallback = false) :
    Inv env junk { s.finish (.connection i) with connections := s.connections.set i c' } := by
  have hruns := (hi.callbacks i).mpr ⟨c, hc, hbefore⟩
  refine hi.advance hc ha (s.loops.finish (s.home (.connection i))) ?_ fun t ht => ?_
  · rw [Loops.runs_finish hruns, hbehind]
    exact iff_of_false (fun h => h.2 rfl) Bool.false_ne_true
  · rw [Loops.runs_finish hruns, and_iff_left ht]

/-- The invariant does not look at what ends the process. -/
theorem Inv.terminate (hi : Inv env junk s) : Inv env junk { s with terminated := true } :=
  ⟨hi.home, hi.sound, hi.callbacks, hi.acceptor, hi.signal, hi.signals, hi.accepting, hi.pendingOpen, hi.closed,
    fun h => ⟨(hi.late h).1, fun hs => (hi.late h).2 ⟨hs.home, hs.calls⟩⟩, hi.cut⟩

theorem Inv.readBegins (hi : Inv env junk s) {i : Nat} {connected : Bool}
    (hs : s.readBegins env i connected = some s') : Inv env junk s' := by
  unfold ServerImpl.readBegins at hs
  split at hs
  · rename_i c hc
    split at hs
    · obtain ⟨begun, hbegun, hs⟩ := Option.bind_eq_some_iff.mp hs
      obtain ⟨loops, hloops, rfl⟩ := begin_eq hbegun
      split_ifs at hs
      · cases hs
        exact hi.terminate
      · obtain ⟨d, c', hd, hf, rfl⟩ := onConnection_eq hs
        obtain ⟨ha, -, hbehind⟩ := ManagedConnection.readBegins_advances (hi.sound i d hd) hf
        exact hi.advance_begin hloops hd ha hbehind
    · cases hs
  · cases hs

theorem Inv.readEnds (hi : Inv env junk s) {i : Nat} (hs : s.readEnds i = some s') : Inv env junk s' := by
  unfold ServerImpl.readEnds at hs
  split at hs
  · split at hs
    · cases hs
      exact hi.terminate
    · obtain ⟨c, c', hc, hf, rfl⟩ := onConnection_eq hs
      obtain ⟨ha, hbefore, hbehind⟩ := ManagedConnection.readEnds_advances (hi.sound i c hc) hf
      exact hi.advance_finish hc ha hbefore hbehind
  · cases hs

/-! ### Accepting -/

/-- The acceptor and its callback move on, and no connection does. -/
theorem Inv.accepts (hi : Inv env junk s) (loops : Loops Nat Task) (accept : AcceptPhase)
    (hself : Runs s.home loops .accept ↔ accept = .checked ∨ accept = .restarting)
    (hother : ∀ t, t ≠ .accept → (Runs s.home loops t ↔ Runs s.home s.loops t))
    (haccepting : s.acceptorOpen = true → accept ≠ .finished)
    (hpending : accept = .pending → s.acceptorOpen = true)
    (hchecked : accept = .checked → s.acceptorOpen = true) :
    Inv env junk { s with loops := loops, accept := accept } where
  home := hi.home
  sound := hi.sound
  callbacks i := (hother _ Task.noConfusion).trans (hi.callbacks i)
  acceptor := hself
  signal stop hs hb hd := (hother _ Task.noConfusion).mpr (hi.signal stop hs hb hd)
  signals := hi.signals
  accepting := haccepting
  pendingOpen := hpending
  closed := hi.closed
  late h := by
    obtain ⟨hlate, hsingle⟩ := hi.late h
    have hnot : accept ≠ .checked := fun hc =>
      absurd (hchecked hc) (by rw [Swept.acceptorClosed hi h]; decide)
    have hle : kept { s with loops := loops, accept := accept } ≤ s.kept := by
      unfold kept
      simp only [if_neg hnot]
      omega
    exact ⟨hle.trans hlate, fun hs => Nat.le_zero.mp (hle.trans (hsingle ⟨hs.home, hs.calls⟩).le)⟩
  cut := hi.cut

theorem Inv.acceptCompletes (hi : Inv env junk s) {ok : Bool} (hs : s.acceptCompletes ok = some s') :
    Inv env junk s' := by
  unfold ServerImpl.acceptCompletes at hs
  split_ifs at hs with hp
  cases hs
  refine hi.accepts s.loops (.completed ok) ?_ (fun _ _ => Iff.rfl) (fun _ => AcceptPhase.noConfusion)
    AcceptPhase.noConfusion AcceptPhase.noConfusion
  rw [hi.acceptor, hp]
  simp

theorem Inv.acceptBegins (hi : Inv env junk s) (hs : s.acceptBegins = some s') : Inv env junk s' := by
  unfold ServerImpl.acceptBegins at hs
  split at hs
  · rename_i ok hp
    obtain ⟨begun, hbegun, rfl⟩ := Option.map_eq_some_iff.mp hs
    obtain ⟨loops, hloops, rfl⟩ := begin_eq hbegun
    have hruns (t : Task) : Runs s.home loops t ↔ t = .accept ∨ Runs s.home s.loops t :=
      Loops.runs_begin hloops
    have hbegins : Runs s.home loops .accept := (hruns .accept).mpr (.inl rfl)
    split
    · rename_i hopen
      refine hi.accepts loops (if ok then .checked else .restarting) (iff_of_true hbegins ?_)
        (fun t ht => by rw [hruns, or_iff_right ht]) (fun _ => ?_) (fun h => ?_) fun _ => hopen
      · cases ok <;> simp
      · cases ok <;> simp
      · cases ok <;> cases h
    · rename_i hopen
      refine hi.accepts (loops.finish (s.home .accept)) .finished ?_ (fun t ht => ?_)
        (fun h => absurd h hopen) AcceptPhase.noConfusion AcceptPhase.noConfusion
      · rw [Loops.runs_finish hbegins]
        simp
      · rw [Loops.runs_finish hbegins, hruns, or_iff_right ht, and_iff_left ht]
  · cases hs

theorem Inv.acceptAgain (hi : Inv env junk s) (hs : s.acceptAgain = some s') : Inv env junk s' := by
  unfold ServerImpl.acceptAgain at hs
  by_cases hp : s.accept = .restarting
  case neg =>
    rw [if_neg hp] at hs
    cases hs
  rw [if_pos hp] at hs
  cases hs
  have hruns := hi.acceptor.mpr (.inr hp)
  refine hi.accepts (s.loops.finish (s.home .accept))
    (if s.acceptorOpen then .pending else .completed false) ?_ (fun t ht => ?_) (fun _ => ?_)
    (fun h => ?_) fun h => ?_
  · rw [Loops.runs_finish hruns]
    cases s.acceptorOpen <;> simp
  · rw [Loops.runs_finish hruns, and_iff_left ht]
  · split_ifs
    exact AcceptPhase.noConfusion
  · split_ifs at h with hopen
    exact hopen
  · split_ifs at h

/-- A new connection is one that the callback had tested the acceptor for. -/
theorem Inv.acceptStarts (hi : Inv env junk s) (hs : s.acceptStarts junk = some s') : Inv env junk s' := by
  unfold ServerImpl.acceptStarts at hs
  split_ifs at hs with hp
  cases hs
  have hnew : ∀ (i : Nat) (c : ManagedConnection),
      (s.connections ++ [.start (junk s.connections.length)])[i]? = some c →
      s.connections[i]? = some c ∨ i = s.connections.length ∧ c = .start (junk i) := by
    intro i c hc
    rcases Nat.lt_trichotomy i s.connections.length with hlt | rfl | hgt
    · rw [List.getElem?_append_left hlt] at hc
      exact .inl hc
    · rw [List.getElem?_concat_length] at hc
      exact .inr ⟨rfl, (Option.some.inj hc).symm⟩
    · rw [List.getElem?_eq_none (by simpa using hgt)] at hc
      cases hc
  refine ⟨hi.home, fun i c hc => ?_, fun i => ?_, ?_, hi.signal, hi.signals, fun _ => AcceptPhase.noConfusion,
    AcceptPhase.noConfusion, hi.closed, fun h => ?_, fun i c hc hclosed hlive => ?_⟩
  · rcases hnew i c hc with hold | ⟨-, rfl⟩
    · exact hi.sound i c hold
    · exact ManagedConnection.start_sound
  · simp only
    rw [hi.callbacks i]
    constructor
    · rintro ⟨c, hc, hrun⟩
      refine ⟨c, ?_, hrun⟩
      rw [List.getElem?_append_left (List.getElem?_eq_some_iff.mp hc).1]
      exact hc
    · rintro ⟨c, hc, hrun⟩
      rcases hnew i c hc with hold | ⟨-, rfl⟩
      · exact ⟨c, hold, hrun⟩
      · cases hrun
  · simp only
    rw [hi.acceptor, hp]
    simp
  · obtain ⟨hlate, hsingle⟩ := hi.late h
    have hone : List.countP (·.managed) [ManagedConnection.start (junk s.connections.length)] = 1 := rfl
    have hsame : kept { s with
        connections := s.connections ++ [.start (junk s.connections.length)], accept := .restarting } =
        s.kept := by
      unfold kept
      simp only [hp, if_true, List.countP_append, hone, reduceCtorEq, if_false]
    rw [hsame]
    exact ⟨hlate, fun hs => hsingle ⟨hs.home, hs.calls⟩⟩
  · rcases hnew i c hc with hold | ⟨-, rfl⟩
    · exact hi.cut i c hold hclosed hlive
    · cases hclosed

/-! ### Stopping -/

/-- A call of `handle_stop` moves on, and nothing else does. -/
theorem Inv.stops (hi : Inv env junk s) (loops : Loops Nat Task) (awaiting : Bool) {stops : List Stop}
    (hother : ∀ t, t ≠ .signal → (Runs s.home loops t ↔ Runs s.home s.loops t))
    (hsignal : ∀ stop ∈ stops, stop.bySignal = true → stop.phase ≠ .done → Runs s.home loops .signal)
    (hsignals : stops.countP (·.bySignal) + (if awaiting then 1 else 0) ≤ 1)
    (hclosed : ∀ stop ∈ stops, stop.phase ≠ .close → s.acceptorOpen = false)
    (hcalls : (∀ stop ∈ stops, stop.bySignal = true) → ∀ stop ∈ s.stops, stop.bySignal = true)
    (hswept : (∃ stop ∈ stops, stop.phase ≠ .close ∧ stop.phase ≠ .stopAll) ↔ s.Swept) :
    Inv env junk { s with loops := loops, awaiting := awaiting, stops := stops } where
  home := hi.home
  sound := hi.sound
  callbacks i := (hother _ Task.noConfusion).trans (hi.callbacks i)
  acceptor := (hother _ Task.noConfusion).trans hi.acceptor
  signal := hsignal
  signals := hsignals
  accepting := hi.accepting
  pendingOpen := hi.pendingOpen
  closed := hclosed
  late h := by
    obtain ⟨hlate, hsingle⟩ := hi.late (hswept.mp h)
    exact ⟨hlate, fun hs => hsingle ⟨hs.home, hcalls hs.calls⟩⟩
  cut i c hc hopen hlive := hswept.mpr (hi.cut i c hc hopen hlive)

/-- A new call of `handle_stop`. -/
theorem swept_concat (s : ServerImpl) (bySignal : Bool) :
    (∃ stop ∈ s.stops ++ [⟨bySignal, .close⟩], stop.phase ≠ .close ∧ stop.phase ≠ .stopAll) ↔ s.Swept := by
  constructor
  · rintro ⟨stop, hstop, hclose, hall⟩
    rcases List.mem_append.mp hstop with hold | hnew
    · exact ⟨stop, hold, hclose, hall⟩
    · rw [List.mem_singleton.mp hnew] at hclose
      exact absurd rfl hclose
  · rintro ⟨stop, hstop, h⟩
    exact ⟨stop, List.mem_append_left _ hstop, h⟩

theorem closed_concat (hi : Inv env junk s) (bySignal : Bool) (stop : Stop)
    (hstop : stop ∈ s.stops ++ [⟨bySignal, .close⟩]) (hne : stop.phase ≠ .close) :
    s.acceptorOpen = false := by
  rcases List.mem_append.mp hstop with hold | hnew
  · exact hi.closed stop hold hne
  · rw [List.mem_singleton.mp hnew] at hne
    exact absurd rfl hne

theorem Inv.stop (hi : Inv env junk s) :
    Inv env junk { s with stops := s.stops ++ [⟨false, .close⟩] } := by
  refine hi.stops s.loops s.awaiting (fun _ _ => Iff.rfl)
    (fun stop hstop hb hd => ?_) ?_ (closed_concat hi false)
    (fun h stop hstop => h stop (List.mem_append_left _ hstop)) (swept_concat s false)
  · rcases List.mem_append.mp hstop with hold | hnew
    · exact hi.signal stop hold hb hd
    · rw [List.mem_singleton.mp hnew] at hb
      cases hb
  · have hsignals := hi.signals
    rw [List.countP_append]
    simpa using hsignals

theorem Inv.signalled (hi : Inv env junk s) (hawaiting : s.awaiting = true) {begun : ServerImpl}
    (hs : s.begin .signal = some begun) :
    Inv env junk { begun with awaiting := false, stops := begun.stops ++ [⟨true, .close⟩] } := by
  obtain ⟨loops, hloops, rfl⟩ := begin_eq hs
  refine hi.stops loops false (fun t ht => ?_) (fun _ _ _ _ => ?_) ?_ (closed_concat hi true)
    (fun h stop hstop => h stop (List.mem_append_left _ hstop)) (swept_concat s true)
  · rw [Loops.runs_begin hloops, or_iff_right ht]
  · rw [Loops.runs_begin hloops]
    exact .inl rfl
  · have hsignals := hi.signals
    have hone : List.countP (·.bySignal) [(⟨true, .close⟩ : Stop)] = 1 := rfl
    rw [if_pos hawaiting] at hsignals
    rw [List.countP_append, hone, if_neg Bool.false_ne_true]
    exact hsignals

theorem Inv.closeAcceptor (hi : Inv env junk s) : Inv env junk s.closeAcceptor where
  home := hi.home
  sound := hi.sound
  callbacks := hi.callbacks
  acceptor := by
    refine Iff.trans hi.acceptor ?_
    unfold ServerImpl.closeAcceptor
    by_cases hp : s.accept = .pending <;> simp [hp]
  signal := hi.signal
  signals := hi.signals
  accepting h := Bool.noConfusion h
  pendingOpen h := by
    unfold ServerImpl.closeAcceptor at h
    by_cases hp : s.accept = .pending <;> simp [hp] at h
  closed _ _ _ := rfl
  late h := by
    have hsame : s.closeAcceptor.kept = s.kept := by
      unfold kept ServerImpl.closeAcceptor
      by_cases hp : s.accept = .pending <;> simp [hp]
    rw [hsame]
    exact ⟨(hi.late h).1, fun hs => (hi.late h).2 ⟨hs.home, hs.calls⟩⟩
  cut := hi.cut

/-- Behind `stop_all` no connection is managed. -/
theorem countP_stopAll (s : ServerImpl) : s.stopAll.connections.countP (·.managed) = 0 := by
  rw [List.countP_eq_zero]
  intro c hc
  obtain ⟨d, -, rfl⟩ := List.mem_map.mp hc
  split_ifs with hm
  · exact Bool.false_ne_true
  · exact hm

theorem stopAll_getElem? {i : Nat} {c : ManagedConnection} (hc : s.stopAll.connections[i]? = some c) :
    ∃ d, s.connections[i]? = some d ∧ c = if d.managed then d.stop else d := by
  rw [stopAll, List.getElem?_map] at hc
  obtain ⟨d, hd, rfl⟩ := Option.map_eq_some_iff.mp hc
  exact ⟨d, hd, rfl⟩

theorem stop_inCallback (c : ManagedConnection) : c.stop.phase.inCallback = c.phase.inCallback := by
  unfold ManagedConnection.stop ManagedConnection.close
  cases c.phase <;> rfl

/-- `stop_all`, by a call that has closed the acceptor. -/
theorem Inv.stopAll (hi : Inv env junk s) {stops : List Stop} (hopen : s.acceptorOpen = false)
    (hsignal : ∀ stop ∈ stops, stop.bySignal = true → stop.phase ≠ .done → Runs s.home s.loops .signal)
    (hsignals : stops.countP (·.bySignal) + (if s.awaiting then 1 else 0) ≤ 1)
    (hsingle : s.home .accept = s.home .signal → (∀ stop ∈ stops, stop.bySignal = true) →
      s.accept ≠ .checked)
    (hswept : ∃ stop ∈ stops, stop.phase ≠ .close ∧ stop.phase ≠ .stopAll) :
    Inv env junk { s.stopAll with stops := stops } where
  home := hi.home
  sound i c hc := by
    obtain ⟨d, hd, rfl⟩ := stopAll_getElem? hc
    have hsound := hi.sound i d hd
    split_ifs
    · exact ManagedConnection.stop_sound hsound
    · exact hsound
  callbacks i := by
    refine Iff.trans (hi.callbacks i) ⟨?_, ?_⟩
    · rintro ⟨c, hc, hrun⟩
      refine ⟨if c.managed then c.stop else c, ?_, ?_⟩
      · simp only [ServerImpl.stopAll, List.getElem?_map, hc, Option.map_some]
      · split_ifs
        · rw [stop_inCallback]
          exact hrun
        · exact hrun
    · rintro ⟨c, hc, hrun⟩
      obtain ⟨d, hd, rfl⟩ := stopAll_getElem? hc
      refine ⟨d, hd, ?_⟩
      split_ifs at hrun
      · rwa [stop_inCallback] at hrun
      · exact hrun
  acceptor := hi.acceptor
  signal := hsignal
  signals := hsignals
  accepting := hi.accepting
  pendingOpen := hi.pendingOpen
  closed _ _ _ := hopen
  late _ := by
    have hzero := countP_stopAll s
    unfold kept
    simp only [hzero, Nat.zero_add]
    refine ⟨by split_ifs <;> decide, fun hs => if_neg (hsingle hs.home hs.calls)⟩
  cut _ _ _ _ _ := hswept

/-- A call of `handle_stop` has come from one step to the next. -/
theorem swept_set {k : Nat} {bySignal : Bool} {phase phase' : StopPhase}
    (hk : s.stops[k]? = some ⟨bySignal, phase⟩)
    (hphase : phase' ≠ .close ∧ phase' ≠ .stopAll ↔ phase ≠ .close ∧ phase ≠ .stopAll) :
    (∃ stop ∈ s.stops.set k ⟨bySignal, phase'⟩, stop.phase ≠ .close ∧ stop.phase ≠ .stopAll) ↔ s.Swept := by
  obtain ⟨hlt, hget⟩ := List.getElem?_eq_some_iff.mp hk
  constructor
  · rintro ⟨stop, hstop, hne⟩
    rcases List.mem_or_eq_of_mem_set hstop with hold | rfl
    · exact ⟨stop, hold, hne⟩
    · exact ⟨_, List.mem_of_getElem? hk, hphase.mp hne⟩
  · rintro ⟨stop, hstop, hne⟩
    obtain ⟨j, hj, hjget⟩ := List.getElem_of_mem hstop
    by_cases hjk : j = k
    · subst hjk
      rw [hget] at hjget
      subst hjget
      exact ⟨⟨bySignal, phase'⟩, List.mem_set hlt _, hphase.mpr hne⟩
    · refine ⟨stop, ?_, hne⟩
      rw [← hjget, ← List.getElem_set_ne (Ne.symm hjk) (by simpa using hj)]
      exact List.getElem_mem _

theorem signals_set {k : Nat} {bySignal : Bool} {phase phase' : StopPhase}
    (hk : s.stops[k]? = some ⟨bySignal, phase⟩) :
    (s.stops.set k ⟨bySignal, phase'⟩).countP (·.bySignal) = s.stops.countP (·.bySignal) := by
  obtain ⟨hlt, hget⟩ := List.getElem?_eq_some_iff.mp hk
  rw [List.countP_set (h := hlt), hget]
  cases bySignal with
  | false => simp
  | true =>
    have hpos : 0 < s.stops.countP (·.bySignal) :=
      List.countP_pos_iff.mpr ⟨_, List.mem_of_getElem? hk, rfl⟩
    exact Nat.sub_add_cancel hpos

/-- A call that goes on holds its loop as before. -/
theorem signal_set (hi : Inv env junk s) {k : Nat} {bySignal : Bool} {phase phase' : StopPhase}
    (hk : s.stops[k]? = some ⟨bySignal, phase⟩) (hphase : phase ≠ .done) (stop : Stop)
    (hstop : stop ∈ s.stops.set k ⟨bySignal, phase'⟩) (hb : stop.bySignal = true)
    (hd : stop.phase ≠ .done) : Runs s.home s.loops .signal := by
  rcases List.mem_or_eq_of_mem_set hstop with hold | rfl
  · exact hi.signal stop hold hb hd
  · exact hi.signal _ (List.mem_of_getElem? hk) hb hphase

/-- The one call of the signals has no other beside it. -/
theorem signal_alone (hi : Inv env junk s) {k : Nat} {phase phase' : StopPhase}
    (hk : s.stops[k]? = some ⟨true, phase⟩) {stop : Stop} (hstop : stop ∈ s.stops.set k ⟨true, phase'⟩)
    (hb : stop.bySignal = true) : stop = ⟨true, phase'⟩ := by
  obtain ⟨hlt, hget⟩ := List.getElem?_eq_some_iff.mp hk
  obtain ⟨j, hj, hjget⟩ := List.getElem_of_mem hstop
  by_cases hjk : j = k
  · subst hjk
    rw [List.getElem_set_self] at hjget
    exact hjget.symm
  · exfalso
    rw [List.getElem_set_ne (Ne.symm hjk)] at hjget
    have hj' : j < s.stops.length := by simpa using hj
    have htwo : 2 ≤ s.stops.countP (·.bySignal) := by
      have hrest : (s.stops.set k ⟨false, phase⟩).countP (·.bySignal) + 1 = s.stops.countP (·.bySignal) := by
        have hpos : 0 < s.stops.countP (·.bySignal) :=
          List.countP_pos_iff.mpr ⟨_, List.mem_of_getElem? hk, rfl⟩
        rw [List.countP_set (h := hlt), hget]
        simp only [if_true, Bool.false_eq_true, if_false]
        omega
      have hone : 0 < (s.stops.set k ⟨false, phase⟩).countP (·.bySignal) := by
        refine List.countP_pos_iff.mpr ⟨stop, ?_, hb⟩
        rw [← hjget, ← List.getElem_set_ne (Ne.symm hjk) (by simpa using hj')]
        exact List.getElem_mem _
      omega
    have hsignals := hi.signals
    omega

theorem calls_set {k : Nat} {bySignal : Bool} {phase phase' : StopPhase}
    (hk : s.stops[k]? = some ⟨bySignal, phase⟩)
    (h : ∀ stop ∈ s.stops.set k ⟨bySignal, phase'⟩, stop.bySignal = true) (stop : Stop)
    (hstop : stop ∈ s.stops) : stop.bySignal = true := by
  obtain ⟨hlt, hget⟩ := List.getElem?_eq_some_iff.mp hk
  obtain ⟨j, hj, hjget⟩ := List.getElem_of_mem hstop
  by_cases hjk : j = k
  · subst hjk
    have hb := h ⟨bySignal, phase'⟩ (List.mem_set hlt _)
    rw [← hjget, hget]
    exact hb
  · refine h stop ?_
    rw [← hjget, ← List.getElem_set_ne (Ne.symm hjk) (by simpa using hj)]
    exact List.getElem_mem _

theorem Inv.stopContinues (hi : Inv env junk s) {k : Nat} (hs : s.stopContinues k = some s') :
    Inv env junk s' := by
  unfold ServerImpl.stopContinues at hs
  split at hs
  case h_2 => cases hs
  rename_i bySignal phase hk
  have hset : ∀ phase', phase ≠ .close → ∀ stop ∈ s.stops.set k ⟨bySignal, phase'⟩, stop.phase ≠ .close →
      s.acceptorOpen = false := by
    intro phase' hne _ _ _
    exact hi.closed _ (List.mem_of_getElem? hk) hne
  have hsignals : ∀ phase', (s.stops.set k ⟨bySignal, phase'⟩).countP (·.bySignal) +
      (if s.awaiting then 1 else 0) ≤ 1 := fun phase' => by
    rw [signals_set hk]
    exact hi.signals
  cases phase with
  | close =>
    cases hs
    have hclosed := hi.closeAcceptor
    have hsame : Inv env junk { s.closeAcceptor with
        loops := s.closeAcceptor.loops, awaiting := s.closeAcceptor.awaiting
        stops := s.stops.set k ⟨bySignal, .stopAll⟩ } :=
      hclosed.stops s.closeAcceptor.loops s.closeAcceptor.awaiting (fun _ _ => Iff.rfl) (signal_set hi hk StopPhase.noConfusion) (hsignals _)
        (fun _ _ _ => rfl) (calls_set (s := s) hk) (swept_set (s := s.closeAcceptor) hk (by simp))
    exact hsame
  | stopAll =>
    cases hs
    refine hi.stopAll (hi.closed _ (List.mem_of_getElem? hk) StopPhase.noConfusion)
      (signal_set hi hk StopPhase.noConfusion) (hsignals _) (fun hhome hcalls hchecked => ?_) ?_
    · -- the callback of the signals holds the loop of the acceptor
      have hcall := hi.signal _ (List.mem_of_getElem? hk) (calls_set hk hcalls _ (List.mem_of_getElem? hk))
        StopPhase.noConfusion
      have haccept := hi.acceptor.mpr (.inl hchecked)
      exact Task.noConfusion (haccept.alone hcall hhome)
    exact ⟨⟨bySignal, .pool 0⟩, List.mem_set (List.getElem?_eq_some_iff.mp hk).1 _, by simp, by simp⟩
  | pool i =>
    simp only at hs
    split_ifs at hs with hmore hb
    · cases hs
      exact hi.stops (s.loops.stop i) s.awaiting (fun _ _ => Iff.rfl)
        (signal_set hi hk StopPhase.noConfusion) (hsignals _) (hset _ StopPhase.noConfusion)
        (calls_set hk) (swept_set hk (by simp))
    · -- the callback of the signals returns
      cases hs
      subst hb
      have hruns := hi.signal _ (List.mem_of_getElem? hk) rfl StopPhase.noConfusion
      refine hi.stops (s.loops.finish (s.home .signal)) s.awaiting (fun t ht => ?_)
        (fun stop hstop hb hd => ?_) (hsignals _) (hset _ StopPhase.noConfusion) (calls_set hk)
        (swept_set hk (by simp))
      · rw [Loops.runs_finish hruns, and_iff_left ht]
      · rw [signal_alone hi hk hstop hb] at hd
        exact absurd rfl hd
    · cases hs
      exact hi.stops s.loops s.awaiting (fun _ _ => Iff.rfl)
        (signal_set hi hk StopPhase.noConfusion) (hsignals _) (hset _ StopPhase.noConfusion)
        (calls_set hk) (swept_set hk (by simp))
  | done => cases hs

/-! ### Runs -/

/-- **Every event keeps the invariant.** -/
theorem Inv.step (hi : Inv env junk s) {e : Event} (hs : s.step env junk e = some s') : Inv env junk s' := by
  unfold ServerImpl.step at hs
  split at hs
  · cases hs
  cases e with
  | acceptCompletes ok => exact hi.acceptCompletes hs
  | acceptBegins => exact hi.acceptBegins hs
  | acceptStarts => exact hi.acceptStarts hs
  | acceptAgain => exact hi.acceptAgain hs
  | readCompletes i r =>
    obtain ⟨c, c', hc, hf, rfl⟩ := onConnection_eq hs
    obtain ⟨ha, hbefore, hbehind⟩ := ManagedConnection.readCompletes_advances (hi.sound i c hc) hf
    exact hi.advance_kernel hc ha hbefore hbehind
  | readBegins i connected => exact hi.readBegins hs
  | readEnds i => exact hi.readEnds hs
  | writeCompletes i ok =>
    obtain ⟨c, c', hc, hf, rfl⟩ := onConnection_eq hs
    obtain ⟨ha, hbefore, hbehind⟩ := ManagedConnection.writeCompletes_advances (hi.sound i c hc) hf
    exact hi.advance_kernel hc ha hbefore hbehind
  | writeBegins i =>
    obtain ⟨begun, hbegun, hs⟩ := Option.bind_eq_some_iff.mp hs
    obtain ⟨loops, hloops, rfl⟩ := begin_eq hbegun
    obtain ⟨c, c', hc, hf, rfl⟩ := onConnection_eq hs
    obtain ⟨ha, -, hbehind⟩ := ManagedConnection.writeBegins_advances (hi.sound i c hc) hf
    exact hi.advance_begin hloops hc ha hbehind
  | writeEnds i =>
    obtain ⟨ended, hended, rfl⟩ := Option.map_eq_some_iff.mp hs
    obtain ⟨c, c', hc, hf, rfl⟩ := onConnection_eq hended
    obtain ⟨ha, hbefore, hbehind⟩ := ManagedConnection.writeEnds_advances (hi.sound i c hc) hf
    exact hi.advance_finish hc ha hbefore hbehind
  | signal =>
    simp only at hs
    split_ifs at hs with hawaiting
    obtain ⟨begun, hbegun, rfl⟩ := Option.map_eq_some_iff.mp hs
    exact hi.signalled hawaiting hbegun
  | stop =>
    cases hs
    exact hi.stop
  | stopContinues k => exact hi.stopContinues hs

/-- A run. -/
theorem Inv.steps (hi : Inv env junk s) {es : List Event} (hs : s.steps env junk es = some s') :
    Inv env junk s' := by
  induction es generalizing s with
  | nil =>
    cases hs
    exact hi
  | cons e es ih =>
    obtain ⟨s₁, hfirst, hrest⟩ := Option.bind_eq_some_iff.mp hs
    exact ih (hi.step hfirst) hrest

end ServerImpl

end Wsrv
