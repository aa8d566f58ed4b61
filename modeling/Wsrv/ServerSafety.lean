import Wsrv.Exchange
import Wsrv.ServerRuns

/-!
# What the server guarantees

The results on the runs of `ServerImpl`: whatever the threads and the kernel do
first, no open socket is forgotten (`nothing_forgotten`), each connection does
what `HttpConnection.serve` says (`connections_serve`), one callback of a
connection runs at a time (`callbacks_alone`), and a stop leaves at most one
connection behind (`late_connections`) and begins no callback when it has
returned (`nothing_begins`).
-/

namespace Wsrv

open EventLoop
open HttpConnection (emptyServer plainPost)

/-! ## What a step leaves as it was -/

namespace ManagedConnection

variable {c c' : ManagedConnection}

theorem readCompletes_seen {r : ReadCompletion} (h : c.readCompletes r = some c') : c'.seen = c.seen := by
  unfold readCompletes at h
  split at h
  · split_ifs at h
    cases h
    rfl
  · cases h
    rfl
  · cases h

theorem writeCompletes_seen {ok : Bool} (h : c.writeCompletes ok = some c') : c'.seen = c.seen := by
  unfold writeCompletes at h
  split at h <;> cases h
  rfl

theorem readEnds_seen (h : c.readEnds = some c') : c'.seen = c.seen := by
  unfold readEnds at h
  split at h <;> cases h <;> rfl

theorem writeBegins_seen (h : c.writeBegins = some c') : c'.seen = c.seen := by
  unfold writeBegins at h
  split at h <;> cases h
  rfl

theorem writeEnds_seen (h : c.writeEnds = some c') : c'.seen = c.seen := by
  unfold writeEnds at h
  split at h <;> cases h <;> rfl

/-- What a connection has written answers the completions whose callbacks have returned. -/
theorem serves_done {env : Environment} {junk : Bool} (h : c.Serves env junk) :
    ∃ done, (HttpConnection.new junk).serve env done = ⟨c.writes, none⟩ ∧
      ((∀ result, c.phase ≠ .inRead result) → done = c.seen) ∧
      ∀ result, c.phase = .inRead result → done = c.seen.dropLast := by
  have hopen {seen : List ReadCompletion} {http : HttpConnection} (hw : c.writes = [])
      (hleaves : Leaves env junk seen http) : (HttpConnection.new junk).serve env seen = ⟨c.writes, none⟩ := by
    have hserve := hleaves []
    rw [List.append_nil] at hserve
    rw [hserve, hw]
    rfl
  unfold Serves at h
  cases hp : c.phase with
  | inRead result =>
    rw [hp] at h
    obtain ⟨hw, before, r, hseen, -, hleaves⟩ := h
    refine ⟨before, hopen hw hleaves, fun hne => absurd rfl (hne result), fun _ _ => ?_⟩
    rw [hseen, List.dropLast_concat]
  | reading | readDone r =>
    rw [hp] at h
    exact ⟨c.seen, hopen h.1 h.2, fun _ => rfl, fun _ hin => by cases hin⟩
  | writing | writeDone w | inWrite w | idle =>
    rw [hp] at h
    exact ⟨c.seen, h, fun _ => rfl, fun _ hin => by cases hin⟩

end ManagedConnection

namespace ServerImpl

variable {env : Nat → Environment} {junk : Nat → Bool} {s s' s'' : ServerImpl}

/-- What the callbacks of a connection were given, nothing where there is none yet. -/
def seenBy (s : ServerImpl) (i : Nat) : List ReadCompletion := s.connections[i]?.elim [] (·.seen)

/-- A call of `handle_stop` has stopped the service. -/
def StopPhase.past (l : Nat) : StopPhase → Prop
  | .pool i => l < i
  | .done => True
  | _ => False

/-- What an event does not change, or in one direction only. -/
structure Follows (s s' : ServerImpl) : Prop where
  pool : s'.pool = s.pool
  home : s'.home = s.home
  stopped : ∀ l, s.loops.stopped l = true → s'.loops.stopped l = true
  /-- A connection is given nothing on a service that is stopped. -/
  seen : ∀ i, s.loops.stopped (s.home (.connection i)) = true → s'.seenBy i = s.seenBy i
  /-- The calls of `handle_stop` do stop the services. -/
  calls : ∀ stop ∈ s'.stops, ∀ l < s.pool.size, StopPhase.past l stop.phase →
    (∃ stop ∈ s.stops, StopPhase.past l stop.phase) ∨ s'.loops.stopped l = true

theorem Follows.of_stops (pool : s'.pool = s.pool) (home : s'.home = s.home)
    (stopped : ∀ l, s.loops.stopped l = true → s'.loops.stopped l = true)
    (seen : ∀ i, s.loops.stopped (s.home (.connection i)) = true → s'.seenBy i = s.seenBy i)
    (stops : s'.stops = s.stops) : s.Follows s' :=
  ⟨pool, home, stopped, seen, fun stop hstop _ _ hpast => .inl ⟨stop, stops ▸ hstop, hpast⟩⟩

theorem Follows.refl (s : ServerImpl) : s.Follows s :=
  .of_stops rfl rfl (fun _ h => h) (fun _ _ => rfl) rfl

theorem Follows.trans (h : s.Follows s') (h' : s'.Follows s'') : s.Follows s'' where
  pool := h'.pool.trans h.pool
  home := h'.home.trans h.home
  stopped l hl := h'.stopped l (h.stopped l hl)
  seen i hl := by
    have hl' : s'.loops.stopped (s'.home (.connection i)) = true := by
      rw [h.home]
      exact h.stopped _ hl
    exact (h'.seen i hl').trans (h.seen i hl)
  calls stop hstop l hl hpast := by
    rcases h'.calls stop hstop l (by rwa [h.pool]) hpast with ⟨stop', hstop', hpast'⟩ | hstopped
    · rcases h.calls stop' hstop' l hl hpast' with hold | hstopped
      · exact .inl hold
      · exact .inr (h'.stopped l hstopped)
    · exact .inr hstopped

theorem begin_stopped {t : Task} (h : s.begin t = some s') :
    s.loops.stopped (s.home t) = false ∧ s'.loops.stopped = s.loops.stopped ∧
      s' = { s with loops := s'.loops } := by
  obtain ⟨loops, hloops, rfl⟩ := begin_eq h
  obtain ⟨hfree, -, rfl⟩ := Loops.begin_eq hloops
  exact ⟨hfree, rfl, rfl⟩

/-- A step of a connection that gives it nothing. -/
theorem seenBy_onConnection {i : Nat} {f : ManagedConnection → Option ManagedConnection}
    (h : s.onConnection i f = some s') (hf : ∀ c c', f c = some c' → c'.seen = c.seen) (j : Nat) :
    s'.seenBy j = s.seenBy j := by
  obtain ⟨c, c', hc, hstep, rfl⟩ := onConnection_eq h
  unfold seenBy
  by_cases hj : j = i
  · subst hj
    simp only [List.getElem?_set_self (List.getElem?_eq_some_iff.mp hc).1, hc, Option.elim_some]
    exact hf c c' hstep
  · simp only [List.getElem?_set_ne (Ne.symm hj)]

theorem follows_onConnection {i : Nat} {f : ManagedConnection → Option ManagedConnection}
    (h : s.onConnection i f = some s') (hf : ∀ c c', f c = some c' → c'.seen = c.seen) : s.Follows s' := by
  have hseen := seenBy_onConnection h hf
  obtain ⟨c, c', -, -, rfl⟩ := onConnection_eq h
  exact .of_stops rfl rfl (fun _ hl => hl) (fun j _ => hseen j) rfl

theorem readBegins_follows {i : Nat} {connected : Bool} (hs : s.readBegins env i connected = some s') :
    s.Follows s' := by
  unfold ServerImpl.readBegins at hs
  split at hs
  · split at hs
    · obtain ⟨begun, hbegun, hs⟩ := Option.bind_eq_some_iff.mp hs
      obtain ⟨hfree, hsame, hbegun'⟩ := begin_stopped hbegun
      split_ifs at hs
      · cases hs
        exact .of_stops rfl rfl (fun _ hl => hl) (fun _ _ => rfl) rfl
      · obtain ⟨d, c', -, -, rfl⟩ := onConnection_eq hs
        rw [hbegun']
        refine .of_stops rfl rfl (fun l hl => by rw [hsame]; exact hl) (fun j hl => ?_) rfl
        have hj : j ≠ i := by
          rintro rfl
          exact absurd (hl.symm.trans hfree) (by decide)
        unfold seenBy
        simp only [List.getElem?_set_ne (Ne.symm hj)]
    · cases hs
  · cases hs

theorem readEnds_follows {i : Nat} (hs : s.readEnds i = some s') : s.Follows s' := by
  unfold ServerImpl.readEnds at hs
  split at hs
  · split at hs
    · cases hs
      exact .of_stops rfl rfl (fun _ hl => hl) (fun _ _ => rfl) rfl
    · obtain ⟨pool, home, stopped, seen, calls⟩ :=
        follows_onConnection hs fun _ _ => ManagedConnection.readEnds_seen
      exact ⟨pool, home, stopped, seen, calls⟩
  · cases hs

theorem acceptBegins_follows (hs : s.acceptBegins = some s') : s.Follows s' := by
  unfold ServerImpl.acceptBegins at hs
  split at hs
  · obtain ⟨begun, hbegun, rfl⟩ := Option.map_eq_some_iff.mp hs
    obtain ⟨-, hsame, hbegun'⟩ := begin_stopped hbegun
    have hstopped : ∀ l, s.loops.stopped l = true → begun.loops.stopped l = true := fun l hl => by
      rw [hsame]
      exact hl
    rw [hbegun']
    split
    · exact .of_stops rfl rfl hstopped (fun _ _ => rfl) rfl
    · exact .of_stops rfl rfl hstopped (fun _ _ => rfl) rfl
  · cases hs

theorem acceptStarts_follows (hs : s.acceptStarts junk = some s') : s.Follows s' := by
  unfold ServerImpl.acceptStarts at hs
  split_ifs at hs
  cases hs
  refine .of_stops rfl rfl (fun _ hl => hl) (fun i _ => ?_) rfl
  unfold seenBy
  simp only
  rcases Nat.lt_trichotomy i s.connections.length with hlt | rfl | hgt
  · rw [List.getElem?_append_left hlt]
  · rw [List.getElem?_concat_length, List.getElem?_eq_none (Nat.le_refl _)]
    rfl
  · rw [List.getElem?_eq_none (by simpa using hgt), List.getElem?_eq_none (Nat.le_of_lt hgt)]

/-- A call of `handle_stop` has come from `phase` to `phase'`. -/
theorem past_set {k : Nat} {bySignal : Bool} {phase phase' : StopPhase} {stopped : Nat → Bool}
    (hk : s.stops[k]? = some ⟨bySignal, phase⟩)
    (hnext : ∀ l < s.pool.size, StopPhase.past l phase' → StopPhase.past l phase ∨ stopped l = true)
    (stop : Stop) (hstop : stop ∈ s.stops.set k ⟨bySignal, phase'⟩) (l : Nat) (hl : l < s.pool.size)
    (hpast : StopPhase.past l stop.phase) :
    (∃ stop ∈ s.stops, StopPhase.past l stop.phase) ∨ stopped l = true := by
  rcases List.mem_or_eq_of_mem_set hstop with hold | rfl
  · exact .inl ⟨stop, hold, hpast⟩
  · rcases hnext l hl hpast with hpast | hstopped
    · exact .inl ⟨_, List.mem_of_getElem? hk, hpast⟩
    · exact .inr hstopped

theorem stopContinues_follows {k : Nat} (hs : s.stopContinues k = some s') : s.Follows s' := by
  unfold ServerImpl.stopContinues at hs
  split at hs
  case h_2 => cases hs
  rename_i bySignal phase hk
  cases phase with
  | close =>
    cases hs
    exact ⟨rfl, rfl, fun _ hl => hl, fun _ _ => rfl, past_set hk fun l _ hpast => hpast.elim⟩
  | stopAll =>
    cases hs
    refine ⟨rfl, rfl, fun _ hl => hl, fun i _ => ?_,
      past_set hk fun l _ hpast => absurd hpast (Nat.not_lt_zero l)⟩
    unfold seenBy ServerImpl.stopAll
    simp only [List.getElem?_map]
    rcases s.connections[i]? with _ | c
    · rfl
    · simp only [Option.map_some, Option.elim_some]
      split_ifs <;> rfl
  | pool i =>
    simp only at hs
    split_ifs at hs with hmore
    · cases hs
      refine ⟨rfl, rfl, fun l hl => ?_, fun _ _ => rfl, past_set hk fun l _ hpast => ?_⟩
      · simp only [Loops.stop, Function.update_apply]
        split_ifs
        · rfl
        · exact hl
      · rcases Nat.lt_or_eq_of_le (Nat.le_of_lt_succ hpast) with hlt | rfl
        · exact .inl hlt
        · exact .inr (Function.update_self ..)
    · cases hs
      exact ⟨rfl, rfl, fun _ hl => hl, fun _ _ => rfl,
        past_set hk fun l hl _ => .inl (Nat.lt_of_lt_of_le hl (Nat.le_of_not_lt hmore))⟩
    · cases hs
      exact ⟨rfl, rfl, fun _ hl => hl, fun _ _ => rfl,
        past_set hk fun l hl _ => .inl (Nat.lt_of_lt_of_le hl (Nat.le_of_not_lt hmore))⟩
  | done => cases hs

/-- A new call of `handle_stop` has stopped nothing. -/
theorem past_concat {bySignal : Bool} {stopped : Nat → Bool} (stop : Stop)
    (hstop : stop ∈ s.stops ++ [⟨bySignal, .close⟩]) (l : Nat) (_ : l < s.pool.size)
    (hpast : StopPhase.past l stop.phase) :
    (∃ stop ∈ s.stops, StopPhase.past l stop.phase) ∨ stopped l = true := by
  rcases List.mem_append.mp hstop with hold | hnew
  · exact .inl ⟨stop, hold, hpast⟩
  · rw [List.mem_singleton.mp hnew] at hpast
    exact hpast.elim

theorem step_follows {e : Event} (hs : s.step env junk e = some s') : s.Follows s' := by
  unfold ServerImpl.step at hs
  split at hs
  · cases hs
  cases e with
  | acceptCompletes ok =>
    simp only [ServerImpl.acceptCompletes] at hs
    split_ifs at hs
    cases hs
    exact .of_stops rfl rfl (fun _ hl => hl) (fun _ _ => rfl) rfl
  | acceptBegins => exact acceptBegins_follows hs
  | acceptStarts => exact acceptStarts_follows hs
  | acceptAgain =>
    simp only [ServerImpl.acceptAgain] at hs
    split_ifs at hs <;> cases hs <;> exact .of_stops rfl rfl (fun _ hl => hl) (fun _ _ => rfl) rfl
  | readCompletes i r => exact follows_onConnection hs fun _ _ => ManagedConnection.readCompletes_seen
  | readBegins i connected => exact readBegins_follows hs
  | readEnds i => exact readEnds_follows hs
  | writeCompletes i ok => exact follows_onConnection hs fun _ _ => ManagedConnection.writeCompletes_seen
  | writeBegins i =>
    obtain ⟨begun, hbegun, hs⟩ := Option.bind_eq_some_iff.mp hs
    obtain ⟨-, hsame, hbegun'⟩ := begin_stopped hbegun
    have hfirst : s.Follows begun := by
      rw [hbegun']
      exact .of_stops rfl rfl (fun l hl => by rw [hsame]; exact hl) (fun _ _ => rfl) rfl
    exact hfirst.trans (follows_onConnection hs fun _ _ => ManagedConnection.writeBegins_seen)
  | writeEnds i =>
    obtain ⟨ended, hended, rfl⟩ := Option.map_eq_some_iff.mp hs
    obtain ⟨pool, home, stopped, seen, calls⟩ :=
      follows_onConnection hended fun _ _ => ManagedConnection.writeEnds_seen
    exact ⟨pool, home, stopped, seen, calls⟩
  | signal =>
    simp only at hs
    split_ifs at hs
    obtain ⟨begun, hbegun, rfl⟩ := Option.map_eq_some_iff.mp hs
    obtain ⟨-, hsame, hbegun'⟩ := begin_stopped hbegun
    rw [hbegun']
    exact ⟨rfl, rfl, fun l hl => by rw [hsame]; exact hl, fun _ _ => rfl, past_concat⟩
  | stop =>
    cases hs
    exact ⟨rfl, rfl, fun _ hl => hl, fun _ _ => rfl, past_concat⟩
  | stopContinues k => exact stopContinues_follows hs

theorem steps_follows {es : List Event} (hs : s.steps env junk es = some s') : s.Follows s' := by
  induction es generalizing s with
  | nil =>
    cases hs
    exact .refl _
  | cons e es ih =>
    obtain ⟨s₁, hfirst, hrest⟩ := Option.bind_eq_some_iff.mp hs
    exact (step_follows hfirst).trans (ih hrest)

/-! ### Exceptions -/

/-- An exception that leaves the callback is one of the handler, and no `std::runtime_error`. -/
theorem onRead_error {e : Environment} {http : HttpConnection} {r : ReadCompletion} {x : Exception}
    (h : http.onRead e r = .error x) :
    x.isRuntimeError = false ∧ ∃ req resp, (e.handler req resp).1 = .error x := by
  unfold HttpConnection.onRead at h
  cases r with
  | aborted => cases h
  | failed => cases h
  | bytes data =>
    simp only at h
    rcases hp : http.requestParser.parse data with ⟨_ | _ | _, rp⟩
    · rw [hp] at h
      simp only [HttpConnection.complete] at h
      split at h
      · cases h
      · split at h
        · cases h
        · next hthrew =>
          split_ifs at h with hruntime
          cases h
          exact ⟨by simpa using hruntime, _, _, congrArg Prod.fst hthrew⟩
    · rw [hp] at h
      cases h
    · rw [hp] at h
      cases h

theorem onConnection_terminated {i : Nat} {f : ManagedConnection → Option ManagedConnection}
    (h : s.onConnection i f = some s') : s'.terminated = s.terminated := by
  obtain ⟨c, c', -, -, rfl⟩ := onConnection_eq h
  rfl

theorem begin_terminated {t : Task} (h : s.begin t = some s') : s'.terminated = s.terminated := by
  obtain ⟨loops, -, rfl⟩ := begin_eq h
  rfl

/-- The callbacks of reads are the only ones that end the process. -/
theorem step_terminated {e : Event} (hs : s.step env junk e = some s') (ht : s'.terminated = true) :
    (∃ i connected, e = .readBegins i connected ∧ s.readBegins env i connected = some s') ∨
      ∃ i, e = .readEnds i ∧ s.readEnds i = some s' := by
  unfold ServerImpl.step at hs
  split at hs
  · cases hs
  rename_i hrunning
  suffices hsame : (∃ i connected, e = .readBegins i connected ∧ s.readBegins env i connected = some s') ∨
      (∃ i, e = .readEnds i ∧ s.readEnds i = some s') ∨ s'.terminated = s.terminated by
    rcases hsame with hbegins | hends | hsame
    · exact .inl hbegins
    · exact .inr hends
    · exact absurd (hsame.symm.trans ht) hrunning
  cases e with
  | readBegins i connected => exact .inl ⟨i, connected, rfl, hs⟩
  | readEnds i => exact .inr (.inl ⟨i, rfl, hs⟩)
  | acceptCompletes ok =>
    simp only [ServerImpl.acceptCompletes] at hs
    split_ifs at hs
    cases hs
    exact .inr (.inr rfl)
  | acceptBegins =>
    simp only [ServerImpl.acceptBegins] at hs
    split at hs
    · obtain ⟨begun, hbegun, rfl⟩ := Option.map_eq_some_iff.mp hs
      refine .inr (.inr ?_)
      rw [← begin_terminated hbegun]
      split <;> rfl
    · cases hs
  | acceptStarts =>
    simp only [ServerImpl.acceptStarts] at hs
    split_ifs at hs
    cases hs
    exact .inr (.inr rfl)
  | acceptAgain =>
    simp only [ServerImpl.acceptAgain] at hs
    split_ifs at hs <;> cases hs <;> exact .inr (.inr rfl)
  | readCompletes i r => exact .inr (.inr (onConnection_terminated hs))
  | writeCompletes i ok => exact .inr (.inr (onConnection_terminated hs))
  | writeBegins i =>
    obtain ⟨begun, hbegun, hs⟩ := Option.bind_eq_some_iff.mp hs
    exact .inr (.inr ((onConnection_terminated hs).trans (begin_terminated hbegun)))
  | writeEnds i =>
    obtain ⟨ended, hended, rfl⟩ := Option.map_eq_some_iff.mp hs
    have hsame := onConnection_terminated hended
    exact .inr (.inr hsame)
  | signal =>
    simp only at hs
    split_ifs at hs
    obtain ⟨begun, hbegun, rfl⟩ := Option.map_eq_some_iff.mp hs
    have hsame := begin_terminated hbegun
    exact .inr (.inr hsame)
  | stop =>
    cases hs
    exact .inr (.inr rfl)
  | stopContinues k =>
    simp only [ServerImpl.stopContinues] at hs
    split at hs
    case h_2 => cases hs
    split at hs
    · cases hs
      exact .inr (.inr rfl)
    · cases hs
      exact .inr (.inr rfl)
    · split_ifs at hs <;> cases hs <;> exact .inr (.inr rfl)
    · cases hs

/-! ### Sockets that are closed early -/

/-- The socket is closed, and a callback of the connection is to come. -/
def CutOff (s : ServerImpl) (i : Nat) : Prop :=
  ∃ c, s.connections[i]? = some c ∧ c.isOpen = false ∧ c.phase ≠ .idle

/-- The event is the `stop_all` of a call of `handle_stop`, and closes the open socket. -/
def Closes (s : ServerImpl) (e : Event) (i : Nat) : Prop :=
  ∃ k bySignal c, e = .stopContinues k ∧ s.stops[k]? = some ⟨bySignal, .stopAll⟩ ∧
    s.connections[i]? = some c ∧ c.managed = true ∧ c.isOpen = true

/-- The connection itself closes its socket with its last step only. -/
theorem cutOff_advance {j : Nat} {c c' : ManagedConnection}
    (hc : s.connections[j]? = some c) (ha : c.Advances (env j) (junk j) c')
    (hs' : s'.connections = s.connections.set j c') {i : Nat} (h : s'.CutOff i) : s.CutOff i := by
  obtain ⟨d, hd, hclosed, hlive⟩ := h
  rw [hs'] at hd
  by_cases hij : i = j
  · subst hij
    rw [List.getElem?_set_self (List.getElem?_eq_some_iff.mp hc).1] at hd
    obtain rfl := Option.some.inj hd
    rcases ha.closing with hsame | hidle
    · exact ⟨c, hc, hsame ▸ hclosed, ha.live⟩
    · exact absurd hidle hlive
  · rw [List.getElem?_set_ne (Ne.symm hij)] at hd
    exact ⟨d, hd, hclosed, hlive⟩

theorem cutOff_of_eq (hs' : s'.connections = s.connections) {i : Nat} (h : s'.CutOff i) : s.CutOff i := by
  rwa [CutOff, hs'] at h

theorem readBegins_cutOff (hi : Inv env junk s) {j : Nat} {connected : Bool}
    (hs : s.readBegins env j connected = some s') {i : Nat} (h : s'.CutOff i) : s.CutOff i := by
  unfold ServerImpl.readBegins at hs
  split at hs
  · split at hs
    · obtain ⟨begun, hbegun, hs⟩ := Option.bind_eq_some_iff.mp hs
      obtain ⟨loops, -, rfl⟩ := begin_eq hbegun
      split_ifs at hs
      · cases hs
        exact h
      · obtain ⟨c, c', hc, hf, rfl⟩ := onConnection_eq hs
        exact cutOff_advance hc (ManagedConnection.readBegins_advances (hi.sound j c hc) hf).1 rfl h
    · cases hs
  · cases hs

theorem readEnds_cutOff (hi : Inv env junk s) {j : Nat} (hs : s.readEnds j = some s') {i : Nat}
    (h : s'.CutOff i) : s.CutOff i := by
  unfold ServerImpl.readEnds at hs
  split at hs
  · split at hs
    · cases hs
      exact h
    · obtain ⟨c, c', hc, hf, rfl⟩ := onConnection_eq hs
      exact cutOff_advance hc (ManagedConnection.readEnds_advances (hi.sound j c hc) hf).1 rfl h
  · cases hs

theorem stopContinues_cutOff {k : Nat} (hs : s.stopContinues k = some s') {i : Nat} (h : s'.CutOff i) :
    s.CutOff i ∨ s.Closes (.stopContinues k) i := by
  unfold ServerImpl.stopContinues at hs
  split at hs
  case h_2 => cases hs
  rename_i bySignal phase hk
  cases phase with
  | close =>
    cases hs
    exact .inl h
  | stopAll =>
    cases hs
    obtain ⟨c, hc, hclosed, hlive⟩ := h
    obtain ⟨d, hd, rfl⟩ := stopAll_getElem? hc
    by_cases hmanaged : d.managed = true
    · cases hopen : d.isOpen with
      | true => exact .inr ⟨k, bySignal, d, rfl, hk, hd, hmanaged, hopen⟩
      | false =>
        refine .inl ⟨d, hd, hopen, fun hidle => hlive ?_⟩
        rw [if_pos hmanaged]
        simp only [ManagedConnection.stop, ManagedConnection.close, hidle]
    · rw [if_neg hmanaged] at hclosed hlive
      exact .inl ⟨d, hd, hclosed, hlive⟩
  | pool l =>
    simp only at hs
    split_ifs at hs <;> cases hs <;> exact .inl h
  | done => cases hs

/-- **One event**: only `stop_all` closes a socket that is waited for. -/
theorem step_cutOff (hi : Inv env junk s) {e : Event} (hs : s.step env junk e = some s') {i : Nat}
    (h : s'.CutOff i) : s.CutOff i ∨ s.Closes e i := by
  unfold ServerImpl.step at hs
  split at hs
  · cases hs
  cases e with
  | acceptCompletes ok =>
    simp only [ServerImpl.acceptCompletes] at hs
    split_ifs at hs
    cases hs
    exact .inl h
  | acceptBegins =>
    simp only [ServerImpl.acceptBegins] at hs
    split at hs
    · obtain ⟨begun, hbegun, rfl⟩ := Option.map_eq_some_iff.mp hs
      obtain ⟨loops, -, rfl⟩ := begin_eq hbegun
      refine .inl (cutOff_of_eq ?_ h)
      split <;> rfl
    · cases hs
  | acceptStarts =>
    simp only [ServerImpl.acceptStarts] at hs
    split_ifs at hs
    cases hs
    obtain ⟨c, hc, hclosed, hlive⟩ := h
    -- the new socket is open
    simp only at hc
    by_cases hold : i < s.connections.length
    · rw [List.getElem?_append_left hold] at hc
      exact .inl ⟨c, hc, hclosed, hlive⟩
    · rw [List.getElem?_append_right (Nat.le_of_not_lt hold), List.getElem?_singleton] at hc
      split_ifs at hc
      cases hc
      cases hclosed
  | acceptAgain =>
    simp only [ServerImpl.acceptAgain] at hs
    split_ifs at hs <;> cases hs <;> exact .inl h
  | readCompletes j r =>
    obtain ⟨c, c', hc, hf, rfl⟩ := onConnection_eq hs
    exact .inl
      (cutOff_advance hc (ManagedConnection.readCompletes_advances (hi.sound j c hc) hf).1 rfl h)
  | readBegins j connected => exact .inl (readBegins_cutOff hi hs h)
  | readEnds j => exact .inl (readEnds_cutOff hi hs h)
  | writeCompletes j ok =>
    obtain ⟨c, c', hc, hf, rfl⟩ := onConnection_eq hs
    exact .inl
      (cutOff_advance hc (ManagedConnection.writeCompletes_advances (hi.sound j c hc) hf).1 rfl h)
  | writeBegins j =>
    obtain ⟨begun, hbegun, hs⟩ := Option.bind_eq_some_iff.mp hs
    obtain ⟨loops, -, rfl⟩ := begin_eq hbegun
    obtain ⟨c, c', hc, hf, rfl⟩ := onConnection_eq hs
    exact .inl
      (cutOff_advance hc (ManagedConnection.writeBegins_advances (hi.sound j c hc) hf).1 rfl h)
  | writeEnds j =>
    obtain ⟨ended, hended, rfl⟩ := Option.map_eq_some_iff.mp hs
    obtain ⟨c, c', hc, hf, rfl⟩ := onConnection_eq hended
    exact .inl
      (cutOff_advance hc (ManagedConnection.writeEnds_advances (hi.sound j c hc) hf).1 rfl h)
  | signal =>
    simp only at hs
    split_ifs at hs
    obtain ⟨begun, hbegun, rfl⟩ := Option.map_eq_some_iff.mp hs
    obtain ⟨loops, -, rfl⟩ := begin_eq hbegun
    exact .inl h
  | stop =>
    cases hs
    exact .inl h
  | stopContinues k => exact stopContinues_cutOff hs h

/-- One event of the run is the `stop_all` that has closed the socket. -/
def ClosedByStopAll (env : Nat → Environment) (junk : Nat → Bool) (s : ServerImpl) (es : List Event)
    (i : Nat) : Prop :=
  ∃ before e after s₁, es = before ++ e :: after ∧ s.steps env junk before = some s₁ ∧ s₁.Closes e i

/-- By induction on the events. -/
theorem steps_cutOff (hi : Inv env junk s) {es : List Event} (hs : s.steps env junk es = some s')
    {i : Nat} (h : s'.CutOff i) : s.CutOff i ∨ ClosedByStopAll env junk s es i := by
  induction es generalizing s with
  | nil =>
    cases hs
    exact .inl h
  | cons e es ih =>
    obtain ⟨s₁, hfirst, hrest⟩ := Option.bind_eq_some_iff.mp hs
    rcases ih (hi.step hfirst) hrest with hcut | ⟨before, e', after, s₂, rfl, hbefore, hcloses⟩
    · rcases step_cutOff hi hfirst hcut with hcut | hcloses
      · exact .inl hcut
      · exact .inr ⟨[], e, es, s, rfl, rfl, hcloses⟩
    · refine .inr ⟨e :: before, e', after, s₂, rfl, ?_, hcloses⟩
      rw [steps, List.foldlM_cons, hfirst]
      exact hbefore

/-! ### The end of the process -/

/-- Why an event ends the process, by the state `s` that the events before have led to. -/
inductive Ends (env : Nat → Environment) (junk : Nat → Bool) (start : ServerImpl) (before : List Event)
    (s : ServerImpl) : Event → Prop
  /-- The message is complete, and the decoder does not return. -/
  | undecoded {i : Nat} {connected : Bool} {c : ManagedConnection} {data : Str} {rp : RequestParser}
      {f : Fault} (found : s.connections[i]? = some c) (given : c.phase = .readDone (.bytes data))
      (parsed : c.http.requestParser.parse data = (.ok, rp))
      (fault : (rp.decodeMessage c.http.request).1 = .error f) :
      Ends env junk start before s (.readBegins i connected)
  /-- The handler threw, and nothing catches it. -/
  | thrown {i : Nat} {c : ManagedConnection} {x : Exception} (found : s.connections[i]? = some c)
      (given : c.phase = .inRead (.error x)) (other : x.isRuntimeError = false)
      (threw : ∃ req resp, ((env i).handler req resp).1 = .error x) :
      Ends env junk start before s (.readEnds i)
  /-- The callback asks for the address of a peer that has gone. -/
  | gone {i : Nat} {c : ManagedConnection} {r : ReadCompletion} (found : s.connections[i]? = some c)
      (given : c.phase = .readDone r) (asks : c.asksEndpoint (env i) r = true) :
      Ends env junk start before s (.readBegins i false)
  /-- It asks a socket that `stop_all` has closed. -/
  | closed {i : Nat} {connected : Bool} {c : ManagedConnection} {r : ReadCompletion}
      (found : s.connections[i]? = some c) (given : c.phase = .readDone r)
      (asks : c.asksEndpoint (env i) r = true) (stopped : ClosedByStopAll env junk start before i) :
      Ends env junk start before s (.readBegins i connected)

theorem undecoded_eq {c : ManagedConnection} {r : ReadCompletion} (h : c.undecoded r = true) :
    ∃ data rp f, r = .bytes data ∧ c.http.requestParser.parse data = (.ok, rp) ∧
      (rp.decodeMessage c.http.request).1 = .error f := by
  unfold ManagedConnection.undecoded at h
  cases r with
  | aborted => cases h
  | failed => cases h
  | bytes data =>
    simp only at h
    rcases hp : c.http.requestParser.parse data with ⟨_ | _ | _, rp⟩
    · rw [hp] at h
      rcases hd : (rp.decodeMessage c.http.request).1 with f | b
      · exact ⟨data, rp, f, rfl, hp, hd⟩
      · simp only [hd] at h
        cases h
    · rw [hp] at h
      cases h
    · rw [hp] at h
      cases h

/-- An event that ends the process, in a run from `start`. -/
theorem Inv.ends {start : ServerImpl} {before : List Event} (hstart : Inv env junk start)
    (hclosed : ∀ i, ¬ start.CutOff i) (hbefore : start.steps env junk before = some s) {e : Event}
    (hs : s.step env junk e = some s') (ht : s'.terminated = true) (hrunning : s.terminated = false) :
    Ends env junk start before s e := by
  have hi := hstart.steps hbefore
  rcases step_terminated hs ht with ⟨i, connected, rfl, hbegins⟩ | ⟨i, rfl, hends⟩
  · unfold ServerImpl.readBegins at hbegins
    split at hbegins
    · rename_i c hc
      split at hbegins
      · rename_i r hr
        obtain ⟨begun, hbegun, hbegins⟩ := Option.bind_eq_some_iff.mp hbegins
        split_ifs at hbegins with hfails
        · rcases Bool.or_eq_true_iff.mp hfails with hundecoded | hpeer
          · obtain ⟨data, rp, f, rfl, hparsed, hfault⟩ := undecoded_eq hundecoded
            exact .undecoded hc hr hparsed hfault
          obtain ⟨hasks, hpeer⟩ := Bool.and_eq_true_iff.mp hpeer
          cases connected with
          | false => exact .gone hc hr hasks
          | true =>
            have hshut : c.isOpen = false := by simpa using hpeer
            have hcut : s.CutOff i := ⟨c, hc, hshut, by simp [hr]⟩
            exact .closed hc hr hasks ((steps_cutOff hstart hbefore hcut).resolve_left (hclosed i))
        · have hsame := (onConnection_terminated hbegins).trans (begin_terminated hbegun)
          exact absurd (hrunning.symm.trans (hsame.symm.trans ht)) (by decide)
      · cases hbegins
    · cases hbegins
  · unfold ServerImpl.readEnds at hends
    split at hends
    · rename_i c hc
      split at hends
      · rename_i x hx
        have hserves := (hi.sound i c hc).serves
        rw [ManagedConnection.Serves, hx] at hserves
        obtain ⟨-, -, r, -, hresult, -⟩ := hserves
        obtain ⟨hother, hthrew⟩ := onRead_error hresult.symm
        exact .thrown hc hx hother hthrew
      · have hsame := onConnection_terminated hends
        exact absurd (hrunning.symm.trans (hsame.symm.trans ht)) (by decide)
    · cases hends

/-- Nothing comes behind the end of the process. -/
theorem step_running {e : Event} (hs : s.step env junk e = some s') : s.terminated = false := by
  unfold ServerImpl.step at hs
  split at hs
  · cases hs
  · next hrunning => exact eq_false_of_ne_true hrunning

/-! ## Runs from the start -/

section Runs

variable {n : Nat} {pool : IoServicePool} {es : List Event}

theorem reached (hp : IoServicePool.new n = .ok pool) (hs : (run pool).steps env junk es = some s) :
    Inv env junk s ∧ s.home = service n ∧ s.pool.size = n := by
  have hfollows := steps_follows hs
  obtain ⟨hhome, hsize⟩ := run_home hp
  exact ⟨(inv_run hp).steps hs, hfollows.home.trans hhome, by rw [hfollows.pool, hsize]⟩

/-- A run on a pool of `n` services, of a server without routes. -/
def emptyRun (n : Nat) (es : List Event) : Option ServerImpl :=
  (run ⟨n, 0⟩).steps (fun _ => emptyServer) (fun _ => true) es

/-- A connection is accepted, and the acceptor waits again. -/
def accepted : List Event := [.acceptCompletes true, .acceptBegins, .acceptStarts, .acceptAgain]

/-- A `POST` comes to the connection `i` in two reads, and is answered. -/
def posted (i : Nat) : List Event :=
  [.readCompletes i (.bytes (plainPost.bytes.take 20)), .readBegins i true, .readEnds i,
    .readCompletes i (.bytes (plainPost.bytes.drop 20)), .readBegins i true, .readEnds i]

/-- The first connection is closed while the callback of the second one runs. -/
def interrupted : List Event :=
  accepted ++ accepted ++ [.readCompletes 0 .failed, .readCompletes 1 (.bytes (str "GET")), .readBegins 1 true,
    .signal, .stopContinues 0, .stopContinues 0]

/-- At the start there is no connection. -/
theorem run_cutOff (pool : IoServicePool) (i : Nat) : ¬ (run pool).CutOff i := by
  rintro ⟨c, hc, -⟩
  cases hc

/-- **Nothing is forgotten.**  As long as the acceptor is open, connections are accepted.  A
connection is in the set of the manager as long as its socket is open, its callbacks go on with it
then, and a socket that is closed before its last callback was closed by `stop_all`. -/
theorem nothing_forgotten (hp : IoServicePool.new n = .ok pool)
    (hs : (run pool).steps env junk es = some s) :
    (s.acceptorOpen = true → s.accept ≠ .finished) ∧
      ∀ (i : Nat) (c : ManagedConnection), s.connections[i]? = some c →
        c.managed = c.isOpen ∧ (c.isOpen = true → c.phase ≠ .idle) ∧
          (c.isOpen = false → c.phase ≠ .idle →
            s.Swept ∧ ClosedByStopAll env junk (run pool) es i) := by
  obtain ⟨hi, -, -⟩ := reached hp hs
  refine ⟨hi.accepting, fun i c hc => ?_⟩
  have hsound := hi.sound i c hc
  refine ⟨hsound.managed, hsound.waited, fun hclosed hlive => ⟨hi.cut i c hc hclosed hlive, ?_⟩⟩
  exact (steps_cutOff (inv_run hp) hs ⟨c, hc, hclosed, hlive⟩).resolve_left (run_cutOff pool i)

theorem interrupted_swept :
    ∃ s c, emptyRun 4 interrupted = some s ∧
      s.connections[0]? = some c ∧ c.managed = false ∧ s.Swept ∧
      ClosedByStopAll (fun _ => emptyServer) (fun _ => true) (run ⟨4, 0⟩) interrupted 0 := by
  have hrun : ((emptyRun 4 interrupted).bind
      (·.connections[0]?)).map (fun c => (c.isOpen, (c.readBegins emptyServer).isSome)) = some (false, true) := by decide +kernel
  obtain ⟨c, hrun, hc'⟩ := Option.map_eq_some_iff.mp hrun
  obtain ⟨s, hs, hc⟩ := Option.bind_eq_some_iff.mp hrun
  obtain ⟨hopen, hphase⟩ := Prod.mk.inj hc'
  obtain ⟨hmanaged, -, hcut⟩ := (nothing_forgotten (n := 4) rfl hs).2 0 c hc
  refine ⟨s, c, hs, hc, hmanaged.trans hopen, hcut hopen fun hidle => ?_⟩
  rw [ManagedConnection.readBegins, hidle] at hphase
  cases hphase

theorem serve_writes (e : Environment) (reads : List ReadCompletion) (http : HttpConnection) :
    (http.serve e reads).writes.length ≤ 1 := by
  induction reads generalizing http with
  | nil => exact Nat.zero_le 1
  | cons r rest ih =>
    rw [HttpConnection.serve]
    rcases http.onRead e r with x | ⟨_ | buffers | _ | _, http'⟩
    · exact Nat.zero_le 1
    · exact ih http'
    · exact Nat.le_refl 1
    · exact Nat.zero_le 1
    · exact Nat.zero_le 1

/-- **A connection does what its own completions say**, whatever the other ones and the server do
meanwhile: it has written what `serve` writes on them, and that once at most.  While the callback of
a read runs, its completion does not count yet. -/
theorem connections_serve (hp : IoServicePool.new n = .ok pool)
    (hs : (run pool).steps env junk es = some s) {i : Nat} {c : ManagedConnection}
    (hc : s.connections[i]? = some c) :
    c.writes.length ≤ 1 ∧
      ((∀ result, c.phase ≠ .inRead result) →
        (HttpConnection.new (junk i)).serve (env i) c.seen = ⟨c.writes, none⟩) ∧
      ∀ result, c.phase = .inRead result →
        (HttpConnection.new (junk i)).serve (env i) c.seen.dropLast = ⟨c.writes, none⟩ := by
  obtain ⟨hi, -, -⟩ := reached hp hs
  obtain ⟨done, hdone, hout, hin⟩ := ManagedConnection.serves_done (hi.sound i c hc).serves
  refine ⟨?_, fun h => ?_, fun result h => ?_⟩
  · have hwrites := serve_writes (env i) done (.new (junk i))
    rwa [hdone] at hwrites
  · rw [← hout h, hdone]
  · rw [← hin result h, hdone]

theorem posted_serves :
    ∃ s c, emptyRun 4 (accepted ++ posted 0) = some s ∧
      s.connections[0]? = some c ∧ c.writes = [responseToBuffers (.stockReply .notFound) false] ∧
      (HttpConnection.new true).serve emptyServer c.seen = ⟨c.writes, none⟩ := by
  have hrun : ((emptyRun 4 (accepted ++ posted 0)).bind
      (·.connections[0]?)).map (fun c => (c.writes, c.phase.inCallback)) =
      some ([responseToBuffers (.stockReply .notFound) false], false) := by decide +kernel
  obtain ⟨c, hrun, hc'⟩ := Option.map_eq_some_iff.mp hrun
  obtain ⟨s, hs, hc⟩ := Option.bind_eq_some_iff.mp hrun
  obtain ⟨hwrites, hphase⟩ := Prod.mk.inj hc'
  refine ⟨s, c, hs, hc, hwrites, (connections_serve (n := 4) rfl hs hc).2.1 fun result hin => ?_⟩
  rw [hin] at hphase
  cases hphase

/-- **One callback of a connection runs at a time**, whatever the size of the pool: every socket that
is accepted stays on the service of `socket_`.  Up to a pool of two no signal is handled meanwhile,
and on a single service no connection is accepted. -/
theorem callbacks_alone (hp : IoServicePool.new n = .ok pool)
    (hs : (run pool).steps env junk es = some s) {i : Nat} {c : ManagedConnection}
    (hc : s.connections[i]? = some c) (hrun : c.phase.inCallback = true) :
    (∀ (j : Nat) (d : ManagedConnection), s.connections[j]? = some d → d.phase.inCallback = true → j = i) ∧
      (n ≤ 2 → ∀ stop ∈ s.stops, stop.bySignal = true → stop.phase = .done) ∧
      (n = 1 → s.accept ≠ .checked ∧ s.accept ≠ .restarting) := by
  obtain ⟨hi, hhome, -⟩ := reached hp hs
  obtain ⟨hn, -⟩ := new_eq hp
  have hruns := (hi.callbacks i).mpr ⟨c, hc, hrun⟩
  refine ⟨fun j d hd hrun' => ?_, fun htwo stop hstop hb => ?_, fun hone => ?_⟩
  · have hruns' := (hi.callbacks j).mpr ⟨d, hd, hrun'⟩
    exact Task.connection.inj (hruns'.alone hruns (by rw [hhome]; rfl))
  · by_contra hne
    have hsignal := hi.signal stop hstop hb hne
    have hsame : s.home .signal = s.home (.connection i) := by
      rw [hhome]
      interval_cases n <;> rfl
    exact Task.noConfusion (hsignal.alone hruns hsame)
  · subst hone
    refine not_or.mp fun haccept => ?_
    exact Task.noConfusion ((hi.acceptor.mpr haccept).alone hruns (by rw [hhome]; rfl))

/-- The other connection has its failure to see, and waits for the service. -/
theorem interrupted_alone :
    ∃ s c, emptyRun 2
        (accepted ++ accepted ++
          [.readCompletes 0 .failed, .readCompletes 1 (.bytes (str "GET")), .readBegins 1 true]) = some s ∧
      s.connections[1]? = some c ∧
      (∀ (j : Nat) (d : ManagedConnection), s.connections[j]? = some d → d.phase.inCallback = true → j = 1) ∧
      s.step (fun _ => emptyServer) (fun _ => true) (.readBegins 0 true) = none := by
  have hrun : ((emptyRun 2
      (accepted ++ accepted ++
        [.readCompletes 0 .failed, .readCompletes 1 (.bytes (str "GET")), .readBegins 1 true])).bind fun s =>
      (s.connections[1]?.map fun c =>
        (c.phase.inCallback, (s.step (fun _ => emptyServer) (fun _ => true) (.readBegins 0 true)).isNone))) =
      some (true, true) := by decide +kernel
  obtain ⟨s, hs, hrun⟩ := Option.bind_eq_some_iff.mp hrun
  obtain ⟨c, hc, hc'⟩ := Option.map_eq_some_iff.mp hrun
  obtain ⟨hphase, hnone⟩ := Prod.mk.inj hc'
  exact ⟨s, c, hs, hc, (callbacks_alone (n := 2) rfl hs hc hphase).1, Option.isNone_iff_eq_none.mp hnone⟩

/-- A connection is let in, and started when `stop_all` has returned. -/
def lateRun : List Event :=
  [.acceptCompletes true, .acceptBegins, .signal, .stopContinues 0, .stopContinues 0, .acceptStarts]

/-- **One connection may come late.**  When a call of `stop_all` has returned, at most one connection
is still managed, that the callback of the acceptor had let in before it was closed, and none where
the signals are all that stops a server with a single service. -/
theorem late_connections (hp : IoServicePool.new n = .ok pool)
    (hs : (run pool).steps env junk es = some s) (hswept : s.Swept) :
    s.connections.countP (·.managed) ≤ 1 ∧
      (n = 1 → (∀ stop ∈ s.stops, stop.bySignal = true) → s.connections.countP (·.managed) = 0) := by
  obtain ⟨hi, hhome, -⟩ := reached hp hs
  obtain ⟨hlate, hsingle⟩ := hi.late hswept
  have hle : s.connections.countP (·.managed) ≤ s.kept := Nat.le_add_right _ _
  refine ⟨hle.trans hlate, fun hone hcalls => Nat.le_zero.mp (hle.trans ?_)⟩
  exact (hsingle ⟨by rw [hhome, hone]; rfl, hcalls⟩).le

theorem lateRun_managed :
    ∃ s, emptyRun 4 lateRun = some s ∧
      s.connections.countP (·.managed) = 1 ∧ s.connections.countP (·.managed) ≤ 1 := by
  have hrun : ((emptyRun 4 lateRun).map fun s =>
      (s.stops, s.connections.countP (·.managed))) = some ([⟨true, .pool 0⟩], 1) := by decide +kernel
  obtain ⟨s, hs, hs'⟩ := Option.map_eq_some_iff.mp hrun
  obtain ⟨hstops, hcount⟩ := Prod.mk.inj hs'
  have hswept : s.Swept := ⟨⟨true, .pool 0⟩, by rw [hstops]; exact List.mem_singleton_self _, by simp, by simp⟩
  exact ⟨s, hs, hcount, (late_connections (n := 4) rfl hs hswept).1⟩

/-- **When `handle_stop` has returned no callback begins**, in whatever comes then, and a connection
that came late is never read.  A callback that has begun goes on. -/
theorem nothing_begins (hp : IoServicePool.new n = .ok pool)
    (hs : (run pool).steps env junk es = some s) {stop : Stop} (hstop : stop ∈ s.stops)
    (hdone : stop.phase = .done) {es' : List Event} (hs' : s.steps env junk es' = some s') :
    (∀ t, s'.begin t = none) ∧ ∀ i, s'.seenBy i = s.seenBy i := by
  obtain ⟨-, hhome, hsize⟩ := reached hp hs
  obtain ⟨hn, -⟩ := new_eq hp
  have hfollows := steps_follows hs'
  have hstopped : ∀ t, s.loops.stopped (s.home t) = true := by
    intro t
    have hlt : service n t < n := by
      cases t with
      | signal => exact hn
      | accept => exact Nat.mod_lt _ hn
      | connection i => exact Nat.mod_lt _ hn
    have hsize' : (run pool).pool.size = n := (run_home hp).2
    rw [hhome]
    rcases (steps_follows hs).calls stop hstop _ (by rwa [hsize']) (by rw [hdone]; trivial) with
      ⟨old, hold, -⟩ | hl
    · simp [run] at hold
    · exact hl
  refine ⟨fun t => ?_, fun i => hfollows.seen i (hstopped _)⟩
  have hl := hfollows.stopped _ (hstopped t)
  rw [← hfollows.home] at hl
  simp only [begin, Loops.begin, hl, if_true, Option.map_none]

/-- The rest of the request has come, and the callback that would get it never begins. -/
theorem stopped_unread :
    ∃ s s', emptyRun 1 (accepted ++ (posted 0).take 4 ++ .stop :: List.replicate 4 (.stopContinues 0)) = some s ∧
      s.steps (fun _ => emptyServer) (fun _ => true) [.stop, .stopContinues 1] = some s' ∧
      s'.begin (.connection 0) = none ∧ s'.seenBy 0 = s.seenBy 0 := by
  have hrun : ((emptyRun 1 (accepted ++ (posted 0).take 4 ++ .stop :: List.replicate 4 (.stopContinues 0))).bind
      fun s => (s.steps (fun _ => emptyServer) (fun _ => true) [.stop, .stopContinues 1]).map fun _ => s.stops) =
      some [⟨false, .done⟩] := by decide +kernel
  obtain ⟨s, hs, hrun⟩ := Option.bind_eq_some_iff.mp hrun
  obtain ⟨s', hs', hstops⟩ := Option.map_eq_some_iff.mp hrun
  have hmem : (⟨false, .done⟩ : Stop) ∈ s.stops := by
    rw [hstops]
    exact List.mem_singleton_self _
  obtain ⟨hbegin, hseen⟩ := nothing_begins (n := 1) rfl hs hmem rfl hs'
  exact ⟨s, s', hs, hs', hbegin _, hseen 0⟩

/-- **What ends the process.**  An exception leaves the thread of a service only where the decoder
throws, where the handler threw it and it is no `std::runtime_error`, or where the callback asked for
the address of a peer that had gone or of a socket that `stop_all` had closed: it is the last event
of the run that does so. -/
theorem uncaught (hp : IoServicePool.new n = .ok pool) (hs : (run pool).steps env junk es = some s)
    (ht : s.terminated = true) :
    ∃ before e s₁, es = before ++ [e] ∧ (run pool).steps env junk before = some s₁ ∧
      Ends env junk (run pool) before s₁ e := by
  rcases List.eq_nil_or_concat' es with rfl | ⟨before, e, rfl⟩
  · cases hs
    cases ht
  · rw [steps, List.foldlM_append] at hs
    obtain ⟨s₁, hbefore, hlast⟩ := Option.bind_eq_some_iff.mp hs
    obtain ⟨s₂, hstep, hnil⟩ := Option.bind_eq_some_iff.mp hlast
    cases hnil
    exact ⟨before, e, s₁, rfl, hbefore,
      (inv_run hp).ends (run_cutOff pool) hbefore hstep ht (step_running hstep)⟩

theorem unconnected_uncaught :
    ∃ s₁, emptyRun 4 (accepted ++ (posted 0).take 4) = some s₁ ∧
      Ends (fun _ => emptyServer) (fun _ => true) (run ⟨4, 0⟩) (accepted ++ (posted 0).take 4) s₁
        (.readBegins 0 false) := by
  have hrun : ((emptyRun 4
      (accepted ++ (posted 0).take 4 ++ [.readBegins 0 false])).map (·.terminated)) = some true := by
    decide +kernel
  obtain ⟨s, hs, ht⟩ := Option.map_eq_some_iff.mp hrun
  obtain ⟨before, e, s₁, hes, hbefore, hends⟩ := uncaught (n := 4) rfl hs ht
  obtain ⟨rfl, hlast⟩ := List.append_inj' hes rfl
  obtain rfl := (List.cons.inj hlast).1
  exact ⟨s₁, hbefore, hends⟩

/-- **A request is answered in every run**: when a connection was given the reads of a whole request
and its callback has returned, it has written what the handler answers to the decoded message.  With
less than the request it has written nothing. -/
theorem requests_answered (hp : IoServicePool.new n = .ok pool)
    (hs : (run pool).steps env junk es = some s) {i : Nat} {c : ManagedConnection}
    (hc : s.connections[i]? = some c) (hout : ∀ result, c.phase ≠ .inRead result)
    {r : RequestParser.WireRequest} (hr : r.Sound) {reads : List Str} (hcut : RequestParser.Cut r.bytes reads)
    (hdec : HttpConnection.Decodes (env i)) {valid : Bool} {req : HTTPServerRequest}
    (hmsg : (HttpConnection.arrived r (RequestParser.targetTail reads)).decodeMessage .init = (.ok valid, req)) :
    (c.seen = reads.map .bytes → HttpConnection.answered (env i) valid req = ⟨c.writes, none⟩) ∧
      ∀ k < reads.length, c.seen = (reads.take k).map .bytes → c.writes = [] := by
  obtain ⟨hi, -, -⟩ := reached hp hs
  obtain ⟨done, hdone, hall, -⟩ := ManagedConnection.serves_done (hi.sound i c hc).serves
  rw [hall hout] at hdone
  refine ⟨fun hseen => ?_, fun k hk hseen => ?_⟩
  · rw [← HttpConnection.serve_arrived hr (junk i) hcut hdec hmsg, ← hseen, hdone]
  · rw [hseen, HttpConnection.serve_waits (env i) _ (RequestParser.waits hr (junk i) hcut hk)] at hdone
    exact (congrArg HttpConnection.Trace.writes hdone).symm

theorem posted_answered :
    ∃ s c, emptyRun 3 (accepted ++ accepted ++ (posted 1).take 5 ++ .stop :: (posted 1).drop 5) = some s ∧
      s.connections[1]? = some c ∧ c.writes = [responseToBuffers (.stockReply .notFound) false] := by
  have hrun : ((emptyRun 3 (accepted ++ accepted ++ (posted 1).take 5 ++ .stop :: (posted 1).drop 5)).bind
      (·.connections[1]?)).map (fun c => (c.seen, c.phase.inCallback)) =
      some ([plainPost.bytes.take 20, plainPost.bytes.drop 20].map .bytes, false) := by decide +kernel
  obtain ⟨c, hrun, hc'⟩ := Option.map_eq_some_iff.mp hrun
  obtain ⟨s, hs, hc⟩ := Option.bind_eq_some_iff.mp hrun
  obtain ⟨hseen, hphase⟩ := Prod.mk.inj hc'
  have hsound : plainPost.Sound := ⟨by decide +kernel, by decide +kernel,
    .inr ⟨⟨str "Content-Length", str "3", false⟩, List.mem_cons_self, rfl⟩, by decide, by decide +kernel⟩
  have hvalid : ((HttpConnection.arrived plainPost (RequestParser.targetTail
      [plainPost.bytes.take 20, plainPost.bytes.drop 20])).decodeMessage .init).1 = .ok true := by
    decide +kernel
  have hcut : RequestParser.Cut plainPost.bytes [plainPost.bytes.take 20, plainPost.bytes.drop 20] :=
    ⟨by decide +kernel, by decide +kernel⟩
  have hout : ∀ result, c.phase ≠ .inRead result := fun result hin => by
    rw [hin] at hphase
    cases hphase
  obtain ⟨req, hmsg, hpage⟩ : ∃ req, (HttpConnection.arrived plainPost (RequestParser.targetTail
      [plainPost.bytes.take 20, plainPost.bytes.drop 20])).decodeMessage .init = (.ok true, req) ∧
      HttpConnection.answered emptyServer true req =
        ⟨[responseToBuffers (.stockReply .notFound) false], none⟩ :=
    ⟨_, Prod.ext hvalid rfl, by decide +kernel⟩
  have hanswer := (requests_answered (n := 3) rfl hs hc hout hsound hcut HttpConnection.emptyServer_decodes hmsg).1 hseen
  rw [hpage] at hanswer
  exact ⟨s, c, hs, hc, (congrArg HttpConnection.Trace.writes hanswer).symm⟩

end Runs

end ServerImpl

end Wsrv
