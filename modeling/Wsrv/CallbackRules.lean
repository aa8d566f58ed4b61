import Wsrv.HttpParser

/-!
# Rules for the callbacks of the parser

What the parser does depends on the answers of its callbacks only.  Two sets of
callbacks that answer alike, and keep a relation between the objects behind
them, keep it through `http_parser_execute` (`execute_related`).  With the
callbacks of one set this is the rule of an invariant; with `Settings.traced` it
is a parser that remembers whether a message has been completed.
-/

namespace Wsrv.Http

variable {σ τ : Type}

/-! ## Related callbacks -/

/-- The same answer to the parser, and related objects behind it. -/
structure Reply.Related (R : σ → τ → Prop) (r : Reply σ) (s : Reply τ) : Prop where
  code : s.code = r.code
  pause : s.pause = r.pause
  user : R r.user s.user

/-- Callbacks that answer alike on related objects. -/
structure Settings.Related (R : σ → τ → Prop) (cfg : Settings σ) (cfg' : Settings τ) : Prop where
  data : ∀ e p text u v, R u v → (cfg.data e p text u).Related R (cfg'.data e p text v)
  notify : ∀ n p u v, R u v → (cfg.notify n p u).Related R (cfg'.notify n p v)
  headersComplete : ∀ p u v, R u v → (cfg.headersComplete p u).Related R (cfg'.headersComplete p v)

variable {R : σ → τ → Prop} {cfg : Settings σ} {cfg' : Settings τ}

theorem Reply.Related.settle {r : Reply σ} {s : Reply τ} (h : r.Related R s) (e : Errno)
    (p : HttpParser) : s.settle e p = r.settle e p := by
  unfold Reply.settle
  rw [h.code, h.pause]

theorem Reply.Related.settleHeaders {r : Reply σ} {s : Reply τ} (h : r.Related R s)
    (p : HttpParser) : s.settleHeaders p = r.settleHeaders p := by
  unfold Reply.settleHeaders
  rw [h.code, h.pause]

/-- The same parser and marks, and related objects. -/
structure Locals.Related (R : σ → τ → Prop) (f : Locals σ) (g : Locals τ) : Prop where
  parser : g.parser = f.parser
  marks : g.marks = f.marks
  user : R f.user g.user

namespace Locals.Related

variable {f : Locals σ} {g : Locals τ}

theorem withParser (h : f.Related R g) (p : HttpParser) :
    ({ f with parser := p } : Locals σ).Related R { g with parser := p } :=
  ⟨rfl, h.marks, h.user⟩

theorem mark (h : f.Related R g) (m : Option Elem) : (f.mark m).Related R (g.mark m) := by
  cases m with
  | none => exact h
  | some e => exact ⟨h.parser, by simp only [Locals.mark, h.marks], h.user⟩

theorem advance (h : f.Related R g) (ch : UInt8) : (f.advance ch).Related R (g.advance ch) :=
  ⟨h.parser, by simp only [Locals.advance, h.marks], h.user⟩

theorem callData (hr : cfg.Related R cfg') (h : f.Related R g) (e : Elem) (last : Str) :
    (f.callData cfg e last).Related R (g.callData cfg' e last) := by
  unfold Locals.callData
  rw [h.marks]
  cases f.marks e with
  | none => exact h
  | some text =>
    rw [h.parser]
    have hreply := hr.data e f.parser (text ++ last) f.user g.user h.user
    exact ⟨hreply.settle e.errno f.parser, rfl, hreply.user⟩

theorem callNotify (hr : cfg.Related R cfg') (h : f.Related R g) (n : Notify) :
    (f.callNotify cfg n).Related R (g.callNotify cfg' n) := by
  unfold Locals.callNotify
  rw [h.parser]
  have hreply := hr.notify n f.parser f.user g.user h.user
  exact ⟨hreply.settle n.errno f.parser, h.marks, hreply.user⟩

theorem callHeadersComplete (hr : cfg.Related R cfg') (h : f.Related R g) :
    (f.callHeadersComplete cfg).Related R (g.callHeadersComplete cfg') := by
  unfold Locals.callHeadersComplete
  rw [h.parser]
  have hreply := hr.headersComplete f.parser f.user g.user h.user
  exact ⟨hreply.settleHeaders f.parser, h.marks, hreply.user⟩

theorem runCall (hr : cfg.Related R cfg') (ch : UInt8) (h : f.Related R g) (c : Call) :
    (runCall cfg ch f c).1.Related R (runCall cfg' ch g c).1 ∧
      (runCall cfg' ch g c).2 = (runCall cfg ch f c).2 := by
  cases c with
  | none => exact ⟨h, rfl⟩
  | data e withByte consume =>
    have hcall := h.callData hr e (if withByte then [ch] else [])
    exact ⟨hcall, by simp only [Http.runCall, hcall.parser]⟩
  | notify n =>
    have hcall := h.callNotify hr n
    exact ⟨hcall, by simp only [Http.runCall, hcall.parser]⟩
  | headersComplete =>
    have hcall := h.callHeadersComplete hr
    exact ⟨hcall, by simp only [Http.runCall, hcall.parser]⟩

end Locals.Related

/-- The same end of a byte. -/
def Outcome.Related (R : σ → τ → Prop) : Outcome σ → Outcome τ → Prop
  | .next f, .next g => f.Related R g
  | .stop used f, .stop used' g => used' = used ∧ f.Related R g
  | _, _ => False

/-! ## The rule of a step and of a run -/

theorem byte_related (hr : cfg.Related R cfg') (n : Nat) (ch : UInt8) {f : Locals σ} {g : Locals τ}
    (h : f.Related R g) : (byte cfg n ch f).Related R (byte cfg' n ch g) := by
  induction n generalizing f g with
  | zero =>
    rw [byte, byte, h.parser]
    exact ⟨rfl, h.withParser _⟩
  | succ n ih =>
    rw [byte, byte, h.parser]
    cases switch f.parser ch with
    | error p e => exact ⟨rfl, h.withParser _⟩
    | go m p call after =>
      obtain ⟨hcall, hused⟩ := ((h.withParser p).mark m).runCall hr ch call
      simp only
      rcases hc : runCall cfg ch (({ f with parser := p } : Locals σ).mark m) call with ⟨f', r⟩
      rcases hc' : runCall cfg' ch (({ g with parser := p } : Locals τ).mark m) call with ⟨g', s⟩
      rw [hc, hc'] at hcall hused
      obtain rfl : s = r := hused
      cases s with
      | some used => exact ⟨rfl, hcall⟩
      | none =>
        cases after with
        | next => exact hcall.advance ch
        | again => exact ih hcall
        | ret => exact ⟨rfl, hcall⟩

theorem stepByte_related (hr : cfg.Related R cfg') (ch : UInt8) {f : Locals σ} {g : Locals τ}
    (h : f.Related R g) : (stepByte cfg ch f).Related R (stepByte cfg' ch g) := by
  unfold stepByte
  rw [h.parser]
  simp only
  split
  · exact ⟨rfl, h.withParser _⟩
  · exact byte_related hr passes ch (h.withParser _)

theorem loop_related (hr : cfg.Related R cfg') (bytes : Str) {f : Locals σ} {g : Locals τ}
    (h : f.Related R g) :
    (loop cfg' bytes g).1 = (loop cfg bytes f).1 ∧ (loop cfg bytes f).2.Related R (loop cfg' bytes g).2 := by
  induction bytes generalizing f g with
  | nil => exact ⟨rfl, h⟩
  | cons ch rest ih =>
    have hstep := stepByte_related hr ch h
    rw [loop, loop]
    rcases hf : stepByte cfg ch f with f' | ⟨used, f'⟩ <;>
      rcases hg : stepByte cfg' ch g with g' | ⟨used', g'⟩ <;> rw [hf, hg] at hstep
    · obtain ⟨hused, hrel⟩ := ih hstep
      exact ⟨congrArg (Option.map (· + 1)) hused, hrel⟩
    · exact hstep.elim
    · exact hstep.elim
    · exact ⟨congrArg some hstep.1, hstep.2⟩

theorem flushMarks_related (hr : cfg.Related R cfg') (es : List Elem) {f : Locals σ} {g : Locals τ}
    (h : f.Related R g) : (flushMarks cfg es f).Related R (flushMarks cfg' es g) := by
  induction es generalizing f g with
  | nil => exact h
  | cons e es ih =>
    have hcall := h.callData hr e []
    rw [flushMarks, flushMarks, h.marks]
    cases f.marks e with
    | none => exact ih h
    | some text =>
      simp only [hcall.parser]
      split
      · exact hcall
      · exact ih hcall

theorem executeEof_related (hr : cfg.Related R cfg') (p : HttpParser) {u : σ} {v : τ}
    (h : R u v) :
    (executeEof cfg' p v).1 = (executeEof cfg p u).1 ∧
      (executeEof cfg' p v).2.1 = (executeEof cfg p u).2.1 ∧
      R (executeEof cfg p u).2.2 (executeEof cfg' p v).2.2 := by
  have hcall : ((⟨p, u, fun _ => none⟩ : Locals σ).callNotify cfg .messageComplete).Related R
      ((⟨p, v, fun _ => none⟩ : Locals τ).callNotify cfg' .messageComplete) :=
    Locals.Related.callNotify hr ⟨rfl, rfl, h⟩ _
  unfold executeEof
  cases p.state <;> first
    | exact ⟨rfl, rfl, h⟩
    | exact ⟨rfl, hcall.parser, hcall.user⟩

/-- **A relation that the callbacks keep is kept by `http_parser_execute`**, which uses as many
bytes on both sides and leaves the same parser. -/
theorem execute_related (hr : cfg.Related R cfg') (p : HttpParser) {u : σ} {v : τ} (h : R u v)
    (bytes : Str) :
    (execute cfg' p v bytes).1 = (execute cfg p u bytes).1 ∧
      (execute cfg' p v bytes).2.1 = (execute cfg p u bytes).2.1 ∧
      R (execute cfg p u bytes).2.2 (execute cfg' p v bytes).2.2 := by
  unfold execute
  split
  · exact ⟨rfl, rfl, h⟩
  · split
    · exact executeEof_related hr p h
    · have hstart : (⟨p, u, initialMarks p.state⟩ : Locals σ).Related R ⟨p, v, initialMarks p.state⟩ :=
        ⟨rfl, rfl, h⟩
      obtain ⟨hused, hrel⟩ := loop_related hr bytes hstart
      rcases hf : loop cfg bytes ⟨p, u, initialMarks p.state⟩ with ⟨r, f⟩
      rcases hg : loop cfg' bytes ⟨p, v, initialMarks p.state⟩ with ⟨s, g⟩
      rw [hf, hg] at hused hrel
      obtain rfl : s = r := hused
      cases s with
      | some used => exact ⟨rfl, hrel.parser, hrel.user⟩
      | none =>
        have hflush := flushMarks_related hr flushOrder hrel
        exact ⟨rfl, hflush.parser, hflush.user⟩

/-! ## Remembering a completed message -/

/-- A callback on the first component. -/
def Reply.pair (r : Reply σ) (called : Bool) : Reply (σ × Bool) := ⟨r.code, r.pause, (r.user, called)⟩

/-- The callbacks, and beside their object whether `on_message_complete` has been called. -/
def Settings.traced (cfg : Settings σ) : Settings (σ × Bool) where
  onMessageBegin := cfg.onMessageBegin.map fun cb p u => (cb p u.1).pair u.2
  onUrl := cfg.onUrl.map fun cb p text u => (cb p text u.1).pair u.2
  onStatus := cfg.onStatus.map fun cb p text u => (cb p text u.1).pair u.2
  onHeaderField := cfg.onHeaderField.map fun cb p text u => (cb p text u.1).pair u.2
  onHeaderValue := cfg.onHeaderValue.map fun cb p text u => (cb p text u.1).pair u.2
  onHeadersComplete := cfg.onHeadersComplete.map fun cb p u => (cb p u.1).pair u.2
  onBody := cfg.onBody.map fun cb p text u => (cb p text u.1).pair u.2
  onMessageComplete := cfg.onMessageComplete.map fun cb p u => (cb p u.1).pair true

theorem traced_data (cfg : Settings σ) (e : Elem) (p : HttpParser) (text : Str) (u : σ × Bool) :
    cfg.traced.data e p text u = (cfg.data e p text u.1).pair u.2 := by
  unfold Settings.data Settings.traced
  cases e with
  | url => cases cfg.onUrl <;> rfl
  | status => cases cfg.onStatus <;> rfl
  | headerField => cases cfg.onHeaderField <;> rfl
  | headerValue => cases cfg.onHeaderValue <;> rfl
  | body => cases cfg.onBody <;> rfl

theorem traced_begin (cfg : Settings σ) (p : HttpParser) (u : σ × Bool) :
    cfg.traced.notify .messageBegin p u = (cfg.notify .messageBegin p u.1).pair u.2 := by
  unfold Settings.notify Settings.traced
  cases cfg.onMessageBegin <;> rfl

/-- The memory is of a callback that is set. -/
theorem traced_complete (cfg : Settings σ) (p : HttpParser) (u : σ × Bool) :
    cfg.traced.notify .messageComplete p u =
      (cfg.notify .messageComplete p u.1).pair (cfg.onMessageComplete.isSome || u.2) := by
  unfold Settings.notify Settings.traced
  cases cfg.onMessageComplete <;> rfl

theorem traced_headersComplete (cfg : Settings σ) (p : HttpParser) (u : σ × Bool) :
    cfg.traced.headersComplete p u = (cfg.headersComplete p u.1).pair u.2 := by
  unfold Settings.headersComplete Settings.traced
  cases cfg.onHeadersComplete <;> rfl

/-- The memory does not disturb the callbacks. -/
theorem traced_related (cfg : Settings σ) :
    cfg.Related (fun u v => (v : σ × Bool).1 = u) cfg.traced where
  data e p text u v h := by
    rw [traced_data, h]
    exact ⟨rfl, rfl, rfl⟩
  notify n p u v h := by
    cases n with
    | messageBegin =>
      rw [traced_begin, h]
      exact ⟨rfl, rfl, rfl⟩
    | messageComplete =>
      rw [traced_complete, h]
      exact ⟨rfl, rfl, rfl⟩
  headersComplete p u v h := by
    rw [traced_headersComplete, h]
    exact ⟨rfl, rfl, rfl⟩

/-! ## Invariants -/

/-- Something that every callback keeps. -/
structure Settings.Keeps (cfg : Settings σ) (P : σ → Prop) : Prop where
  data : ∀ e p text u, P u → P (cfg.data e p text u).user
  notify : ∀ n p u, P u → P (cfg.notify n p u).user
  headersComplete : ∀ p u, P u → P (cfg.headersComplete p u).user

theorem Settings.Keeps.related {P : σ → Prop} (h : cfg.Keeps P) :
    cfg.Related (fun u v => v = u ∧ P u) cfg where
  data e p text u v := by
    rintro ⟨rfl, hu⟩
    exact ⟨rfl, rfl, rfl, h.data e p text v hu⟩
  notify n p u v := by
    rintro ⟨rfl, hu⟩
    exact ⟨rfl, rfl, rfl, h.notify n p v hu⟩
  headersComplete p u v := by
    rintro ⟨rfl, hu⟩
    exact ⟨rfl, rfl, rfl, h.headersComplete p v hu⟩

/-- **An invariant of the callbacks holds after `http_parser_execute`.** -/
theorem Settings.Keeps.execute {P : σ → Prop} (h : cfg.Keeps P) (p : HttpParser) {u : σ} (hu : P u)
    (bytes : Str) : P (execute cfg p u bytes).2.2 :=
  (execute_related h.related p ⟨rfl, hu⟩ bytes).2.2.2

theorem Settings.Keeps.loop {P : σ → Prop} (h : cfg.Keeps P) {f : Locals σ} (hf : P f.user)
    (bytes : Str) : P (loop cfg bytes f).2.user :=
  (loop_related h.related bytes ⟨rfl, rfl, rfl, hf⟩).2.user.2

theorem Settings.Keeps.flushMarks {P : σ → Prop} (h : cfg.Keeps P) {f : Locals σ} (hf : P f.user)
    (es : List Elem) : P (flushMarks cfg es f).user :=
  (flushMarks_related h.related es ⟨rfl, rfl, rfl, hf⟩).user.2

end Wsrv.Http
