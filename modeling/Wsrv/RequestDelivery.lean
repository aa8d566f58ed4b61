import Wsrv.ChunkInvariance
import Wsrv.ResponseFraming
import Wsrv.StartLines

/-!
# Requests that are delivered

A request that is written line by line, with its body behind an empty line, is
delivered: in whatever reads it comes, the parser is complete with its last byte
and not before, and has the method, the headers and the body that were written
(`delivered`).  `execute_delivered` is this for what the client writes.
-/

namespace Wsrv.Http

variable {τ : Type} {R : Reader τ}

/-! ## Behind the lines -/

/-- The parser behind the last byte of a message. -/
structure Ended (p q : HttpParser) : Prop where
  paused : q.httpErrno = .paused
  method : q.method = p.method
  statusCode : q.statusCode = p.statusCode

/-- What the callback at the end of a message does. -/
def Reader.Ends (R : Reader τ) (done : τ → τ) : Prop :=
  ∀ p u, R.notify .messageComplete p u = ⟨0, true, done u⟩

theorem byte_end {done : τ → τ} (hd : R.Ends done) {k : Nat} {ch : UInt8} {p q : HttpParser} {u : τ}
    {after : After} (hstep : switch p ch = finish q after) (hok : q.httpErrno = .ok)
    (hm : q.method = p.method) (hc : q.statusCode = p.statusCode) :
    ∃ q', R.byte (k + 1) ch p u = (some 1, q', done u) ∧ Ended p q' := by
  refine ⟨parserPause { q with state := newMessage q } true, ?_, ?_⟩
  · have hpaused := parserPause_ok (p := { q with state := newMessage q }) hok
    simp [Reader.byte, hstep, finish, Reader.call, hd _ u, Reply.settle, checkErrno, hpaused]
  · simp only [parserPause, hok, true_or, if_true]
    exact ⟨rfl, hm, hc⟩

/-- The carriage return of the empty line. -/
theorem takes_emptyLine {f p : HttpParser} (hp : AtLine f p) (u : τ)
    (hroom : p.nread + 1 ≤ HTTP_MAX_HEADER_SIZE) :
    ∃ q, R.Takes [CR] p u q u ∧ q.nread = p.nread + 1 ∧ Placed .headersAlmostDone f q := by
  obtain ⟨k, q, hk, hbyte, hcount, hq⟩ := hp.byte (R := R) (by decide : CR ≠ ' '.toUInt8 ∧ CR ≠ 9) u hroom
  obtain ⟨k, rfl⟩ : ∃ j, k = j + 1 := ⟨k - 1, by omega⟩
  have hswitch : switch q CR = .next { q with state := .headersAlmostDone } := by
    simp only [switch, switchHeaderField, hq.state, if_true]
  have hstep := hbyte.trans (Reader.byte_element hswitch)
  rw [hq.state] at hstep
  exact ⟨_, .one hstep, hcount, rfl, hq.ok, hq.frame⟩

/-- The parser at the end of the headers. -/
def headEnd (p : HttpParser) : HttpParser :=
  { p with state := .headersDone, upgrade := p.flags.upgrade || p.method == .CONNECT }

theorem switch_headEnd {p : HttpParser} (hs : p.state = .headersAlmostDone)
    (htrailing : p.flags.trailing = false) :
    switch p LF = .go none (headEnd p) .headersComplete .again := by
  simp only [switch, switchHeadersEnd, hs, htrailing, ne_eq, not_true_eq_false, if_false,
    Bool.false_eq_true, headEnd]

/-- The headers leave the body to a `Content-Length`, or to nothing. -/
structure Sized (body : Str) (p : HttpParser) : Prop where
  upgrade : p.upgrade = false
  skipbody : p.flags.skipbody = false
  chunked : p.flags.chunked = false
  length : p.contentLength = body.length ∨ p.contentLength = ULLONG_MAX ∧ messageNeedsEof p = false ∧ body = []
  small : body.length < 2 ^ 63

open ClientResponse (framing) in
theorem Sized.framing {body : Str} {p : HttpParser} (h : Sized body p) :
    framing p = .length body.length ∨ framing p = .bodiless ∧ body = [] := by
  have hmax : body.length ≠ ULLONG_MAX := by
    have hsmall := h.small
    rw [ULLONG_MAX]
    omega
  unfold ClientResponse.framing
  rw [h.chunked]
  rcases h.length with hlen | ⟨hlen, hneeds, hbody⟩
  · left
    simp [hlen, hmax]
  · right
    simp [hlen, hneeds, hbody]

/-- The line feed of the empty line, where there is no body and where there is one. -/
theorem byte_headersDone {done : τ → τ} (hd : R.Ends done) {body : Str} {p : HttpParser}
    (hp : Sized body p) (hs : p.state = .headersDone) (hok : p.httpErrno = .ok) (k : Nat) (u : τ) :
    (body = [] ∧ ∃ q, R.byte (k + 1) LF p u = (some 1, q, done u) ∧ Ended p q) ∨
      body ≠ [] ∧ p.contentLength = body.length ∧
        R.byte (k + 1) LF p u = (none, { p with nread := 0, state := .bodyIdentity }, u) := by
  have hstep := ClientResponse.switch_headersDone hs hp.skipbody
  have hup : ¬p.upgrade = true := by simp [hp.upgrade]
  simp only at hstep
  rw [if_neg hup] at hstep
  by_cases hbody : body = []
  · refine .inl ⟨hbody, ?_⟩
    have hend : switch p LF = finish { p with nread := 0 } := by
      rcases hp.framing with hf | ⟨hf, -⟩
      · rw [hf, hbody] at hstep
        simpa using hstep
      · rw [hf] at hstep
        exact hstep
    exact byte_end hd hend hok rfl rfl
  · have hf := hp.framing.resolve_right fun h => hbody h.2
    have hne : body.length ≠ 0 := by simpa using hbody
    rw [hf] at hstep
    simp only [hne, if_false] at hstep
    refine .inr ⟨hbody, hp.length.resolve_right fun h => hbody h.2.2, ?_⟩
    rw [Reader.byte_element hstep, hs]
    rfl

/-- **A body with a length.** -/
theorem run_identity (ha : R.Additive) {done : τ → τ} (hd : R.Ends done) {body : Str}
    {p : HttpParser} (hs : p.state = .bodyIdentity) (hok : p.httpErrno = .ok)
    (hlen : p.contentLength = body.length) (hne : body ≠ []) (u : τ) :
    ∃ q, R.run body p u = (some body.length, q, done (R.deliver .body body u)) ∧ Ended p q := by
  induction body generalizing p u with
  | nil => exact absurd rfl hne
  | cons ch rest ih =>
    rw [List.length_cons] at hlen ⊢
    have hcount : countByte p = p := by simp [countByte, hs, parsingHeader]
    have hbody : R.stepByte ch p u = R.byte passes ch p u := by
      simp [Reader.stepByte, hcount, hs, parsingHeader]
    by_cases hrest : rest = []
    · -- the last byte is reported, and then the end of the message
      subst hrest
      have hone : p.contentLength = 1 := hlen
      have hlast : switch p ch = .go (some .body)
          { p with contentLength := 0, state := .messageDone } (.data .body true false) .again := by
        simp [switch, switchBody, hs, hone]
      have hend : switch { p with contentLength := 0, state := .messageDone } ch =
          finish { p with contentLength := 0, state := .messageDone } := by
        simp [switch, switchBody]
      obtain ⟨q, hq, hended⟩ := byte_end (R := R) hd (k := 2) (u := R.deliver .body [ch] u) hend hok
        rfl rfl
      refine ⟨q, ?_, ⟨hended.paused, hended.method, hended.statusCode⟩⟩
      have hbyte : R.byte passes ch p u = (some 1, q, done (R.deliver .body [ch] u)) := by
        rw [← hq, passes, Reader.byte, hlast]
        simp [Reader.call, checkErrno, hok]
      rw [Reader.run, hbody, hbyte]
      rfl
    · have hmore : p.contentLength - 1 ≠ 0 := by
        have := List.length_pos_of_ne_nil hrest
        omega
      have hstep : switch p ch =
          .go (some .body) { p with contentLength := p.contentLength - 1 } .none .next := by
        simp [switch, switchBody, hs, hmore]
      obtain ⟨q, hq, hended⟩ := ih (p := { p with contentLength := p.contentLength - 1 }) hs hok
        (by simp only; omega) hrest (R.deliver .body [ch] u)
      refine ⟨q, ?_, ⟨hended.paused, hended.method, hended.statusCode⟩⟩
      rw [← ha.append, List.singleton_append] at hq
      have hbyte : R.byte passes ch p u =
          (none, { p with contentLength := p.contentLength - 1 }, R.deliver .body [ch] u) :=
        Reader.byte_element hstep
      rw [Reader.run, hbody, hbyte]
      simp only [hq, Option.map_some]

/-- The empty line's line feed and the body, behind the callback at the end of the headers. -/
theorem run_headersDone (ha : R.Additive) {done : τ → τ} (hd : R.Ends done) {body : Str}
    {p : HttpParser} (hp : Sized body p) (hs : p.state = .headersDone) (hok : p.httpErrno = .ok)
    (k : Nat) {ch : UInt8} {p₀ : HttpParser} {u₀ : τ} (u : τ)
    (hfirst : R.stepByte ch p₀ u₀ = R.byte (k + 1) LF p u) :
    ∃ q, R.run (ch :: body) p₀ u₀ = (some (body.length + 1), q, done (R.deliver .body body u)) ∧
      Ended p q := by
  rcases byte_headersDone hd hp hs hok k u with ⟨rfl, q, hbyte, hended⟩ | ⟨hne, hlen, hbyte⟩
  · refine ⟨q, ?_, hended⟩
    rw [Reader.run, hfirst, hbyte, ha.body_nil]
    rfl
  · obtain ⟨q, hq, hended⟩ := run_identity ha hd (p := { p with nread := 0, state := .bodyIdentity }) rfl
      hok hlen hne u
    refine ⟨q, ?_, ⟨hended.paused, hended.method, hended.statusCode⟩⟩
    rw [Reader.run, hfirst, hbyte]
    simp only [hq, Option.map_some]

/-- A reader stops with one of its bytes. -/
theorem run_used_le {bytes : Str} {p q : HttpParser} {u v : τ} {k : Nat}
    (h : R.run bytes p u = (some k, q, v)) : k ≤ bytes.length := by
  have hbyte : ∀ (n : Nat) (ch : UInt8) (p q : HttpParser) (u v : τ) (k : Nat),
      R.byte n ch p u = (some k, q, v) → k ≤ 1 := by
    intro n
    induction n with
    | zero =>
      intro ch p q u v k h
      cases h
      exact Nat.zero_le 1
    | succ n ih =>
      intro ch p q u v k h
      rw [Reader.byte] at h
      cases hs : switch p ch with
      | error q' e =>
        rw [hs] at h
        cases h
        exact Nat.zero_le 1
      | go m q' c after =>
        rw [hs] at h
        have hcall : ∀ j, (R.call ch q' u c).2 = some j → j ≤ 1 := by
          intro j hj
          cases c with
          | none => cases hj
          | data e w b =>
            simp only [Reader.call, checkErrno] at hj
            split_ifs at hj <;> cases hj <;> decide
          | notify m =>
            simp only [Reader.call, checkErrno] at hj
            split_ifs at hj
            cases hj
            exact Nat.le_refl 1
          | headersComplete =>
            simp only [Reader.call, checkErrno] at hj
            split_ifs at hj
            cases hj
            exact Nat.zero_le 1
        rcases hc : R.call ch q' u c with ⟨⟨q'', v'⟩, _ | used⟩
        · simp only [hc] at h
          cases after with
          | next => cases h
          | again => exact ih _ _ _ _ _ _ h
          | ret =>
            cases h
            exact Nat.le_refl 1
        · simp only [hc] at h
          cases h
          exact hcall k (by rw [hc])
  induction bytes generalizing p u k with
  | nil => cases h
  | cons ch rest ih =>
    rw [Reader.run] at h
    rcases hs : R.stepByte ch p u with ⟨_ | used, p', u'⟩
    · simp only [hs] at h
      rcases hr : R.run rest p' u' with ⟨_ | j, q', v'⟩
      · simp [hr] at h
      · simp only [hr, Option.map_some] at h
        cases h
        exact Nat.succ_le_succ (ih hr)
    · simp only [hs] at h
      cases h
      have hone : k ≤ 1 := by
        unfold Reader.stepByte at hs
        split_ifs at hs
        · cases hs
          exact Nat.zero_le 1
        · exact hbyte _ _ _ _ _ _ _ hs
      exact Nat.le_trans hone (by simp)

end Wsrv.Http

namespace Wsrv

open Http

namespace MessageLog

/-! ## What is collected of the lines -/

def pairOf (h : HeaderLine) : Str × Str := (h.name, h.value)

/-- The headers that a reader of lines has collected. -/
theorem foldl_lines (hs : List HeaderLine) (hne : ∀ h ∈ hs, h.value ≠ []) (m : MessageLog)
    (hfield : m.flush.field = []) :
    (hs.foldl (HeaderLine.deliver reader) m).flush =
      { m.flush with headers := m.flush.headers ++ hs.map pairOf } := by
  induction hs generalizing m with
  | nil => simp
  | cons h hs ih =>
    have hvalue : h.value ≠ [] := hne h List.mem_cons_self
    have hline : (h.deliver reader m).flush =
        { m.flush with headers := m.flush.headers ++ [pairOf h] } := by
      have hdeliver : h.deliver reader m = { m.flush with field := h.name, value := h.value } := by
        simp only [HeaderLine.deliver, reader, deliver, hfield, m.flush_value, List.nil_append]
      rw [hdeliver, flush, if_neg hvalue]
      simp only [pairOf, hfield, m.flush_value]
    rw [List.foldl_cons, ih (fun h' hh' => hne h' (List.mem_cons_of_mem h hh')) _ (by rw [hline]; exact hfield),
      hline, List.map_cons, List.append_assoc, List.singleton_append]

end MessageLog

namespace RequestParser

open MessageLog (reader reader_additive pairOf)

/-! ## A request as it is written -/

/-- A request line by line; `target` is what stands between the method and the version. -/
structure WireRequest where
  method : ClientMethod
  target : Str
  lines : List HeaderLine
  body : Str

namespace WireRequest

/-- The bytes up to the line feed of the empty line. -/
def head (r : WireRequest) : Str :=
  requestLine (methodOf r.method) r.target ++ (r.lines.flatMap HeaderLine.text ++ [CR])

def bytes (r : WireRequest) : Str := r.head ++ LF :: r.body

/-- A request that the parser can take. -/
structure Sound (r : WireRequest) : Prop where
  target : Target r.target
  lines : ∀ h ∈ r.lines, h.Sound r.body.length
  length : r.body = [] ∨ ∃ h ∈ r.lines, h.isLength = true
  small : r.body.length < 2 ^ 63
  /-- The last byte of the head is counted before the pause and again behind it. -/
  room : r.head.length + 2 ≤ HTTP_MAX_HEADER_SIZE

/-- What the parser collects of it. -/
def log (r : WireRequest) : MessageLog where
  headers := r.lines.map pairOf
  field := []
  value := []
  body := r.body
  protocol := str "HTTP/1.1"
  isComplete := true

end WireRequest

/-- The reader before the first byte. -/
abbrev emptyLog (junk : Bool) : MessageLog := ⟨[], [], [], [], [], junk⟩

theorem begins : reader.Begins fun m => { m with isComplete := false } := fun _ _ => rfl

theorem ends : reader.Ends fun m => { m with isComplete := true } := fun _ _ => rfl

variable {r : WireRequest}

/-- The framing behind the lines. -/
def framed (r : WireRequest) : HttpParser :=
  r.lines.foldl (HeaderLine.frame r.body.length) (frame (behindRequestLine (methodOf r.method) r.target))

/-- The head, before its last byte. -/
theorem takes_head (hr : r.Sound) (junk : Bool) :
    ∃ q, reader.Takes r.head (init .request) (emptyLog junk) q
        (r.lines.foldl (HeaderLine.deliver reader) (emptyLog false)) ∧
      q.nread + 2 ≤ HTTP_MAX_HEADER_SIZE ∧ Placed .headersAlmostDone (framed r) q := by
  have hroom := hr.room
  have hline : (requestLine (methodOf r.method) r.target).length =
      (behindRequestLine (methodOf r.method) r.target).nread := by
    have hversion : (str " HTTP/1.1\r\n").length = 11 := by decide
    have hspace : (str " ").length = 1 := rfl
    simp only [requestLine, behindRequestLine, List.length_append, hversion, hspace]
    omega
  rw [WireRequest.head, List.length_append, List.length_append, List.length_singleton] at hroom
  have hfirst := takes_requestLine reader_additive begins (m := r.method) hr.target (emptyLog junk)
    (by omega)
  have hat : AtLine (frame (behindRequestLine (methodOf r.method) r.target))
      (behindRequestLine (methodOf r.method) r.target) := ⟨.inl rfl, rfl, rfl⟩
  obtain ⟨q₁, hlines, hcount, hq₁⟩ := takes_lines reader_additive hr.small hr.lines hat (emptyLog false)
    (by omega)
  obtain ⟨q₂, hempty, hcount₂, hq₂⟩ := takes_emptyLine (R := reader) hq₁
    (r.lines.foldl (HeaderLine.deliver reader) (emptyLog false)) (by omega)
  exact ⟨q₂, hfirst.append (hlines.append hempty), by omega, hq₂⟩

/-- The parser at the end of the headers, before and behind the pause. -/
theorem sized_headEnd (hr : r.Sound) {q : HttpParser} (hq : frame q = framed r) (n k : Nat) :
    Sized r.body { headEnd { q with nread := n } with nread := k } ∧
      q.method = methodOf r.method ∧ q.flags.trailing = false ∧ q.httpMajor = 1 ∧ q.httpMinor = 1 := by
  have hconnect : methodOf r.method ≠ .CONNECT := by cases r.method <;> decide
  have hm : q.method = methodOf r.method := framed_kept hq (·.method) (fun _ => rfl) fun _ _ => rfl
  have htype : q.type = .request := framed_kept hq (·.type) (fun _ => rfl) fun _ _ => rfl
  have hupgrade : q.flags.upgrade = false := framed_kept hq (·.flags.upgrade) (fun _ => rfl) fun _ _ => rfl
  have hskip : q.flags.skipbody = false := framed_kept hq (·.flags.skipbody) (fun _ => rfl) fun _ _ => rfl
  have hchunked : q.flags.chunked = false := framed_kept hq (·.flags.chunked) (fun _ => rfl) fun _ _ => rfl
  have htrailing : q.flags.trailing = false := framed_kept hq (·.flags.trailing) (fun _ => rfl) fun _ _ => rfl
  have hmajor : q.httpMajor = 1 := framed_kept hq (·.httpMajor) (fun _ => rfl) fun _ _ => rfl
  have hminor : q.httpMinor = 1 := framed_kept hq (·.httpMinor) (fun _ => rfl) fun _ _ => rfl
  refine ⟨⟨?_, hskip, hchunked, ?_, hr.small⟩, hm, htrailing, hmajor, hminor⟩
  · have hno : (q.method == Method.CONNECT) = false := by
      rw [hm]
      exact beq_false_of_ne hconnect
    simp only [headEnd, hupgrade, hno, Bool.or_false]
  · simp only [headEnd]
    rw [framed_length hq]
    split_ifs with hlen
    · exact .inl rfl
    · exact .inr ⟨rfl, by simp [messageNeedsEof, htype], hr.length.resolve_right hlen⟩

/-- What is collected at the end of the headers. -/
def headLog (r : WireRequest) : MessageLog := { r.log with body := [], isComplete := false }

theorem headersEnd_eq (hr : r.Sound) {p : HttpParser} (hmajor : p.httpMajor = 1) (hminor : p.httpMinor = 1) :
    (r.lines.foldl (HeaderLine.deliver reader) (emptyLog false)).headersEnd p = headLog r := by
  have hversion : str "HTTP/" ++ toString 1 ++ str "." ++ toString 1 = str "HTTP/1.1" := by decide
  have hlines := MessageLog.foldl_lines r.lines (fun h hh => (hr.lines h hh).value.ne_nil)
    (emptyLog false) rfl
  rw [MessageLog.headersEnd, hlines, hmajor, hminor, hversion]
  rfl

open Reading in
/-- Behind the headers: the pause, the byte that ends them once more, and the body. -/
theorem text_body (hr : r.Sound) {q : HttpParser} (hq : Placed .headersAlmostDone (framed r) q)
    (hroom : q.nread + 2 ≤ HTTP_MAX_HEADER_SIZE) :
    ∃ p₂, p₂.httpErrno = .ok ∧ owner p₂.state = none ∧
      (∀ text, Reading.text (.going false q (r.lines.foldl (HeaderLine.deliver reader) (emptyLog false)))
        (LF :: text) = resume (reader.run (LF :: text) p₂ (headLog r))) ∧
      ∃ p', reader.run (LF :: r.body) p₂ (headLog r) = (some (r.body.length + 1), p', r.log) ∧
        p'.httpErrno = .paused ∧ p'.method = methodOf r.method := by
  obtain ⟨hs, hok, hframe⟩ := hq
  obtain ⟨hsized, hmethod, htrailing, hmajor, hminor⟩ :=
    sized_headEnd hr hframe (q.nread + 1) (q.nread + 1 + 1)
  have hstep : reader.stepByte LF q (r.lines.foldl (HeaderLine.deliver reader) (emptyLog false)) =
      (some 0, parserPause (headEnd { q with nread := q.nread + 1 }) true, headLog r) := by
    have hswitch := switch_headEnd (p := { q with nread := q.nread + 1 }) hs htrailing
    rw [Reader.stepByte_head (by rw [hs]; rfl) (by omega), passes, Reader.byte, hswitch]
    have haccepts : reader.Accepts := ⟨fun n p m => by cases n <;> rfl, fun p m => rfl⟩
    have hcall : reader.call LF (headEnd { q with nread := q.nread + 1 })
        (r.lines.foldl (HeaderLine.deliver reader) (emptyLog false)) .headersComplete =
        ((parserPause (headEnd { q with nread := q.nread + 1 }) true, headLog r), some 0) := by
      have hlog := headersEnd_eq hr (p := headEnd { q with nread := q.nread + 1 }) hmajor hminor
      rw [haccepts.call_eq LF (p := headEnd { q with nread := q.nread + 1 }) hok, ← hlog]
      rfl
    simp only [hcall]
  have hunpaused : parserPause (parserPause (headEnd { q with nread := q.nread + 1 }) true) false =
      headEnd { q with nread := q.nread + 1 } := by
    simp [parserPause, headEnd, hok]
  refine ⟨headEnd { q with nread := q.nread + 1 }, hok, rfl, fun text => ?_, ?_⟩
  · have hfirst : Reading.byte
        (.going false q (r.lines.foldl (HeaderLine.deliver reader) (emptyLog false))) LF =
        resume (reader.run [LF] (headEnd { q with nread := q.nread + 1 }) (headLog r)) := by
      have hpaused := parserPause_ok (p := headEnd { q with nread := q.nread + 1 }) hok
      rw [Reading.byte, hstep]
      simp [stopped, hpaused, hunpaused, headLog]
    have hsplit := text_append
      (.going false q (r.lines.foldl (HeaderLine.deliver reader) (emptyLog false))) [LF] text
    rw [List.singleton_append] at hsplit
    have hone : Reading.text
        (.going false q (r.lines.foldl (HeaderLine.deliver reader) (emptyLog false))) [LF] =
        resume (reader.run [LF] (headEnd { q with nread := q.nread + 1 }) (headLog r)) := hfirst
    rw [hsplit, hone, resume_text, List.singleton_append]
  · have hbyte := Reader.stepByte_head (R := reader) (c := LF) (u := headLog r)
      (p := headEnd { q with nread := q.nread + 1 }) rfl (by simp only [headEnd]; omega)
    obtain ⟨p', hrun, hended⟩ := run_headersDone reader_additive ends hsized rfl hok 3 (headLog r) hbyte
    refine ⟨p', hrun.trans ?_, hended.paused, hended.method.trans hmethod⟩
    simp [reader, MessageLog.deliver, headLog, WireRequest.log]

open Reading in
/-- Inside of the head the message is not complete. -/
theorem prefix_incomplete {junk : Bool} {q : HttpParser} {m : MessageLog} {t w : Str}
    (hhead : reader.Takes r.head (init .request) (emptyLog junk) q m) (ht : t ≠ [])
    (hsplit : t ++ w = r.head) : ((startReading junk).text t).ok = false := by
  have hwhole := Reader.run_append reader t w (init .request) (emptyLog junk)
  rw [hsplit, show reader.run r.head (init .request) (emptyLog junk) = _ from hhead] at hwhole
  rcases hrun : reader.run t (init .request) (emptyLog junk) with ⟨_ | k, p, m'⟩
  · rw [startReading, text_going t false rfl (Reader.settled_between rfl), hrun]
    -- the first letter begins the message
    obtain ⟨ch, rest, q₀, hmethod, hstep, hok, -, -⟩ := method_quiet r.method
    have hfirst := stepByte_begin (p := init .request) begins (emptyLog junk) hstep rfl hok (by decide)
    obtain ⟨hok₀, hsettled⟩ := Reader.run_settled reader_additive (Reader.Takes.one hfirst) rfl
      (Reader.settled_between rfl)
    cases t with
    | nil => exact absurd rfl ht
    | cons c t =>
      have hc : c = ch := by
        rw [WireRequest.head, requestLine, hmethod] at hsplit
        exact (List.cons.inj hsplit).1
      subst hc
      rw [Reader.run, hfirst] at hrun
      simp only at hrun
      rcases hrest : reader.run t q₀ { emptyLog junk with isComplete := false } with ⟨_ | k, p', m''⟩
      · rw [hrest] at hrun
        cases hrun
        obtain ⟨hok', -⟩ := Reader.run_settled reader_additive hrest hok₀ hsettled
        exact run_incomplete hrest hok₀ hsettled (by rw [hok']; decide) rfl
      · rw [hrest] at hrun
        cases hrun
  · rw [hrun] at hwhole
    cases hwhole

open Reading in
/-- **The reader takes a request that is written line by line**, and is complete with its last byte. -/
theorem text_bytes (hr : r.Sound) (junk : Bool) :
    (∃ p, (startReading junk).text r.bytes = .complete p r.log ∧ p.method = methodOf r.method) ∧
      ∀ t u, t ≠ [] → u ≠ [] → r.bytes = t ++ u → ((startReading junk).text t).ok = false := by
  obtain ⟨q, hhead, hroom, hq⟩ := takes_head hr junk
  obtain ⟨p₂, hok₂, howner₂, hbehind, p', hrun, hpaused, hmethod⟩ := text_body hr hq hroom
  have htext : (startReading junk).text r.head =
      .going false q (r.lines.foldl (HeaderLine.deliver reader) (emptyLog false)) := by
    rw [startReading, text_going r.head false rfl (Reader.settled_between rfl)]
    have hrunHead : reader.run r.head (init .request) (emptyLog junk) = _ := hhead
    rw [hrunHead]
  constructor
  · refine ⟨p', ?_, hmethod⟩
    rw [WireRequest.bytes, text_append, htext, hbehind, hrun]
    simp [resume, hpaused, WireRequest.log]
  · intro t u ht hu hsplit
    rw [WireRequest.bytes] at hsplit
    rcases List.append_eq_append_iff.mp hsplit with ⟨w, rfl, hw⟩ | ⟨w, hw, -⟩
    · cases w with
      | nil => exact prefix_incomplete (w := []) hhead ht (by rw [List.append_nil, List.append_nil])
      | cons c w =>
        obtain ⟨rfl, htail⟩ := List.cons.inj hw
        have hbody : r.body = w ++ u := htail
        rw [text_append, htext, hbehind]
        rcases hfront : reader.run (LF :: w) p₂ (headLog r) with ⟨_ | k, p'', m⟩
        · obtain ⟨hok, -⟩ := Reader.run_settled reader_additive hfront hok₂
            (Reader.settled_between howner₂)
          exact run_incomplete hfront hok₂ (Reader.settled_between howner₂) (by rw [hok]; decide) rfl
        · -- a run that has stopped would not come to the last byte
          have hle := run_used_le hfront
          have hwhole := Reader.run_append reader (LF :: w) u p₂ (headLog r)
          rw [hfront, List.cons_append, ← hbody, hrun] at hwhole
          have hk : r.body.length + 1 = k := Option.some.inj (congrArg Prod.fst hwhole)
          have hpos := List.length_pos_of_ne_nil hu
          rw [hbody, List.length_append] at hk
          rw [List.length_cons] at hle
          omega
    · exact prefix_incomplete hhead ht hw.symm

/-- **A request is delivered**, in whatever reads it comes: its last read completes the message, with
the method, the headers, the body and the version that were written, and of the target what the read
with its end has. -/
theorem delivered (hr : r.Sound) (junk : Bool) {reads : List Str} (hc : Cut r.bytes reads) :
    ∃ rp, (new junk).feed reads = (.ok, rp) ∧ rp.parser.method = methodOf r.method ∧
      rp.fields.eraseUrl = r.log.fields ∧ rp.fields.url = targetTail reads := by
  obtain ⟨⟨p, htext, hmethod⟩, hfirst⟩ := text_bytes hr junk
  obtain ⟨hflatten, hne⟩ := hc
  have hreads : reads ≠ [] := by
    rintro rfl
    simp [WireRequest.bytes] at hflatten
  have hok : ((startReading junk).text reads.flatten).ok = true := by
    rw [hflatten, htext]
    rfl
  obtain ⟨hresult, hat, hurl⟩ := feed_reading (at_start junk) (urlAt_start junk) hne hreads hok
    (fun t u ht hu hsplit => hfirst t u ht hu (hflatten ▸ hsplit))
  change Reading.At _ ((startReading junk).text reads.flatten) at hat
  rw [hflatten, htext] at hat
  exact ⟨_, Prod.ext hresult rfl, hat.1.trans hmethod, hat.2, hurl⟩

open Reading in
/-- As long as the message is not complete, the parser waits for more. -/
theorem feed_waits {rp : RequestParser} {seen : Bool} {p : HttpParser} {m : MessageLog} {reads : List Str}
    (h : At rp (.going seen p m)) (hne : ∀ data ∈ reads, data ≠ [])
    (hgoes : Reading.text (.going seen p m) reads.flatten ≠ .failed)
    (hnot : ∀ t u, t ≠ [] → reads.flatten = t ++ u → (Reading.text (.going seen p m) t).ok = false) :
    (rp.feed reads).1 = .indeterminate := by
  induction reads generalizing rp seen p m with
  | nil => rfl
  | cons data rest ih =>
    have hdata : data ≠ [] := hne data List.mem_cons_self
    rw [List.flatten_cons, text_append] at hgoes
    have hfirst := hnot data rest.flatten hdata (List.flatten_cons ..)
    generalize hr : Reading.text (.going seen p m) data = r at hgoes hfirst
    have hgoing : r ≠ .failed := by
      rintro rfl
      exact hgoes (text_failed _)
    obtain ⟨hat, hresult⟩ := (parse_reading h hdata).1 (by rw [hr]; exact hgoing)
    rw [hr] at hat hresult
    rw [result, hfirst] at hresult
    rw [feed]
    rcases hparse : rp.parse data with ⟨res, rp'⟩
    rw [hparse] at hat hresult
    obtain rfl : res = .indeterminate := hresult
    cases r with
    | complete p' m' => cases hfirst
    | failed => exact absurd rfl hgoing
    | going seen' p' m' =>
      refine ih hat (fun d hd => hne d (List.mem_cons_of_mem _ hd)) hgoes fun t u ht htu => ?_
      have hlater := hnot (data ++ t) u (by simp [hdata]) (by
        rw [List.flatten_cons, htu, List.append_assoc])
      rwa [text_append, hr] at hlater

/-- Before its last read a request is not complete. -/
theorem waits (hr : r.Sound) (junk : Bool) {reads : List Str} (hc : Cut r.bytes reads) {i : Nat}
    (hi : i < reads.length) : ((new junk).feed (reads.take i)).1 = .indeterminate := by
  obtain ⟨⟨p, htext, -⟩, hfirst⟩ := text_bytes hr junk
  obtain ⟨hflatten, hne⟩ := hc
  have hsplit : r.bytes = (reads.take i).flatten ++ (reads.drop i).flatten := by
    rw [← List.flatten_append, List.take_append_drop, hflatten]
  have hrest : (reads.drop i).flatten ≠ [] := by
    rw [List.drop_eq_getElem_cons hi, List.flatten_cons]
    exact fun h => hne _ (List.getElem_mem hi) (List.append_eq_nil_iff.mp h).1
  refine feed_waits (at_start junk) (fun d hd => hne d (List.mem_of_mem_take hd)) ?_ ?_
  · intro hfailed
    rw [hsplit, Reading.text_append] at htext
    have hfailed' : (startReading junk).text (reads.take i).flatten = .failed := hfailed
    rw [hfailed', Reading.text_failed] at htext
    cases htext
  · intro t u ht htu
    exact hfirst t (u ++ (reads.drop i).flatten) ht (by simp [hrest]) (by
      rw [hsplit, htu, List.append_assoc])

/-! ## The target -/

theorem scan_target {text : Str} (ht : ∀ c ∈ text, printing c = true) (l : Str) :
    text.foldl TargetScan.byte ⟨.target, l⟩ = ⟨.target, l ++ text⟩ := by
  induction text generalizing l with
  | nil => simp
  | cons c text ih =>
    obtain ⟨⟨hspace, hcr, hlf⟩, -⟩ := printing_target (ht c List.mem_cons_self)
    have hbyte : TargetScan.byte ⟨.target, l⟩ c = ⟨.target, l ++ [c]⟩ := by
      simp [TargetScan.byte, ScanStage.next, hspace, hcr, hlf]
    rw [List.foldl_cons, hbyte, ih fun d hd => ht d (List.mem_cons_of_mem c hd)]
    simp

/-- The scan finds the target that was written. -/
theorem targetTail_bytes (hr : r.Sound) : targetTail [r.bytes] = r.target := by
  obtain ⟨target, htarget⟩ : ∃ t, r.target = '/'.toUInt8 :: t := by
    have hslash := hr.target.slash
    cases h : r.target with
    | nil =>
      rw [h] at hslash
      cases hslash
    | cons c t =>
      rw [h] at hslash
      exact ⟨t, by rw [Option.some.inj hslash]⟩
  have hprint : ∀ c ∈ target, printing c = true := fun c hc =>
    hr.target.printing c (by rw [htarget]; exact List.mem_cons_of_mem _ hc)
  have hmethod : (methodString (methodOf r.method) ++ str " ").foldl TargetScan.byte .start =
      ⟨.spaces, []⟩ := by
    cases r.method <;> rfl
  have hslash : TargetScan.byte ⟨.spaces, []⟩ '/'.toUInt8 = ⟨.target, ['/'.toUInt8]⟩ := rfl
  have hspace : ∀ l, TargetScan.byte ⟨.target, l⟩ ' '.toUInt8 = ⟨.done, l⟩ := fun _ => rfl
  have hsplit : r.bytes = (methodString (methodOf r.method) ++ str " ") ++ ('/'.toUInt8 :: (target ++
      (' '.toUInt8 :: (str "HTTP/1.1\r\n" ++ (r.lines.flatMap HeaderLine.text ++ [CR]) ++ LF :: r.body)))) := by
    rw [WireRequest.bytes, WireRequest.head, requestLine, htarget]
    simp [str]
  rw [targetTail, List.foldl_cons, List.foldl_nil]
  change (r.bytes.foldl TargetScan.byte .start).text = r.target
  rw [hsplit, List.foldl_append, hmethod, List.foldl_cons, hslash, List.foldl_append,
    scan_target hprint, List.foldl_cons, hspace, TargetScan.foldl_done rfl, htarget]
  rfl

end RequestParser

/-! ## What the client writes -/

namespace HTTPClientImpl

open RequestParser

/-- The lines that `execute` writes behind the request line. -/
def headerLines (req : HTTPClientRequest) : List HeaderLine :=
  ⟨str "Host", req.url.host, true⟩ ::
    (req.headers.toList.map fun kv => ⟨kv.1, kv.2, false⟩) ++
    (if req.body = [] then []
      else [⟨str "Content-Length", toString req.body.length, false⟩, ⟨str "Content-Type", req.mime, true⟩]) ++
    [⟨str "Accept", str "*/*", true⟩, ⟨str "Connection", str "close", true⟩]

def wire (req : HTTPClientRequest) : WireRequest where
  method := req.method
  target := '/'.toUInt8 :: req.url.file
  lines := headerLines req
  body := req.body

/-- A request that arrives as it is written. -/
structure Sendable (req : HTTPClientRequest) : Prop where
  connects : connects req.url = true
  file : ∀ c ∈ req.url.file, printing c = true
  host : FieldValue req.url.host
  headers : ∀ kv ∈ req.headers.toList, FieldName kv.1 ∧ FieldValue kv.2 ∧
    lowerName kv.1 ∉ [str "content-length", str "transfer-encoding", str "upgrade"]
  mime : req.body ≠ [] → FieldValue req.mime
  small : req.body.length < 2 ^ 63
  room : (wire req).head.length + 2 ≤ HTTP_MAX_HEADER_SIZE

theorem requestStream_wire (req : HTTPClientRequest) : requestStream req = (wire req).bytes := by
  have hmethod : req.methodString = methodString (methodOf req.method) := by
    unfold HTTPClientRequest.methodString
    cases req.method <;> rfl
  have hheaders : writeHeaders req.headers =
      (req.headers.toList.map fun kv => (⟨kv.1, kv.2, false⟩ : HeaderLine)).flatMap HeaderLine.text := by
    rw [writeHeaders, List.flatMap_map]
    refine List.flatMap_congr fun kv _ => ?_
    simp [HeaderLine.text, HeaderLine.pad, str, CR, LF]
  rw [requestStream, requestEnd, hmethod, hheaders, WireRequest.bytes, WireRequest.head, requestLine]
  simp only [wire, headerLines]
  split_ifs with hbody
  · simp [HeaderLine.text, HeaderLine.pad, str, CR, LF, hbody]
  · simp [HeaderLine.text, HeaderLine.pad, str, CR, LF]

theorem Sendable.sound {req : HTTPClientRequest} (h : Sendable req) : (wire req).Sound where
  target := ⟨rfl, fun c hc => by
    rcases List.mem_cons.mp hc with rfl | hc
    · decide
    · exact h.file c hc⟩
  lines := by
    intro l hl
    simp only [wire, headerLines, List.mem_append, List.mem_cons, List.mem_map, List.not_mem_nil,
      or_false] at hl
    rcases hl with ((rfl | ⟨kv, hkv, rfl⟩) | hl) | rfl | rfl
    · exact HeaderLine.sound_of_calm (by decide +kernel) h.host (by decide +kernel) _ _
    · obtain ⟨hname, hvalue, hcalm⟩ := h.headers kv hkv
      exact HeaderLine.sound_of_calm hname hvalue hcalm _ _
    · split_ifs at hl with hbody
      · cases hl
      · simp only [List.mem_cons, List.not_mem_nil, or_false] at hl
        rcases hl with rfl | rfl
        · exact HeaderLine.sound_length _ _
        · exact HeaderLine.sound_of_calm (by decide +kernel) (h.mime hbody) (by decide +kernel) _ _
    · exact HeaderLine.sound_of_calm (by decide +kernel) (by decide +kernel) (by decide +kernel) _ _
    · exact HeaderLine.sound_of_calm (by decide +kernel) (by decide +kernel) (by decide +kernel) _ _
  length := by
    by_cases hbody : req.body = []
    · exact .inl hbody
    · refine .inr ⟨⟨str "Content-Length", toString req.body.length, false⟩, ?_, rfl⟩
      simp [wire, headerLines, hbody]
  small := h.small
  room := h.room

end HTTPClientImpl

end Wsrv
