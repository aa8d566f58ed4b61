import Wsrv.PrematureCompletion
import Wsrv.HttpElements

/-!
# Errors behind the headers

`parse` runs the parser again from the byte that ends the headers, and does not
look at the error number of this second run: an error that comes in the same
read as the end of the headers is answered with `HTTP_PARSER_INDETERMINATE`.
Every other error is reported by the call that meets it
(`errors_reported_iff`).
-/

namespace Wsrv

open Http

/-! ## The flag of a reader -/

/-- What the callbacks do to `is_complete_`. -/
def flagReader : Reader Bool where
  deliver _ _ b := b
  notify n _ _ := match n with
    | .messageBegin => ⟨0, false, false⟩
    | .messageComplete => ⟨0, true, true⟩
  headersComplete _ b := ⟨0, true, b⟩

theorem flagReader_additive : flagReader.Additive := ⟨fun _ _ _ _ => rfl, fun _ => rfl⟩

theorem RequestParser.settings_flags : Reads settings flagReader RequestFields.isComplete where
  data e p text u := by
    cases e with
    | headerField =>
      simp only [Settings.data, settings, RequestFields.onHeaderField, RequestFields.flushHeader]
      split <;> rfl
    | url | status | headerValue | body => rfl
  notify n p u := by cases n <;> rfl
  headersComplete p u := by
    simp only [Settings.headersComplete, settings, RequestFields.onHeadersComplete,
      RequestFields.flushHeader]
    split <;> rfl

/-- A run of the parser, as far as the flag goes. -/
theorem execute_flag {p : HttpParser} (hok : p.httpErrno = .ok) (u : RequestFields) {data : Str}
    (hne : data ≠ []) :
    let r := execute RequestParser.settings p u data
    let s := flagReader.run data p u.isComplete
    r.1 = s.1.getD data.length ∧ r.2.1 = s.2.1 ∧ r.2.2.isComplete = s.2.2 := by
  obtain ⟨hused, hparser, hflag, -⟩ := execute_eager RequestParser.settings_flags
    flagReader_additive p u data hok hne fun _ _ => rfl
  exact ⟨hused, hparser, hflag id fun _ _ _ => rfl⟩

/-! ## Phases of a message -/

/-- The states between two messages. -/
def idle : State → Bool
  | .startReq | .startRes | .startReqOrRes | .dead => true
  | _ => false

/-- **An invariant of the parser and the flag** that holds until the message is complete or its
headers are, `H`; `E` holds wherever the parser fails. -/
structure Phase (I : HttpParser → Bool → Prop) (H : UInt8 → State → Bool → Prop) (E : Prop) :
    Prop where
  count : ∀ p b, I p b → I (countByte p) b
  overflow : ∀ p b, I p b → parsingHeader p.state = true → E
  step : ∀ p b ch, I p b →
    match switch p ch with
    | .error _ _ => E
    | .go _ q c after =>
      match c with
      | .none | .data _ _ _ => I q b ∧ after ≠ .ret
      | .notify .messageBegin => I q false ∧ after ≠ .ret
      | .notify .messageComplete => idle q.state = true
      | .headersComplete => H ch q.state b

/-- How a run of a phase may end. -/
def Phase.Ends (I : HttpParser → Bool → Prop) (H : UInt8 → State → Bool → Prop) (E : Prop)
    (bytes : Str) : Option Nat × HttpParser × Bool → Prop
  | (none, q, b) => q.httpErrno = .ok ∧ I q b
  | (some k, q, b) =>
    (q.httpErrno.isError ∧ k < bytes.length ∧ E) ∨
      (q.httpErrno = .paused ∧ b = true ∧ idle q.state = true ∧ k ≤ bytes.length) ∨
      (q.httpErrno = .paused ∧ ∃ ch, bytes[k]? = some ch ∧ H ch q.state b)

variable {I : HttpParser → Bool → Prop} {H : UInt8 → State → Bool → Prop} {E : Prop}

theorem flagReader_accepts : flagReader.Accepts where
  notify n p b := by cases n <;> rfl
  headersComplete p b := rfl

/-- The callback of a step. -/
theorem flagReader_call (ch : UInt8) {p : HttpParser} (hok : p.httpErrno = .ok) (b : Bool) (c : Call) :
    flagReader.call ch p b c =
      match c with
      | .none | .data _ _ _ => ((p, b), none)
      | .notify .messageBegin => ((p, false), none)
      | .notify .messageComplete => ((parserPause p true, true), some 1)
      | .headersComplete => ((parserPause p true, b), some 0) := by
  rw [flagReader_accepts.call_eq ch hok]
  cases c with
  | none => rfl
  | data e w k => rfl
  | notify n => cases n <;> rfl
  | headersComplete => rfl

theorem flagReader_feed (o : Option Elem) (text : Str) (b : Bool) :
    flagReader.feed o text b = b := by
  cases o <;> rfl

theorem Phase.byte (h : Phase I H E) {n : Nat} {ch : UInt8} {p : HttpParser} {b : Bool}
    (hok : p.httpErrno = .ok) (hn : rank p.state < n) (hp : I p b) :
    Phase.Ends I H E [ch] (flagReader.byte n ch p b) := by
  induction n generalizing p b with
  | zero => exact absurd hn (Nat.not_lt_zero _)
  | succ n ih =>
    have hstep := h.step p b ch hp
    have hd := switch_disciplined p ch
    rw [Reader.byte]
    cases hs : switch p ch with
    | error q e =>
      rw [hs] at hstep hd
      exact .inl ⟨hd, by simp, hstep⟩
    | go m q c after =>
      rw [hs] at hstep hd
      have hq : q.httpErrno = .ok := hd.1.trans hok
      have hnext : ∀ b', I q b' → Phase.Ends I H E [ch]
          (none, q, if c = .none then flagReader.feed (m <|> owner p.state) [ch] b' else b') := by
        intro b' hi
        rw [flagReader_feed, ite_self]
        exact ⟨hq, hi⟩
      have hagain : ∀ b', I q b' → after = .again →
          Phase.Ends I H E [ch] (flagReader.byte n ch q b') := by
        intro b' hi hafter
        have hlt := hd.2.2.1 hafter
        exact ih hq (by omega) hi
      simp only [flagReader_call ch hq]
      cases c with
      | none => exact Reader.after_cases hstep.2 (hnext b hstep.1) (hagain b hstep.1)
      | data e w k => exact Reader.after_cases hstep.2 (hnext b hstep.1) (hagain b hstep.1)
      | notify k =>
        cases k with
        | messageBegin => exact Reader.after_cases hstep.2 (hnext false hstep.1) (hagain false hstep.1)
        | messageComplete =>
          exact .inr (.inl ⟨parserPause_ok hq, rfl, by rw [parserPause_state]; exact hstep, by simp⟩)
      | headersComplete =>
        exact .inr (.inr ⟨parserPause_ok hq, ch, rfl, by rw [parserPause_state]; exact hstep⟩)

theorem Phase.stepByte (h : Phase I H E) {ch : UInt8} {p : HttpParser} {b : Bool}
    (hok : p.httpErrno = .ok) (hp : I p b) : Phase.Ends I H E [ch] (flagReader.stepByte ch p b) := by
  unfold Reader.stepByte
  split
  · rename_i hmax
    exact .inl ⟨(by decide : Errno.headerOverflow.isError), by simp, h.overflow p b hp hmax.1⟩
  · have hcount : (countByte p).httpErrno = .ok := by
      unfold countByte
      split <;> exact hok
    exact h.byte hcount (rank_lt_passes _) (h.count p b hp)

/-- **A run of a phase.** -/
theorem Phase.run (h : Phase I H E) {bytes : Str} {p : HttpParser} {b : Bool}
    (hok : p.httpErrno = .ok) (hp : I p b) : Phase.Ends I H E bytes (flagReader.run bytes p b) := by
  induction bytes generalizing p b with
  | nil => exact ⟨hok, hp⟩
  | cons ch rest ih =>
    have hstep : Phase.Ends I H E [ch] (flagReader.stepByte ch p b) := h.stepByte hok hp
    rw [Reader.run]
    rcases hs : flagReader.stepByte ch p b with ⟨_ | k, q, b'⟩
    · rw [hs] at hstep
      have hrest := ih hstep.1 hstep.2
      rcases hr : flagReader.run rest q b' with ⟨_ | k, q', b''⟩
      · rw [hr] at hrest
        simp only [hr, Option.map_none]
        exact hrest
      · rw [hr] at hrest
        simp only [hr, Option.map_some]
        rcases hrest with ⟨herror, hk, he⟩ | ⟨hpaused, hb, hidle, hk⟩ | ⟨hpaused, c, hc, hh⟩
        · exact .inl ⟨herror, by simpa using hk, he⟩
        · exact .inr (.inl ⟨hpaused, hb, hidle, by simpa using hk⟩)
        · exact .inr (.inr ⟨hpaused, c, by simpa using hc, hh⟩)
    · rw [hs] at hstep
      rcases hstep with ⟨herror, hk, he⟩ | ⟨hpaused, hb, hidle, hk⟩ | ⟨hpaused, c, hc, hh⟩
      · exact .inl ⟨herror, by simp at hk ⊢; omega, he⟩
      · exact .inr (.inl ⟨hpaused, hb, hidle, by simp at hk ⊢; omega⟩)
      · cases k with
        | zero => exact .inr (.inr ⟨hpaused, c, hc, hh⟩)
        | succ k => simp at hc

/-! ## The phases of a request -/

/-- Between messages the flag is what it was; inside one it is false. -/
def Underway (p : HttpParser) (b : Bool) : Prop := idle p.state = true ∨ b = false

/-- The pause at the end of the headers. -/
def HeadersDone (ch : UInt8) (s : State) (b : Bool) : Prop :=
  ch = LF ∧ s = .headersDone ∧ b = false

/-- What a step does to the bounds of a message. -/
def Bounded (s : State) (ch : UInt8) : Step → Prop
  | .error _ _ => True
  | .go _ q c after =>
    match c with
    | .none | .data _ _ _ => (idle s = true → idle q.state = true) ∧ after ≠ .ret
    | .notify .messageBegin => after ≠ .ret
    | .notify .messageComplete => idle q.state = true
    | .headersComplete => ch = LF ∧ q.state = .headersDone ∧ idle s = false

@[simp] theorem bounded_finish (s : State) (ch : UInt8) (p : HttpParser) (after : After) :
    Bounded s ch (finish p after) := by
  simp only [Bounded, finish, newMessage, startState]
  split_ifs <;> rfl

theorem bounded_start (p : HttpParser) (ch : UInt8) : Bounded p.state ch (switchStart p ch) := by
  unfold switchStart
  split <;> rename_i hp <;> (try split_ifs) <;>
    simp [Bounded, Step.next, Step.again, idle, hp]

theorem bounded_responseLine (p : HttpParser) (ch : UInt8) :
    Bounded p.state ch (switchResponseLine p ch) := by
  unfold switchResponseLine firstMajor moreMajor firstMinor moreMinor Step.expect
  simp only
  split <;> rename_i hp <;> (try split_ifs) <;>
    simp [Bounded, Step.next, idle, hp]

theorem bounded_requestTarget (p : HttpParser) (ch : UInt8) :
    Bounded p.state ch (switchRequestTarget p ch) := by
  unfold switchRequestTarget switchMethod urlChar
  simp only
  split <;> rename_i hp <;> (try split_ifs) <;> (try split) <;>
    simp [Bounded, Step.next, idle, hp]

theorem bounded_requestVersion (p : HttpParser) (ch : UInt8) :
    Bounded p.state ch (switchRequestVersion p ch) := by
  unfold switchRequestVersion firstMajor moreMajor firstMinor moreMinor Step.expect
  simp only
  split <;> rename_i hp <;> (try split_ifs) <;>
    simp [Bounded, Step.next, idle, hp]

theorem bounded_headerField (p : HttpParser) (ch : UInt8) :
    Bounded p.state ch (switchHeaderField p ch) := by
  unfold switchHeaderField
  simp only
  split <;> rename_i hp <;> (try split_ifs) <;>
    simp [Bounded, Step.next, Step.again, idle, hp]

theorem bounded_headerValueStart (p : HttpParser) (ch : UInt8) :
    Bounded p.state ch (switchHeaderValueStart p ch) := by
  unfold switchHeaderValueStart headerValueStart Step.expect
  simp only
  split <;> rename_i hp <;> (try split_ifs) <;> (try split) <;>
    simp [Bounded, Step.next, idle, hp]

theorem bounded_headerValue (p : HttpParser) (ch : UInt8) :
    Bounded p.state ch (switchHeaderValue p ch) := by
  unfold switchHeaderValue headerValueChar Step.expect
  simp only
  split <;> rename_i hp <;> (try split_ifs) <;> (try split) <;> (try split) <;>
    simp [Bounded, Step.next, Step.again, idle, hp]

theorem bounded_headersEnd (p : HttpParser) (ch : UInt8) :
    Bounded p.state ch (switchHeadersEnd p ch) := by
  unfold switchHeadersEnd
  simp only
  split <;> rename_i hp
  · split_ifs with hch
    · exact trivial
    · exact bounded_finish ..
    · exact ⟨not_not.mp hch, rfl, by rw [hp]; rfl⟩
  · split_ifs <;> first
      | exact trivial
      | exact bounded_finish ..
      | simp [Bounded, Step.next, idle, hp]
  · exact trivial

theorem bounded_chunk (p : HttpParser) (ch : UInt8) : Bounded p.state ch (switchChunk p ch) := by
  unfold switchChunk
  simp only
  split <;> rename_i hp <;> (try split) <;> (try split) <;> (try split) <;>
    simp [Bounded, Step.next, idle, hp]

theorem bounded_body (p : HttpParser) (ch : UInt8) : Bounded p.state ch (switchBody p) := by
  unfold switchBody
  simp only
  split <;> rename_i hp
  · split_ifs <;> simp [Bounded, idle, hp]
  · simp [Bounded, idle, hp]
  · split_ifs <;> simp [Bounded, idle, hp]
  · exact bounded_finish ..
  · exact trivial

theorem switch_bounded (p : HttpParser) (ch : UInt8) : Bounded p.state ch (switch p ch) :=
  switch_parts (P := Bounded p.state ch) (bounded_start p ch) (bounded_responseLine p ch)
    (bounded_requestTarget p ch) (bounded_requestVersion p ch) (bounded_headerField p ch)
    (bounded_headerValueStart p ch) (bounded_headerValue p ch) (bounded_headersEnd p ch)
    (bounded_chunk p ch) (bounded_body p ch)

theorem underway_phase : Phase Underway HeadersDone True where
  count p b h := by
    unfold countByte
    split <;> exact h
  overflow _ _ _ _ := trivial
  step p b ch h := by
    have hb := switch_bounded p ch
    cases hs : switch p ch with
    | error q e => trivial
    | go m q c after =>
      rw [hs] at hb
      cases c with
      | none => exact ⟨h.imp_left hb.1, hb.2⟩
      | data e w k => exact ⟨h.imp_left hb.1, hb.2⟩
      | notify n =>
        cases n with
        | messageBegin => exact ⟨.inr rfl, hb⟩
        | messageComplete => exact hb
      | headersComplete =>
        exact ⟨hb.1, hb.2.1, h.resolve_left (by rw [hb.2.2]; decide)⟩

/-! ## Behind the headers -/

/-- The states of a chunked body and of its trailer. -/
def inChunks (p : HttpParser) : Bool :=
  match p.state with
  | .chunkSizeStart | .chunkSize | .chunkParameters | .chunkSizeAlmostDone | .chunkData
  | .chunkDataAlmostDone | .chunkDataDone => true
  | .headerFieldStart | .headerField | .headerValueDiscardWs | .headerValueDiscardWsAlmostDone
  | .headerValueDiscardLws | .headerValueStart | .headerValue | .headerValueLws
  | .headerAlmostDone | .headersAlmostDone => p.flags.trailing
  | _ => false

/-- A step in a chunked body, which ends with its trailer. -/
def ChunkStep : Step → Prop
  | .error _ _ => True
  | .go _ q c after =>
    match c with
    | .none | .data _ _ _ => inChunks q = true ∧ after ≠ .ret
    | .notify .messageBegin => False
    | .notify .messageComplete => idle q.state = true
    | .headersComplete => False

theorem matchWord_kept (p : HttpParser) (c : UInt8) (word : Str) (matched : HeaderState) :
    (matchWord p c word matched).state = p.state ∧ (matchWord p c word matched).flags = p.flags := by
  unfold matchWord
  simp only
  split_ifs <;> exact ⟨rfl, rfl⟩

theorem headerFieldChar_kept (p : HttpParser) (ch c : UInt8) :
    (headerFieldChar p ch c).state = p.state ∧ (headerFieldChar p ch c).flags = p.flags := by
  unfold headerFieldChar
  split <;> first
    | exact matchWord_kept ..
    | exact ⟨rfl, rfl⟩
    | (split_ifs <;> exact ⟨rfl, rfl⟩)

theorem headerFlags_trailing (p : HttpParser) : (headerFlags p).trailing = p.flags.trailing := by
  unfold headerFlags
  split <;> rfl

theorem chunkStep_headerField {p : HttpParser} (ch : UInt8) (h : inChunks p = true)
    (hp : p.state = .headerFieldStart ∨ p.state = .headerField) :
    ChunkStep (switchHeaderField p ch) := by
  unfold switchHeaderField
  rcases hp with hp | hp <;> simp only [inChunks, hp] at h ⊢
  · split_ifs <;> simp [ChunkStep, Step.next, Step.again, inChunks, h]
  · split_ifs
    · simp [ChunkStep, Step.next, inChunks, headerFieldChar_kept, hp, h]
    all_goals simp [ChunkStep, inChunks, h]

theorem chunkStep_valueStart {p : HttpParser} (ch : UInt8) (h : p.flags.trailing = true) :
    ChunkStep (headerValueStart p ch) := by
  unfold headerValueStart
  simp only
  split
  · simp [ChunkStep, inChunks, h]
  · simp [ChunkStep, inChunks, h]
  · split_ifs <;> simp [ChunkStep, inChunks, h]
  · simp [ChunkStep, inChunks, h]
  · simp [ChunkStep, inChunks, h]

theorem chunkStep_headerValueStart {p : HttpParser} (ch : UInt8) (h : inChunks p = true) :
    ChunkStep (switchHeaderValueStart p ch) := by
  unfold switchHeaderValueStart Step.expect
  split <;> rename_i hp <;> simp only [inChunks, hp] at h
  · split_ifs
    · simp [ChunkStep, Step.next, inChunks, hp, h]
    · simp [ChunkStep, Step.next, inChunks, h]
    · simp [ChunkStep, Step.next, inChunks, h]
    · exact chunkStep_valueStart ch h
  · exact chunkStep_valueStart ch h
  · split_ifs <;> simp [ChunkStep, Step.next, inChunks, h]
  · split_ifs <;> simp [ChunkStep, Step.next, inChunks, h]
  · trivial

theorem chunkStep_headerValue {p : HttpParser} (ch : UInt8) (h : inChunks p = true) :
    ChunkStep (switchHeaderValue p ch) := by
  unfold switchHeaderValue Step.expect
  split <;> rename_i hp <;> simp only [inChunks, hp] at h
  · split_ifs
    · simp [ChunkStep, inChunks, h]
    · simp [ChunkStep, inChunks, h]
    · unfold headerValueChar
      simp only
      split <;> (try split_ifs) <;> (try split) <;>
        simp [ChunkStep, Step.next, inChunks, hp, h, matchWord_kept]
  · split_ifs <;> simp [ChunkStep, Step.next, inChunks, h]
  · split_ifs <;> simp [ChunkStep, Step.again, inChunks, h, headerFlags_trailing]
  · trivial

theorem chunkStep_chunk (p : HttpParser) (ch : UInt8) : ChunkStep (switchChunk p ch) := by
  unfold switchChunk
  simp only
  split <;> rename_i hs <;> (try split) <;> (try split) <;> (try split) <;>
    simp [ChunkStep, Step.next, inChunks, hs]

theorem chunkStep_data {p : HttpParser} (hp : p.state = .chunkData) : ChunkStep (switchBody p) := by
  unfold switchBody
  simp only [hp]
  split_ifs <;> simp [ChunkStep, inChunks]

theorem chunkStep_trailerEnd {p : HttpParser} (ch : UInt8) (hp : p.state = .headersAlmostDone)
    (h : p.flags.trailing = true) : ChunkStep (switchHeadersEnd p ch) := by
  unfold switchHeadersEnd
  simp only [hp, h, if_true]
  split_ifs
  · trivial
  · exact bounded_finish .dead ch p .next

theorem switch_chunks {p : HttpParser} (ch : UInt8) (h : inChunks p = true) :
    ChunkStep (switch p ch) := by
  unfold switch
  split <;> rename_i hs
  all_goals first
    | exact chunkStep_headerField ch h (by simp [hs])
    | exact chunkStep_headerValueStart ch h
    | exact chunkStep_headerValue ch h
    | exact chunkStep_chunk p ch
    | exact chunkStep_data hs
    | exact chunkStep_trailerEnd ch hs (by simpa [inChunks, hs] using h)
    | simp [inChunks, hs] at h

/-- A chunked body is read without a flag and without a second end of headers. -/
theorem chunks_phase :
    Phase (fun p b => b = false ∧ inChunks p = true) (fun _ _ _ => False) True where
  count p b h := by
    unfold countByte
    split <;> exact h
  overflow _ _ _ _ := trivial
  step p b ch h := by
    have hc := switch_chunks ch h.2
    cases hs : switch p ch with
    | error q e => trivial
    | go m q c after =>
      rw [hs] at hc
      cases c with
      | none => exact ⟨⟨h.1, hc.1⟩, hc.2⟩
      | data e w k => exact ⟨⟨h.1, hc.1⟩, hc.2⟩
      | notify n =>
        cases n with
        | messageBegin => exact hc.elim
        | messageComplete => exact hc
      | headersComplete => exact hc

/-- The states of a body that is not chunked. -/
def inBody : State → Bool
  | .bodyIdentity | .bodyIdentityEof | .messageDone => true
  | _ => false

/-- **A body that is not chunked is read without an error.** -/
theorem body_phase :
    Phase (fun p b => b = false ∧ inBody p.state = true) (fun _ _ _ => False) False where
  count p b h := by
    unfold countByte
    split <;> exact h
  overflow p b h hp := by
    cases hs : p.state <;> simp [hs, inBody, parsingHeader] at h hp
  step p b ch h := by
    obtain ⟨rfl, hp⟩ := h
    cases hs : p.state <;> simp only [hs, inBody, Bool.false_eq_true] at hp
    all_goals simp only [switch, switchBody, hs]
    · split_ifs <;> simp [inBody]
    · simp [inBody]
    · exact bounded_finish .dead ch p .next

/-! ## The second run -/

/-- Between two calls. -/
def Ready (p : HttpParser) (b : Bool) : Prop :=
  (p.httpErrno = .ok ∧ Underway p b) ∨
    (p.httpErrno = .paused ∧ b = true ∧ idle p.state = true) ∨ p.httpErrno.isError

/-- The parser refuses the bytes. -/
def Refused (p : HttpParser) (bytes : Str) : Prop :=
  (flagReader.run bytes p false).2.1.httpErrno.isError

/-- The body is chunked, after the end of the headers. -/
def Chunked (q : HttpParser) : Prop :=
  q.upgrade = false ∧ q.flags.skipbody = false ∧ q.flags.chunked = true

instance (q : HttpParser) : Decidable (Chunked q) := inferInstanceAs (Decidable (_ ∧ _))

/-- **Bytes that are malformed behind the end of the headers**, after the pause before it: the
bytes of a chunked body or its trailer, or the line break itself where the headers have used up
their limit, since it is counted twice. -/
def Malformed (q : HttpParser) (bytes : Str) : Prop :=
  HTTP_MAX_HEADER_SIZE ≤ q.nread ∨
    (Chunked q ∧
      Refused { q with httpErrno := .ok, nread := 0, state := .chunkSizeStart } bytes)

/-- A run that ends outside of an error leaves the parser ready. -/
theorem Phase.Ends.ready {bytes : Str} {r : Option Nat × HttpParser × Bool}
    (h : Phase.Ends I (fun _ _ _ => False) E bytes r) (hi : ∀ p b, I p b → b = false) :
    Ready r.2.1 r.2.2 ∧ (¬ E → ¬ r.2.1.httpErrno.isError) := by
  obtain ⟨_ | k, q, b⟩ := r
  · exact ⟨.inl ⟨h.1, .inr (hi _ _ h.2)⟩, fun _ herror => herror.1 h.1⟩
  · rcases h with ⟨herror, -, he⟩ | ⟨hpaused, hb, hidle, -⟩ | ⟨-, ch, -, hh⟩
    · exact ⟨.inr (.inr herror), fun hne => absurd he hne⟩
    · exact ⟨.inr (.inl ⟨hpaused, hb, hidle⟩), fun _ herror => herror.2 hpaused⟩
    · exact hh.elim

/-- The step that ends a message. -/
theorem byte_finish {n : Nat} {ch : UInt8} {p q : HttpParser} {after : After}
    (h : switch p ch = finish q after) (hok : q.httpErrno = .ok) (b : Bool) :
    flagReader.byte (n + 1) ch p b =
      (some 1, parserPause { q with state := newMessage q } true, true) := by
  rw [Reader.byte, h]
  simp only [finish, flagReader_call ch (p := { q with state := newMessage q }) hok]

theorem ready_finish {q : HttpParser} (hok : q.httpErrno = .ok) :
    Ready (parserPause { q with state := newMessage q } true) true ∧
      ¬ (parserPause { q with state := newMessage q } true).httpErrno.isError := by
  have hpaused : (parserPause { q with state := newMessage q } true).httpErrno = .paused :=
    parserPause_ok hok
  refine ⟨.inr (.inl ⟨hpaused, rfl, ?_⟩), fun herror => herror.2 hpaused⟩
  rw [parserPause_state]
  exact bounded_finish .dead 0 q .next

/-- What follows on the headers. -/
theorem switch_headersDone {q : HttpParser} (hs : q.state = .headersDone) :
    (Chunked q ∧ switch q LF = .next { q with nread := 0, state := .chunkSizeStart }) ∨
      (¬ Chunked q ∧ ∃ after, switch q LF = finish { q with nread := 0 } after) ∨
      (¬ Chunked q ∧ ∃ s, inBody s = true ∧ switch q LF = .next { q with nread := 0, state := s }) := by
  have hsw : switch q LF =
      if q.upgrade then finish { q with nread := 0 } .ret
      else if q.flags.skipbody then finish { q with nread := 0 }
      else if q.flags.chunked then .next { q with nread := 0, state := .chunkSizeStart }
      else if q.contentLength = 0 then finish { q with nread := 0 }
      else if q.contentLength ≠ ULLONG_MAX then .next { q with nread := 0, state := .bodyIdentity }
      else if q.type = .request ∨ !messageNeedsEof { q with nread := 0 } then
        finish { q with nread := 0 }
      else .next { q with nread := 0, state := .bodyIdentityEof } := by
    simp only [switch, switchHeadersEnd, hs, ne_eq, not_true_eq_false, if_false]
  rw [hsw]
  split_ifs with hup hskip hchunked
  · exact .inr (.inl ⟨fun h => by simp [h.1] at hup, .ret, rfl⟩)
  · exact .inr (.inl ⟨fun h => by simp [h.2.1] at hskip, .next, rfl⟩)
  · exact .inl ⟨⟨by simpa using hup, by simpa using hskip, hchunked⟩, rfl⟩
  · exact .inr (.inl ⟨fun h => hchunked h.2.2, .next, rfl⟩)
  · exact .inr (.inr ⟨fun h => hchunked h.2.2, .bodyIdentity, rfl, rfl⟩)
  · exact .inr (.inl ⟨fun h => hchunked h.2.2, .next, rfl⟩)
  · exact .inr (.inr ⟨fun h => hchunked h.2.2, .bodyIdentityEof, rfl, rfl⟩)

theorem byte_next {n : Nat} {ch : UInt8} {p q : HttpParser} (h : switch p ch = .next q) (b : Bool) :
    flagReader.byte (n + 1) ch p b = (none, q, b) := by
  rw [Reader.byte, h]
  simp only [Step.next, Reader.call, flagReader_feed, ite_self]

/-- **The second run** fails on malformed bytes, and on no others. -/
theorem second_run_error {q : HttpParser} (hs : q.state = .headersDone) (hok : q.httpErrno = .ok)
    (bytes : Str) :
    let r := flagReader.run (LF :: bytes) q false
    (r.2.1.httpErrno.isError ↔ Malformed q bytes) ∧ Ready r.2.1 r.2.2 := by
  have hcount : countByte q = { q with nread := q.nread + 1 } := by
    simp [countByte, hs, parsingHeader]
  have hheader : parsingHeader q.state = true := by rw [hs]; rfl
  simp only [Reader.run, Reader.stepByte, hcount, hheader, true_and]
  by_cases hmax : HTTP_MAX_HEADER_SIZE < q.nread + 1
  · rw [if_pos hmax]
    have herror : Errno.headerOverflow.isError := by decide
    exact ⟨iff_of_true herror (.inl (by omega)), .inr (.inr herror)⟩
  · rw [if_neg hmax, passes]
    have hmalformed : Malformed q bytes ↔ Chunked q ∧
        Refused { q with httpErrno := .ok, nread := 0, state := .chunkSizeStart } bytes :=
      or_iff_right (by omega)
    have hbody : ∀ s : State, inBody s = true →
        let r := flagReader.run bytes { q with nread := 0, state := s } false
        Ready r.2.1 r.2.2 ∧ ¬ r.2.1.httpErrno.isError := fun s hin => by
      have hends := @Phase.run _ _ _ body_phase bytes { q with nread := 0, state := s } false hok
        ⟨rfl, hin⟩
      exact (hends.ready fun _ _ h => h.1).imp_right fun h => h id
    have hchunks : let r := flagReader.run bytes { q with nread := 0, state := .chunkSizeStart } false
        Ready r.2.1 r.2.2 := by
      have hends := @Phase.run _ _ _ chunks_phase bytes
        { q with nread := 0, state := .chunkSizeStart } false hok ⟨rfl, rfl⟩
      exact (hends.ready fun _ _ h => h.1).1
    rw [hmalformed]
    rcases @switch_headersDone { q with nread := q.nread + 1 } hs with
      ⟨hchunked, hstep⟩ | ⟨hplain, after, hstep⟩ | ⟨hplain, s, hin, hstep⟩
    · simp only [byte_next hstep]
      refine ⟨?_, hchunks⟩
      rw [and_iff_right (show Chunked q from hchunked), Refused, ← hok]
    · rw [byte_finish hstep hok]
      obtain ⟨hready, hno⟩ := ready_finish (q := { q with nread := 0 }) hok
      exact ⟨iff_of_false hno fun h => hplain h.1, hready⟩
    · simp only [byte_next hstep]
      obtain ⟨hready, hno⟩ := hbody s hin
      exact ⟨iff_of_false hno fun h => hplain h.1, hready⟩

/-! ## The calls of `parse` -/

namespace RequestParser

/-- If the call leaves the parser in an error state, it says so. -/
def Reported (rp : RequestParser) (data : Str) : Prop :=
  (rp.parse data).2.parser.httpErrno.isError → (rp.parse data).1 = .error

/-- The read brings the end of the headers, and behind it malformed bytes. -/
def Late (rp : RequestParser) (data : Str) : Prop :=
  rp.parser.httpErrno = .ok ∧ ∃ a b q, data = a ++ LF :: b ∧
    flagReader.run data rp.parser rp.fields.isComplete = (some a.length, q, false) ∧
      q.httpErrno = .paused ∧ q.state = .headersDone ∧ Malformed { q with httpErrno := .ok } b

theorem parse_late {rp : RequestParser} (hready : Ready rp.parser rp.fields.isComplete)
    {data : Str} (hne : data ≠ []) :
    (rp.Reported data ↔ ¬ rp.Late data) ∧
      Ready (rp.parse data).2.parser (rp.parse data).2.fields.isComplete := by
  unfold Reported Late parse
  rcases hready with ⟨hok, hunder⟩ | ⟨hpaused, hb, hidle⟩ | herror
  · -- the first run
    obtain ⟨hused, hparser, hflag⟩ := execute_flag hok rp.fields hne
    have hends := @Phase.run _ _ _ underway_phase data _ _ hok hunder
    rcases hx : execute settings rp.parser rp.fields data with ⟨used, p, u⟩
    rcases hrun : flagReader.run data rp.parser rp.fields.isComplete with ⟨k, q, b⟩
    rw [hx, hrun] at hused hparser hflag
    rw [hrun] at hends
    simp only at hused hparser hflag
    subst hparser hflag
    cases k with
    | none =>
      obtain ⟨hpok, hunder'⟩ := hends
      have hnot : ¬ used < data.length := by rw [hused]; exact lt_irrefl _
      simp only [hnot, if_false, hpok, reduceCtorEq]
      refine ⟨iff_of_true (fun herror => absurd rfl herror.1) ?_, .inl ⟨hpok, hunder'⟩⟩
      rintro ⟨-, a, b, q, -, hrun', -⟩
      cases hrun'
    | some k =>
      simp only [Option.getD_some] at hused
      subst hused
      rcases hends with ⟨herror, hlt, -⟩ | ⟨hpaused, hb, hidle, -⟩ | ⟨hpaused, ch, hch, rfl, hs, hb⟩
      · -- it fails
        simp only [hlt, if_true, herror.2, if_false, implies_true, true_iff]
        refine ⟨?_, .inr (.inr herror)⟩
        rintro ⟨-, a, b, q, -, hrun', hpaused, -⟩
        obtain rfl : p = q := congrArg (fun r => r.2.1) hrun'
        exact herror.2 hpaused
      · -- it completes the message
        have hpok : (parserPause p false).httpErrno = .ok := by simp [parserPause, hpaused]
        simp only [hpaused, if_true, hb, ite_self]
        refine ⟨iff_of_true (fun herror => absurd hpok herror.1) ?_, .inl ⟨hpok, .inl ?_⟩⟩
        · rintro ⟨-, a, b, q, -, hrun', -⟩
          simp at hrun'
        · rw [parserPause_state]
          exact hidle
      · -- it ends the headers
        obtain ⟨hlt, hget⟩ := List.getElem?_eq_some_iff.mp hch
        have hpause : parserPause p false = { p with httpErrno := .ok } := by
          simp [parserPause, hpaused]
        have hdrop : data.drop used = LF :: data.drop (used + 1) := by
          rw [List.drop_eq_getElem_cons hlt, hget]
        have htake : (data.take used).length = used := List.length_take_of_le (Nat.le_of_lt hlt)
        have hsplit : data = data.take used ++ LF :: data.drop (used + 1) := by
          rw [← hdrop, List.take_append_drop]
        obtain ⟨-, hparser₂, hflag₂⟩ := @execute_flag { p with httpErrno := .ok } rfl u
          (data.drop used) (by rw [hdrop]; simp)
        rw [hb, hdrop] at hparser₂ hflag₂
        obtain ⟨hiff, hready₂⟩ := second_run_error (q := { p with httpErrno := .ok }) hs rfl
          (data.drop (used + 1))
        simp only [hlt, hpaused, if_true, hb, Bool.false_eq_true, if_false, hpause, hdrop]
        rw [hparser₂, hflag₂, hiff]
        refine ⟨?_, hready₂⟩
        have hresult : ∀ u', resultOf u' ≠ .error := fun u' => by
          unfold resultOf
          split <;> decide
        rw [imp_iff_not (hresult _), not_iff_not]
        constructor
        · intro hm
          exact ⟨hok, data.take used, data.drop (used + 1), p, hsplit, by rw [htake], hpaused, hs, hm⟩
        · rintro ⟨-, a, b, q, hdata, hrun', -, -, hm⟩
          have hlen : used = a.length := Option.some.inj (congrArg Prod.fst hrun')
          obtain rfl : p = q := congrArg (fun r => r.2.1) hrun'
          have hbytes : data.drop (used + 1) = b := by
            rw [hdata, hlen, List.append_cons, ← List.length_singleton (a := LF),
              ← List.length_append, List.drop_left]
          rwa [hbytes]
  · -- the message is complete, and the read is dropped
    rw [execute_error settings (by rw [hpaused]; decide)]
    have hused : 0 < data.length := List.length_pos_of_ne_nil hne
    have hok : (parserPause rp.parser false).httpErrno = .ok := by simp [parserPause, hpaused]
    simp only [hpaused, if_true, hused, hb]
    refine ⟨iff_of_true (fun herror => absurd hok herror.1) ?_, .inl ⟨hok, .inl ?_⟩⟩
    · simp
    · rw [parserPause_state]
      exact hidle
  · rw [execute_error settings herror.1]
    have hused : 0 < data.length := List.length_pos_of_ne_nil hne
    simp only [herror.2, if_false, hused, if_true, implies_true, true_iff, not_and]
    exact ⟨fun hok => absurd hok herror.1, .inr (.inr herror)⟩

/-- The parser is ready for every call. -/
theorem after_ready (junk : Bool) {reads : List Str} (hne : ∀ data ∈ reads, data ≠ []) :
    Ready ((new junk).after reads).parser ((new junk).after reads).fields.isComplete := by
  have hstart : Ready (new junk).parser (new junk).fields.isComplete := .inl ⟨rfl, .inl rfl⟩
  revert hstart
  generalize new junk = rp
  induction reads generalizing rp with
  | nil => exact id
  | cons data reads ih =>
    intro hready
    exact ih (fun d hd => hne d (List.mem_cons_of_mem _ hd)) _
      (parse_late hready (hne data List.mem_cons_self)).2

/-- **Errors are reported by the call that meets them**, if and only if no read brings the end of
the headers of a message together with malformed bytes behind it. -/
theorem errors_reported_iff (junk : Bool) (reads : List Str) (hne : ∀ data ∈ reads, data ≠ []) :
    (∀ pre data post, reads = pre ++ data :: post → ((new junk).after pre).Reported data) ↔
      ∀ pre data post, reads = pre ++ data :: post → ¬ ((new junk).after pre).Late data := by
  refine forall₄_congr fun pre data post hreads => ?_
  subst hreads
  exact (parse_late (after_ready junk fun d hd => hne d (by simp [hd])) (hne data (by simp))).1

/-- The headers of a request with a chunked body. -/
def chunkedHead : Str := str "POST / HTTP/1.1\r\nTransfer-Encoding: chunked\r\n\r\n"

/-- In a read of its own a chunk size that is no number is reported. -/
theorem ownRead_reported :
    (∀ data ∈ [chunkedHead, str "xyz\r\n"], data ≠ []) ∧
      ∀ pre data post, [chunkedHead, str "xyz\r\n"] = pre ++ data :: post →
        ((new false).after pre).Reported data := by
  refine ⟨by decide, (errors_reported_iff false [chunkedHead, str "xyz\r\n"] (by decide)).mpr ?_⟩
  rintro pre data post hreads ⟨-, a, b, q, hdata, hrun, hpaused, -, hm⟩
  rcases pre with _ | ⟨first, _ | ⟨second, pre⟩⟩
  · -- nothing stands behind the headers
    obtain ⟨rfl, -⟩ := List.cons.inj hreads
    have hlen : chunkedHead.length = (flagReader.run chunkedHead (new false).parser false).1.getD 0 + 1 := by
      decide +kernel
    have hb : b = [] := by
      rw [show (flagReader.run chunkedHead (new false).parser false).1 = some a.length from
        congrArg Prod.fst hrun, hdata] at hlen
      simpa using hlen
    subst hb
    rcases hm with hn | ⟨-, herror⟩
    · have hnread : (flagReader.run chunkedHead (new false).parser false).2.1.nread <
          HTTP_MAX_HEADER_SIZE := by decide +kernel
      rw [show (flagReader.run chunkedHead (new false).parser false).2.1 = q from
        congrArg (fun r => r.2.1) hrun] at hnread
      exact absurd hn (not_le.mpr hnread)
    · exact herror.1 rfl
  · -- the second read does not end the headers
    obtain ⟨rfl, htail⟩ := List.cons.inj hreads
    obtain ⟨rfl, -⟩ := List.cons.inj htail
    have herrno : (flagReader.run (str "xyz\r\n") ((new false).after [chunkedHead]).parser
        ((new false).after [chunkedHead]).fields.isComplete).2.1.httpErrno ≠ .paused := by
      decide +kernel
    exact herrno ((congrArg (fun r => r.2.1.httpErrno) hrun).trans hpaused)
  · simp at hreads

/-- Behind the headers it is not. -/
theorem badChunk_unreported :
    ((new false).parse (chunkedHead ++ str "xyz\r\n")).1 = .indeterminate ∧
      ((new false).parse (chunkedHead ++ str "xyz\r\n")).2.parser.httpErrno = .invalidChunkSize := by
  decide +kernel

end RequestParser

end Wsrv
