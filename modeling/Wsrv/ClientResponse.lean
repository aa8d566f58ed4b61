import Wsrv.LateErrors

/-!
# Reading a response

`HTTPClientImpl::readResponse` hands what it reads to a `ResponseParser` until
the message is complete or a read fails, and decodes what the parser has by then.

`ResponseLog` is what the callbacks collect byte by byte, with the state of the
parser at the end of the headers.  `readLoop_run` is the refinement: the loop
throws exactly where the reader of single bytes fails on the whole stream, and
else it comes to the body that this reader has collected.
-/

namespace Wsrv

open Http

namespace HTTPClientImpl

/-! ## The source -/

/-- What the calls of `asio::read` give: each of them fills the buffer, but for the last one,
which comes with an error code, the end of the stream for one. -/
structure Delivery where
  reads : List Str
  filled : ∀ data ∈ reads, data ≠ []
  last : Str

/-- All that arrives. -/
def Delivery.stream (d : Delivery) : Str := d.reads.flatten ++ d.last

/-- The `HTTPClientError` of `readResponse`. -/
def invalidResponse : Exception := .runtimeError (str "Invalid response received")

/-- The loop of `readResponse`. -/
def readLoop (parser : ResponseParser) : List Str → Str → Except Exception ResponseParser
  | [], last =>
    let (result, parser) := parser.parse last
    if result = .error then .error invalidResponse else .ok parser
  | data :: reads, last =>
    let (result, parser) := parser.parse data
    if result = .error then .error invalidResponse
    else if result = .ok then .ok parser
    else readLoop parser reads last

/-- `HTTPClientImpl::readResponse`; `junk` is what the parser's memory holds. -/
def readResponse (junk : Bool) (d : Delivery) : Except Exception HTTPServerResponse :=
  (readLoop (.new junk) d.reads d.last).map fun parser => parser.decodeMessage .init

end HTTPClientImpl

/-! ## The steps of a head -/

/-- The states up to the end of the headers. -/
def inHead : State → Bool
  | .headersDone | .chunkSizeStart | .chunkSize | .chunkParameters | .chunkSizeAlmostDone
  | .chunkData | .chunkDataAlmostDone | .chunkDataDone | .bodyIdentity | .bodyIdentityEof
  | .messageDone => false
  | _ => true

/-- What a step does in a head: nothing of a body is reported, and the head ends with
`on_headers_complete`.  No step sets `F_SKIPBODY`. -/
def HeadStep (p : HttpParser) : Step → Prop
  | .error _ _ => True
  | .go m q c after =>
    (p.flags.skipbody = false → q.flags.skipbody = false) ∧
      match c with
      | .headersComplete => after = .again
      | .notify .messageComplete => True
      | .data e _ _ => inHead p.state = true → e ≠ .body ∧ inHead q.state = true
      | _ => inHead p.state = true → m ≠ some .body ∧ inHead q.state = true

theorem headFlags_skipbody (p : HttpParser) : (headerFlags p).skipbody = p.flags.skipbody := by
  unfold headerFlags
  split <;> rfl

theorem headStep_start (p : HttpParser) (ch : UInt8) : HeadStep p (switchStart p ch) := by
  unfold switchStart
  split <;> rename_i hp <;> (try split_ifs) <;> simp [HeadStep, Step.next, Step.again, inHead, hp]

theorem headStep_responseLine (p : HttpParser) (ch : UInt8) :
    HeadStep p (switchResponseLine p ch) := by
  unfold switchResponseLine firstMajor moreMajor firstMinor moreMinor Step.expect
  simp only
  split <;> rename_i hp <;> (try split_ifs) <;> simp [HeadStep, Step.next, inHead, hp]

theorem inHead_parseUrlChar (s : State) (ch : UInt8) : inHead (parseUrlChar s ch) = true := by
  rcases parseUrlChar_inUrl s ch with h | h
  · rw [h]
    rfl
  · revert h
    cases parseUrlChar s ch <;> simp [State.inUrl, inHead]

theorem headStep_requestTarget (p : HttpParser) (ch : UInt8) :
    HeadStep p (switchRequestTarget p ch) := by
  unfold switchRequestTarget switchMethod urlChar
  simp only
  split <;> rename_i hp <;> (try split_ifs) <;> (try split) <;> first
    | (simp [HeadStep, inHead_parseUrlChar]; done)
    | simp [HeadStep, Step.next, inHead, hp]

theorem headStep_requestVersion (p : HttpParser) (ch : UInt8) :
    HeadStep p (switchRequestVersion p ch) := by
  unfold switchRequestVersion firstMajor moreMajor firstMinor moreMinor Step.expect
  simp only
  split <;> rename_i hp <;> (try split_ifs) <;> simp [HeadStep, Step.next, inHead, hp]

theorem headStep_headerField (p : HttpParser) (ch : UInt8) :
    HeadStep p (switchHeaderField p ch) := by
  unfold switchHeaderField
  simp only
  split <;> rename_i hp <;> (try split_ifs) <;>
    simp [HeadStep, Step.next, Step.again, inHead, hp, headerFieldChar_kept]

theorem headStep_headerValueStart (p : HttpParser) (ch : UInt8) :
    HeadStep p (switchHeaderValueStart p ch) := by
  unfold switchHeaderValueStart headerValueStart Step.expect
  simp only
  split <;> rename_i hp <;> (try split_ifs) <;> (try split) <;>
    simp [HeadStep, Step.next, inHead, hp]

theorem headStep_headerValue (p : HttpParser) (ch : UInt8) :
    HeadStep p (switchHeaderValue p ch) := by
  unfold switchHeaderValue headerValueChar Step.expect
  simp only
  split <;> rename_i hp <;> (try split_ifs) <;> (try split) <;> (try split) <;>
    simp [HeadStep, Step.next, Step.again, inHead, hp, matchWord_kept, headFlags_skipbody]

theorem headStep_headersEnd (p : HttpParser) (ch : UInt8) :
    HeadStep p (switchHeadersEnd p ch) := by
  unfold switchHeadersEnd finish
  simp only
  split <;> rename_i hp <;> (try split_ifs) <;> simp [HeadStep, Step.next, inHead, hp]

theorem headStep_chunk (p : HttpParser) (ch : UInt8) : HeadStep p (switchChunk p ch) := by
  unfold switchChunk
  simp only
  split <;> rename_i hp <;> (try split) <;> (try split) <;> (try split) <;>
    simp [HeadStep, Step.next, inHead, hp]

theorem headStep_body (p : HttpParser) : HeadStep p (switchBody p) := by
  unfold switchBody finish
  simp only
  split <;> rename_i hp <;> (try split_ifs) <;> simp [HeadStep, inHead, hp]

theorem switch_head (p : HttpParser) (ch : UInt8) : HeadStep p (switch p ch) :=
  switch_parts (P := HeadStep p) (headStep_start p ch) (headStep_responseLine p ch)
    (headStep_requestTarget p ch) (headStep_requestVersion p ch) (headStep_headerField p ch)
    (headStep_headerValueStart p ch) (headStep_headerValue p ch) (headStep_headersEnd p ch)
    (headStep_chunk p ch) (headStep_body p)

/-! ## What is collected -/

/-- What the callbacks collect of a message but its headers. -/
structure ResponseLog where
  /-- The parser at the end of the headers. -/
  head : Option HttpParser
  body : Str
  isComplete : Bool

namespace ResponseLog

def deliver (e : Elem) (text : Str) (m : ResponseLog) : ResponseLog :=
  if e = .body then { m with body := m.body ++ text } else m

def reader : Reader ResponseLog where
  deliver := deliver
  notify n _ m := match n with
    | .messageBegin => ⟨0, false, { m with isComplete := false }⟩
    | .messageComplete => ⟨0, true, { m with isComplete := true }⟩
  headersComplete p m := ⟨0, false, { m with head := some p }⟩

theorem reader_additive : reader.Additive where
  append e a b m := by
    simp only [reader, deliver]
    split_ifs
    · simp
    · rfl
  body_nil m := by simp [reader, deliver]

/-- A log before the first byte. -/
def start (junk : Bool) : ResponseLog := ⟨none, [], junk⟩

/-! ## Its stops -/

/-- How a reader stops: the message is complete, or the parser has failed before the last of `n`
bytes. -/
def Stop (n used : Nat) (p : HttpParser) (m : ResponseLog) : Prop :=
  (p.httpErrno = .paused ∧ m.isComplete = true) ∨ (p.httpErrno.isError ∧ used < n)

/-- What a byte does: the reader goes on, and the flag is not set; or it stops. -/
def Goes (n : Nat) (flag : Bool) : Option Nat × HttpParser × ResponseLog → Prop
  | (none, p, m) => p.httpErrno = .ok ∧ (flag = false → m.isComplete = false)
  | (some used, p, m) => Stop n used p m

theorem deliver_isComplete (e : Elem) (text : Str) (m : ResponseLog) :
    (deliver e text m).isComplete = m.isComplete := by
  unfold deliver
  split_ifs <;> rfl

theorem feed_isComplete (o : Option Elem) (text : Str) (m : ResponseLog) :
    (reader.feed o text m).isComplete = m.isComplete := by
  cases o with
  | none => rfl
  | some e => exact deliver_isComplete e text m

theorem reader_accepts : reader.Accepts where
  notify n p m := by cases n <;> rfl
  headersComplete p m := rfl

theorem reader_call (ch : UInt8) {p : HttpParser} (hok : p.httpErrno = .ok) (m : ResponseLog)
    (c : Call) :
    reader.call ch p m c =
      match c with
      | .none => ((p, m), none)
      | .data e w _ => ((p, deliver e (if w then [ch] else []) m), none)
      | .notify .messageBegin => ((p, { m with isComplete := false }), none)
      | .notify .messageComplete => ((parserPause p true, { m with isComplete := true }), some 1)
      | .headersComplete => ((p, { m with head := some p }), none) := by
  rw [reader_accepts.call_eq ch hok]
  cases c with
  | none => rfl
  | data e w k => rfl
  | notify n => cases n <;> rfl
  | headersComplete => rfl

theorem byte_goes {n : Nat} {ch : UInt8} {p : HttpParser} (m : ResponseLog)
    (hok : p.httpErrno = .ok) (hn : rank p.state < n) :
    Goes 1 m.isComplete (reader.byte n ch p m) := by
  induction n generalizing p m with
  | zero => exact absurd hn (Nat.not_lt_zero _)
  | succ n ih =>
    have hd := switch_disciplined p ch
    have hb := switch_bounded p ch
    have hh := switch_head p ch
    rw [Reader.byte]
    cases hs : switch p ch with
    | error q e =>
      rw [hs] at hd
      exact .inr ⟨hd, Nat.one_pos⟩
    | go mk q c after =>
      rw [hs] at hd hb hh
      have hq : q.httpErrno = .ok := hd.1.trans hok
      have hnext : ∀ m' : ResponseLog, (m.isComplete = false → m'.isComplete = false) →
          Goes 1 m.isComplete
            (none, q, if c = .none then reader.feed (mk <|> owner p.state) [ch] m' else m') := by
        intro m' hm'
        refine ⟨hq, fun hm => ?_⟩
        split_ifs
        · exact (feed_isComplete ..).trans (hm' hm)
        · exact hm' hm
      have hagain : ∀ m' : ResponseLog, (m.isComplete = false → m'.isComplete = false) →
          after = .again → Goes 1 m.isComplete (reader.byte n ch q m') := by
        intro m' hm' hafter
        have hlt := hd.2.2.1 hafter
        have hgo := ih m' hq (by omega)
        rcases hr : reader.byte n ch q m' with ⟨_ | used, p', m''⟩
        · rw [hr] at hgo
          exact ⟨hgo.1, fun hm => hgo.2 (hm' hm)⟩
        · rw [hr] at hgo
          exact hgo
      simp only [reader_call ch hq]
      cases c with
      | none => exact Reader.after_cases hb.2 (hnext m id) (hagain m id)
      | data e w k =>
        have hkept (text : Str) (hm : m.isComplete = false) : (deliver e text m).isComplete = false :=
          (deliver_isComplete e text m).trans hm
        exact Reader.after_cases hb.2 (hnext _ (hkept _)) (hagain _ (hkept _))
      | notify k =>
        cases k with
        | messageBegin => exact Reader.after_cases hb (hnext _ fun _ => rfl) (hagain _ fun _ => rfl)
        | messageComplete => exact .inl ⟨parserPause_ok hq, rfl⟩
      | headersComplete =>
        have hret : after ≠ .ret := by
          rw [hh.2]
          exact After.noConfusion
        exact Reader.after_cases hret (hnext _ id) (hagain _ id)

theorem countByte_ok {p : HttpParser} (hok : p.httpErrno = .ok) : (countByte p).httpErrno = .ok := by
  unfold countByte
  split <;> exact hok

theorem stepByte_goes (ch : UInt8) {p : HttpParser} (m : ResponseLog) (hok : p.httpErrno = .ok) :
    Goes 1 m.isComplete (reader.stepByte ch p m) := by
  unfold Reader.stepByte
  split_ifs
  · exact .inr ⟨(by decide : Errno.headerOverflow.isError), Nat.one_pos⟩
  · exact byte_goes m (countByte_ok hok) (rank_lt_passes _)

/-- The first byte begins the message. -/
theorem stepByte_begins {ch : UInt8} {p p' : HttpParser} {m m' : ResponseLog}
    (hok : p.httpErrno = .ok) (hs : p.state = .startRes)
    (h : reader.stepByte ch p m = (none, p', m')) : m'.isComplete = false := by
  have hcount : (countByte p).state = .startRes := (countByte_state p).trans hs
  unfold Reader.stepByte at h
  split_ifs at h
  · cases h
  rw [passes, Reader.byte] at h
  have hbegins : Begins (countByte p).httpErrno (switch (countByte p) ch) := begins_startRes hcount
  rcases hbegins with ⟨q, e, hstep, -⟩ | ⟨q, hstep, hq⟩
  · rw [hstep] at h
    cases h
  · rw [hstep] at h
    simp only [reader_call ch (hq.trans (countByte_ok hok))] at h
    cases h
    rfl

/-- The message has begun, or its first byte is still to come. -/
def Fresh (p : HttpParser) (m : ResponseLog) : Prop := p.state = .startRes ∨ m.isComplete = false

/-- **A run over some bytes.**  Where it does not stop the message has begun and is not complete. -/
theorem run_goes {bytes : Str} {p : HttpParser} {m : ResponseLog} (hok : p.httpErrno = .ok)
    (hf : Fresh p m) (hne : bytes ≠ []) :
    Goes bytes.length false (reader.run bytes p m) := by
  induction bytes generalizing p m with
  | nil => exact absurd rfl hne
  | cons ch rest ih =>
    have hstep := stepByte_goes ch m hok
    rw [Reader.run]
    rcases hs : reader.stepByte ch p m with ⟨_ | used, p', m'⟩
    · rw [hs] at hstep
      have hm' : m'.isComplete = false := hf.elim (fun h => stepByte_begins hok h hs) hstep.2
      cases hrest : rest with
      | nil => exact ⟨hstep.1, fun _ => hm'⟩
      | cons c cs =>
        have hgo := ih hstep.1 (.inr hm') (by rw [hrest]; exact List.cons_ne_nil _ _)
        rw [hrest] at hgo
        rcases hr : reader.run (c :: cs) p' m' with ⟨_ | k, q, m''⟩
        · rw [hr] at hgo
          simp only [hr]
          exact hgo
        · rw [hr] at hgo
          simp only [hr, Option.map_some]
          exact hgo.imp_right fun h => ⟨h.1, Nat.succ_lt_succ h.2⟩
    · rw [hs] at hstep
      exact hstep.imp_right fun h => ⟨h.1, Nat.lt_of_lt_of_le h.2 (by simp)⟩

end ResponseLog

/-! ## `parse` is the reader -/

/-- Of the fields of the parser, the body and the flag. -/
structure BodyLog where
  body : Str
  isComplete : Bool

namespace BodyLog

def reader : Reader BodyLog where
  deliver e text b := if e = .body then { b with body := b.body ++ text } else b
  notify n _ b := match n with
    | .messageBegin => ⟨0, false, { b with isComplete := false }⟩
    | .messageComplete => ⟨0, true, { b with isComplete := true }⟩
  headersComplete _ b := ⟨0, false, b⟩

theorem reader_additive : reader.Additive where
  append e a b u := by
    simp only [reader]
    split_ifs
    · simp
    · rfl
  body_nil u := by simp [reader]

/-- What the fields show. -/
def ofFields (rp : ResponseFields) : BodyLog := ⟨rp.body, rp.isComplete⟩

theorem ofFields_flush (rp : ResponseFields) : ofFields rp.flushHeader = ofFields rp := by
  unfold ResponseFields.flushHeader
  split_ifs <;> rfl

theorem settings_reads : Reads ResponseParser.settings reader ofFields where
  data e p text rp := by
    cases e with
    | headerField =>
      simp only [Settings.data, ResponseParser.settings, Reply.map, Reply.skip,
        ResponseFields.onHeaderField]
      exact congrArg (Reply.mk 0 false) (ofFields_flush rp)
    | url | status | headerValue | body => rfl
  notify n p rp := by cases n <;> rfl
  headersComplete p rp := by
    simp only [Settings.headersComplete, ResponseParser.settings, Reply.map,
      ResponseFields.onHeadersComplete]
    exact congrArg (Reply.mk 0 false) (ofFields_flush rp)

def ofLog (m : ResponseLog) : BodyLog := ⟨m.body, m.isComplete⟩

theorem reader_forgets : ResponseLog.reader.Forgets reader ofLog where
  deliver e text m := by
    simp only [reader, ResponseLog.reader, ResponseLog.deliver]
    split_ifs <;> rfl
  notify n p m := by cases n <;> rfl
  headersComplete p m := rfl

end BodyLog

namespace ResponseParser

open RequestParser (Result)

/-- The parser has read what the log says. -/
structure At (rp : ResponseParser) (p : HttpParser) (m : ResponseLog) : Prop where
  parser : rp.parser = p
  fields : BodyLog.ofFields rp.fields = BodyLog.ofLog m
  ok : p.httpErrno = .ok
  settled : BodyLog.reader.Settled p (BodyLog.ofLog m)
  fresh : ResponseLog.Fresh p m

/-- **A call of `parse` is the reader on its bytes.** -/
theorem parse_run {rp : ResponseParser} {p : HttpParser} {m : ResponseLog} (h : At rp p m)
    {data : Str} (hne : data ≠ []) :
    match ResponseLog.reader.run data p m with
    | (none, p', m') => (rp.parse data).1 = .indeterminate ∧ At (rp.parse data).2 p' m'
    | (some _, p', m') =>
      (p'.httpErrno.isError → (rp.parse data).1 = .error) ∧
        (¬ p'.httpErrno.isError → (rp.parse data).1 = .ok ∧
          (rp.parse data).2.fields.body = m'.body) := by
  obtain ⟨rfl, hfields, hok, hsettled, hfresh⟩ := h
  have hforget := BodyLog.reader_forgets.run data rp.parser m
  have hgo := ResponseLog.run_goes hok hfresh hne
  obtain ⟨hused, hparser, hignore, hview⟩ := execute_eager BodyLog.settings_reads
    BodyLog.reader_additive rp.parser rp.fields data hok hne (by rw [hfields]; exact hsettled)
  rw [hfields, hforget] at hused hparser hignore hview
  rcases hx : execute settings rp.parser rp.fields data with ⟨used, q, u⟩
  rw [hx] at hused hparser hignore hview
  rcases hr : ResponseLog.reader.run data rp.parser m with ⟨_ | k, p', m'⟩
  · rw [hr] at hused hparser hignore hview hgo hforget
    obtain rfl : used = data.length := hused
    obtain rfl : q = p' := hparser
    have hu : BodyLog.ofFields u = BodyLog.ofLog m' := hview (.inl hgo.1)
    have hflag : u.isComplete = false :=
      (congrArg BodyLog.isComplete hu).trans (hgo.2 rfl)
    have herr : q.httpErrno ≠ .paused := by
      rw [hgo.1]
      decide
    have hparse : rp.parse data = (.indeterminate, ⟨q, u⟩) := by
      simp [parse, hx, herr, resultOf, hflag]
    rw [hparse]
    refine ⟨rfl, rfl, hu, hgo.1, ?_, .inr (hgo.2 rfl)⟩
    exact (Reader.run_settled BodyLog.reader_additive hforget hok hsettled).2
  · rw [hr] at hused hparser hignore hview hgo
    obtain rfl : used = k := hused
    obtain rfl : q = p' := hparser
    rcases hgo with ⟨hpaused, hcomplete⟩ | ⟨herror, hlt⟩
    · have hu : BodyLog.ofFields u = BodyLog.ofLog m' := hview (.inr hpaused)
      have hflag : u.isComplete = true := (congrArg BodyLog.isComplete hu).trans hcomplete
      refine ⟨fun he => absurd hpaused he.2, fun _ => ?_⟩
      have hbody : u.body = m'.body := congrArg BodyLog.body hu
      simp only [parse, hx, hpaused, hflag, resultOf, if_true]
      split_ifs
      · exact ⟨rfl, hbody⟩
      · exact ⟨rfl, hbody⟩
    · refine ⟨fun _ => ?_, fun hno => absurd herror hno⟩
      simp only [parse, hx, if_pos hlt, if_neg herror.2]

/-- The call at the end of the stream neither fails nor touches the body. -/
theorem parse_nil (rp : ResponseParser) :
    (rp.parse []).1 ≠ .error ∧ (rp.parse []).2.fields.body = rp.fields.body := by
  have hexec : (execute settings rp.parser rp.fields []).2.2.body = rp.fields.body := by
    unfold execute
    split_ifs
    · rfl
    · unfold executeEof
      split <;> rfl
    · exact absurd rfl ‹_›
  unfold parse
  rcases hx : execute settings rp.parser rp.fields [] with ⟨used, q, u⟩
  rw [hx] at hexec
  simp only [List.length_nil, Nat.not_lt_zero, if_false, resultOf]
  refine ⟨?_, hexec⟩
  split_ifs <;> decide

end ResponseParser

namespace HTTPClientImpl

open ResponseParser (At)

/-- **The loop is the reader on the whole stream.**  Where the reader fails the loop throws;
everywhere else, complete or not, it comes to the body so far. -/
theorem readLoop_run {parser : ResponseParser} {p : HttpParser} {m : ResponseLog}
    (h : At parser p m) (reads : List Str) (hfilled : ∀ data ∈ reads, data ≠ []) (last : Str) :
    let r := ResponseLog.reader.run (reads.flatten ++ last) p m
    (r.2.1.httpErrno.isError → readLoop parser reads last = .error invalidResponse) ∧
      (¬ r.2.1.httpErrno.isError →
        ∃ rp, readLoop parser reads last = .ok rp ∧ rp.fields.body = r.2.2.body) := by
  induction reads generalizing parser p m with
  | nil =>
    simp only [List.flatten_nil, List.nil_append, readLoop]
    by_cases hlast : last = []
    · subst hlast
      obtain ⟨hresult, hbody⟩ := ResponseParser.parse_nil parser
      refine ⟨fun he => absurd h.ok he.1, fun _ => ?_⟩
      rw [if_neg hresult]
      exact ⟨_, rfl, hbody.trans (congrArg BodyLog.body h.fields)⟩
    · have hparse := ResponseParser.parse_run h hlast
      rcases hr : ResponseLog.reader.run last p m with ⟨_ | k, p', m'⟩
      · rw [hr] at hparse
        obtain ⟨hresult, hat⟩ := hparse
        refine ⟨fun he => absurd hat.ok he.1, fun _ => ?_⟩
        rw [hresult, if_neg (by decide)]
        exact ⟨_, rfl, congrArg BodyLog.body hat.fields⟩
      · rw [hr] at hparse
        refine ⟨fun he => ?_, fun he => ?_⟩
        · rw [hparse.1 he, if_pos rfl]
        · obtain ⟨hresult, hbody⟩ := hparse.2 he
          rw [hresult, if_neg (by decide)]
          exact ⟨_, rfl, hbody⟩
  | cons data reads ih =>
    have hparse := ResponseParser.parse_run h (hfilled data List.mem_cons_self)
    have happend := Reader.run_append ResponseLog.reader data (reads.flatten ++ last) p m
    simp only [List.flatten_cons, List.append_assoc, readLoop]
    rw [happend]
    rcases hr : ResponseLog.reader.run data p m with ⟨_ | k, p', m'⟩
    · rw [hr] at hparse
      obtain ⟨hresult, hat⟩ := hparse
      rw [hresult, if_neg (by decide), if_neg (by decide)]
      exact ih hat fun d hd => hfilled d (List.mem_cons_of_mem _ hd)
    · rw [hr] at hparse
      refine ⟨fun he => ?_, fun he => ?_⟩
      · rw [hparse.1 he, if_pos rfl]
      · obtain ⟨hresult, hbody⟩ := hparse.2 he
        rw [hresult, if_neg (by decide), if_pos rfl]
        exact ⟨_, rfl, hbody⟩

theorem at_new (junk : Bool) : At (.new junk) (init .response) (.start junk) where
  parser := rfl
  fields := rfl
  ok := rfl
  settled := Reader.settled_between rfl
  fresh := .inl rfl

end HTTPClientImpl

end Wsrv
