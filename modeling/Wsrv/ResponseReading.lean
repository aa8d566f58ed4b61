import Wsrv.ClientResponse
import Wsrv.RequestReading
import Wsrv.Util

/-!
# Reading a response byte by byte

`readLoop_run` says which body `readResponse` comes to.  Here the same reader
also collects the headers, and `readResponse_eq` gives the whole response: its
status, headers and content are a function of the bytes of the stream, and not
of the reads they come in (`stream_decides`).
-/

namespace Wsrv

open Http

/-! ## What is collected -/

/-- The fields of the response parser but the target and the reason. -/
def ResponseFields.eraseStatus (rp : ResponseFields) : ResponseFields :=
  { rp with url := [], statusMessage := [] }

namespace MessageLog

/-- The callbacks of the response parser: no pause at the end of the headers. -/
def replyReader : Reader MessageLog where
  deliver := deliver
  notify := reader.notify
  headersComplete _ m := ⟨0, false, m.flush⟩

theorem replyReader_additive : replyReader.Additive := ⟨reader_additive.append, reader_additive.body_nil⟩

/-- The headers as a map. -/
def dictionary (m : MessageLog) : Dictionary := m.headers.foldl (fun d hdr => d.insert hdr.1 hdr.2) ∅

/-- The fields of the response parser that hold this. -/
def replyFields (m : MessageLog) : ResponseFields :=
  { currentHeaderField := m.field, currentHeaderValue := m.value, url := [], body := m.body
    statusMessage := [], headers := m.dictionary, isComplete := m.isComplete }

theorem replyFields_flush (m : MessageLog) : m.flush.replyFields = m.replyFields.flushHeader := by
  unfold flush ResponseFields.flushHeader
  split_ifs with h h' h'
  · rfl
  · exact absurd h h'
  · exact absurd h' h
  · simp only [replyFields, dictionary, List.foldl_append, List.foldl_cons, List.foldl_nil]

def bodyLog (m : MessageLog) : BodyLog := ⟨m.body, m.isComplete⟩

theorem bodyLog_flush (m : MessageLog) : m.flush.bodyLog = m.bodyLog := by
  unfold flush
  split_ifs <;> rfl

theorem replyReader_bodyLog : replyReader.Forgets BodyLog.reader bodyLog where
  deliver e text m := by
    cases e with
    | headerField => exact (bodyLog_flush m).symm
    | url | status | headerValue | body => rfl
  notify n p m := by cases n <;> rfl
  headersComplete p m := congrArg (Http.Reply.mk 0 false) (bodyLog_flush m).symm

end MessageLog

namespace ResponseParser

open RequestParser (Result)
open MessageLog (replyReader replyReader_additive replyReader_bodyLog)

/-- The callbacks on the fields but the target and the reason. -/
def fieldsReader : Reader ResponseFields where
  deliver e text rp := match e with
    | .url | .status => rp
    | .headerField => rp.onHeaderField text
    | .headerValue => rp.onHeaderValue text
    | .body => rp.onBody text
  notify n _ rp := match n with
    | .messageBegin => ⟨0, false, rp.onMessageBegin⟩
    | .messageComplete => ⟨0, true, rp.onMessageComplete⟩
  headersComplete _ rp := ⟨0, false, rp.onHeadersComplete⟩

theorem flushHeader_flushHeader (rp : ResponseFields) (a : Str) :
    ({ rp.flushHeader with currentHeaderField := a } : ResponseFields).flushHeader =
      { rp.flushHeader with currentHeaderField := a } := by
  have hvalue : rp.flushHeader.currentHeaderValue = [] := by
    unfold ResponseFields.flushHeader
    split_ifs with h
    · exact h
    · rfl
  exact if_pos hvalue

theorem fieldsReader_additive : fieldsReader.Additive where
  append e a b rp := by
    cases e with
    | url | status => rfl
    | headerField =>
      simp only [fieldsReader, ResponseFields.onHeaderField, flushHeader_flushHeader,
        List.append_assoc]
    | headerValue | body =>
      simp only [fieldsReader, ResponseFields.onHeaderValue, ResponseFields.onBody, List.append_assoc]
  body_nil rp := by simp only [fieldsReader, ResponseFields.onBody, List.append_nil]

theorem eraseStatus_flushHeader (rp : ResponseFields) :
    rp.flushHeader.eraseStatus = rp.eraseStatus.flushHeader := by
  unfold ResponseFields.flushHeader ResponseFields.eraseStatus
  split_ifs <;> rfl

theorem settings_reads : Reads settings fieldsReader ResponseFields.eraseStatus where
  data e p text rp := by
    cases e with
    | url | status => rfl
    | headerField =>
      simp only [Settings.data, settings, Reply.map, Reply.skip, fieldsReader,
        ResponseFields.onHeaderField, ← eraseStatus_flushHeader]
      rfl
    | headerValue | body => rfl
  notify n p rp := by cases n <;> rfl
  headersComplete p rp := by
    simp only [Settings.headersComplete, settings, Reply.map, fieldsReader,
      ResponseFields.onHeadersComplete, ← eraseStatus_flushHeader]

theorem replyReader_forgets : replyReader.Forgets fieldsReader MessageLog.replyFields where
  deliver e text m := by
    cases e with
    | url | status => rfl
    | headerField =>
      simp only [fieldsReader, replyReader, MessageLog.deliver, ResponseFields.onHeaderField,
        ← MessageLog.replyFields_flush]
      rfl
    | headerValue | body => rfl
  notify n p m := by cases n <;> rfl
  headersComplete p m := congrArg (Http.Reply.mk 0 false) (MessageLog.replyFields_flush m).symm

/-! ## `parse` is the reader -/

/-- How a reader of the body comes through some bytes: it goes on and the message is not complete, or
it stops with the end of the message, or with an error before the last byte. -/
theorem bodyLog_goes {bytes : Str} {p : HttpParser} {b : BodyLog} (hok : p.httpErrno = .ok)
    (hf : p.state = .startRes ∨ b.isComplete = false) (hne : bytes ≠ []) :
    match BodyLog.reader.run bytes p b with
    | (none, p', b') => p'.httpErrno = .ok ∧ b'.isComplete = false
    | (some used, p', b') => (p'.httpErrno = .paused ∧ b'.isComplete = true) ∨
        (p'.httpErrno.isError ∧ used < bytes.length) := by
  have hgo := ResponseLog.run_goes (m := ⟨none, b.body, b.isComplete⟩) hok hf hne
  have hforget := BodyLog.reader_forgets.run bytes p ⟨none, b.body, b.isComplete⟩
  rw [show BodyLog.ofLog ⟨none, b.body, b.isComplete⟩ = b from rfl] at hforget
  rw [hforget]
  rcases hr : ResponseLog.reader.run bytes p ⟨none, b.body, b.isComplete⟩ with ⟨_ | used, p', m'⟩
  · rw [hr] at hgo
    exact ⟨hgo.1, hgo.2 rfl⟩
  · rw [hr] at hgo
    exact hgo

/-- The parser has read what the log says, and its message is not complete. -/
structure Reached (rp : ResponseParser) (p : HttpParser) (m : MessageLog) : Prop where
  parser : rp.parser = p
  fields : rp.fields.eraseStatus = m.replyFields
  ok : p.httpErrno = .ok
  settled : fieldsReader.Settled p m.replyFields
  fresh : p.state = .startRes ∨ m.isComplete = false

/-- What is decoded of a parser is what the log says. -/
structure Shows (rp : ResponseParser) (p : HttpParser) (m : MessageLog) : Prop where
  status : rp.parser.statusCode = p.statusCode
  headers : rp.fields.headers = m.dictionary
  body : rp.fields.body = m.body

theorem Reached.shows {rp : ResponseParser} {p : HttpParser} {m : MessageLog} (h : Reached rp p m) :
    Shows rp p m where
  status := congrArg HttpParser.statusCode h.parser
  headers := congrArg ResponseFields.headers h.fields
  body := congrArg ResponseFields.body h.fields

theorem parserPause_statusCode (p : HttpParser) (b : Bool) :
    (parserPause p b).statusCode = p.statusCode := by
  unfold parserPause
  split_ifs <;> rfl

/-- **A call of `parse` is the reader on its bytes.** -/
theorem parse_reply {rp : ResponseParser} {p : HttpParser} {m : MessageLog} (h : Reached rp p m)
    {data : Str} (hne : data ≠ []) :
    match replyReader.run data p m with
    | (none, p', m') => (rp.parse data).1 = .indeterminate ∧ Reached (rp.parse data).2 p' m'
    | (some _, p', m') =>
      (p'.httpErrno.isError → (rp.parse data).1 = .error) ∧
        (¬ p'.httpErrno.isError → (rp.parse data).1 = .ok ∧ Shows (rp.parse data).2 p' m') := by
  obtain ⟨rfl, hfields, hok, hsettled, hfresh⟩ := h
  have hforget := replyReader_forgets.run data rp.parser m
  have hgo := bodyLog_goes (b := m.bodyLog) hok hfresh hne
  rw [replyReader_bodyLog.run data rp.parser m] at hgo
  obtain ⟨hused, hparser, -, hview⟩ := execute_eager settings_reads fieldsReader_additive rp.parser
    rp.fields data hok hne (by rw [hfields]; exact hsettled)
  rw [hfields, hforget] at hused hparser hview
  rcases hx : execute settings rp.parser rp.fields data with ⟨used, q, u⟩
  rw [hx] at hused hparser hview
  rcases hr : replyReader.run data rp.parser m with ⟨_ | k, p', m'⟩
  · rw [hr] at hused hparser hview hgo hforget
    obtain ⟨hok', hgoes⟩ := hgo
    obtain rfl : used = data.length := hused
    obtain rfl : q = p' := hparser
    have hu : u.eraseStatus = m'.replyFields := hview (.inl hok')
    have hflag : u.isComplete = false := (congrArg ResponseFields.isComplete hu).trans hgoes
    have herr : q.httpErrno ≠ .paused := by
      rw [hok']
      decide
    have hparse : rp.parse data = (.indeterminate, ⟨q, u⟩) := by
      simp [parse, hx, herr, resultOf, hflag]
    rw [hparse]
    refine ⟨rfl, rfl, hu, hok', ?_, .inr hgoes⟩
    exact (Reader.run_settled fieldsReader_additive hforget hok hsettled).2
  · rw [hr] at hused hparser hview hgo
    obtain rfl : used = k := hused
    obtain rfl : q = p' := hparser
    rcases hgo with ⟨hpaused, hcomplete⟩ | ⟨herror, hlt⟩
    · have hu : u.eraseStatus = m'.replyFields := hview (.inr hpaused)
      have hflag : u.isComplete = true := (congrArg ResponseFields.isComplete hu).trans hcomplete
      have hparse : rp.parse data = (.ok, ⟨parserPause q false, u⟩) := by
        simp only [parse, hx, show q.httpErrno = .paused from hpaused, hflag, resultOf, if_true, ite_self]
      rw [hparse]
      exact ⟨fun he => absurd hpaused he.2, fun _ => ⟨rfl, parserPause_statusCode q false,
        congrArg ResponseFields.headers hu, congrArg ResponseFields.body hu⟩⟩
    · refine ⟨fun _ => ?_, fun hno => absurd herror hno⟩
      simp only [parse, hx, if_pos hlt, if_neg herror.2]

theorem executeEof_kept (p : HttpParser) (u : ResponseFields) :
    (executeEof settings p u).2.1.statusCode = p.statusCode ∧
      (executeEof settings p u).2.2.headers = u.headers ∧ (executeEof settings p u).2.2.body = u.body := by
  have hpause := parserPause_statusCode p true
  unfold executeEof
  split
  · simp [Locals.callNotify, settings, Settings.notify, Reply.settle, ResponseFields.onMessageComplete,
      hpause]
  · exact ⟨rfl, rfl, rfl⟩
  · exact ⟨rfl, rfl, rfl⟩
  · exact ⟨rfl, rfl, rfl⟩
  · exact ⟨rfl, rfl, rfl⟩
  · exact ⟨rfl, rfl, rfl⟩

/-- The call at the end of the stream decodes to the same, and does not fail. -/
theorem parse_end {rp : ResponseParser} {p : HttpParser} {m : MessageLog} (h : Shows rp p m) :
    (rp.parse []).1 ≠ .error ∧ Shows (rp.parse []).2 p m := by
  have hexec : (execute settings rp.parser rp.fields []).2.1.statusCode = rp.parser.statusCode ∧
      (execute settings rp.parser rp.fields []).2.2.headers = rp.fields.headers ∧
      (execute settings rp.parser rp.fields []).2.2.body = rp.fields.body := by
    unfold execute
    split_ifs
    · exact ⟨rfl, rfl, rfl⟩
    · exact executeEof_kept rp.parser rp.fields
    · exact absurd rfl ‹_›
  unfold parse
  rcases hx : execute settings rp.parser rp.fields [] with ⟨used, q, u⟩
  rw [hx] at hexec
  simp only [List.length_nil, Nat.not_lt_zero, if_false, resultOf]
  refine ⟨by split_ifs <;> decide, ?_, hexec.2.1.trans h.headers, hexec.2.2.trans h.body⟩
  rw [← h.status, ← hexec.1]
  split_ifs
  · exact parserPause_statusCode q false
  · rfl

end ResponseParser

namespace HTTPClientImpl

open ResponseParser (Reached Shows)
open MessageLog (replyReader)

/-- **The loop is the reader on the whole stream**, with its headers and its status. -/
theorem readLoop_reply {parser : ResponseParser} {p : HttpParser} {m : MessageLog}
    (h : Reached parser p m) (reads : List Str) (hfilled : ∀ data ∈ reads, data ≠ []) (last : Str) :
    let r := replyReader.run (reads.flatten ++ last) p m
    (r.2.1.httpErrno.isError → readLoop parser reads last = .error invalidResponse) ∧
      (¬ r.2.1.httpErrno.isError →
        ∃ rp, readLoop parser reads last = .ok rp ∧ Shows rp r.2.1 r.2.2) := by
  induction reads generalizing parser p m with
  | nil =>
    simp only [List.flatten_nil, List.nil_append, readLoop]
    by_cases hlast : last = []
    · subst hlast
      obtain ⟨hresult, hshows⟩ := ResponseParser.parse_end h.shows
      refine ⟨fun he => absurd h.ok he.1, fun _ => ?_⟩
      rw [if_neg hresult]
      exact ⟨_, rfl, hshows⟩
    · have hparse := ResponseParser.parse_reply h hlast
      rcases hr : replyReader.run last p m with ⟨_ | k, p', m'⟩
      · rw [hr] at hparse
        obtain ⟨hresult, hat⟩ := hparse
        refine ⟨fun he => absurd hat.ok he.1, fun _ => ?_⟩
        rw [hresult, if_neg (by decide)]
        exact ⟨_, rfl, hat.shows⟩
      · rw [hr] at hparse
        refine ⟨fun he => ?_, fun he => ?_⟩
        · rw [hparse.1 he, if_pos rfl]
        · obtain ⟨hresult, hshows⟩ := hparse.2 he
          rw [hresult, if_neg (by decide)]
          exact ⟨_, rfl, hshows⟩
  | cons data reads ih =>
    have hparse := ResponseParser.parse_reply h (hfilled data List.mem_cons_self)
    have happend := Reader.run_append replyReader data (reads.flatten ++ last) p m
    simp only [List.flatten_cons, List.append_assoc, readLoop]
    rw [happend]
    rcases hr : replyReader.run data p m with ⟨_ | k, p', m'⟩
    · rw [hr] at hparse
      obtain ⟨hresult, hat⟩ := hparse
      rw [hresult, if_neg (by decide), if_neg (by decide)]
      exact ih hat fun d hd => hfilled d (List.mem_cons_of_mem _ hd)
    · rw [hr] at hparse
      refine ⟨fun he => ?_, fun he => ?_⟩
      · rw [hparse.1 he, if_pos rfl]
      · obtain ⟨hresult, hshows⟩ := hparse.2 he
        rw [hresult, if_neg (by decide), if_pos rfl]
        exact ⟨_, rfl, hshows⟩

/-- The log before the first byte. -/
def noReply (junk : Bool) : MessageLog := ⟨[], [], [], [], [], junk⟩

theorem reached_new (junk : Bool) : Reached (.new junk) (init .response) (noReply junk) where
  parser := rfl
  fields := rfl
  ok := rfl
  settled := Reader.settled_between rfl
  fresh := .inl rfl

/-- Headers into a response without any. -/
theorem foldl_insertIfNew (d : Dictionary) :
    d.toList.foldl (fun h hdr => h.insertIfNew hdr.1 hdr.2) (∅ : Dictionary) = d := by
  have hkeys : (d.toList.map Prod.fst).Nodup := by
    refine (List.pairwise_map.mpr ?_)
    exact d.distinct_keys_toList.imp fun hne he => hne (Std.LawfulEqCmp.compare_eq_iff_eq.mpr he)
  ext k v
  rw [foldl_insertIfNew_eq_some_iff hkeys, Std.ExtTreeMap.mem_toList_iff_getElem?_eq_some]

/-- What the bytes of a stream are read as. -/
def replyOf (junk : Bool) (stream : Str) : Except Exception HTTPServerResponse :=
  let r := replyReader.run stream (init .response) (noReply junk)
  if r.2.1.httpErrno.isError then .error invalidResponse
  else .ok { headers := r.2.2.dictionary, content := r.2.2.body, status := r.2.1.statusCode }

/-- **What `readResponse` gives is decided by the bytes of the stream**, one by one. -/
theorem readResponse_eq (junk : Bool) (d : Delivery) : readResponse junk d = replyOf junk d.stream := by
  obtain ⟨herror, hok⟩ := readLoop_reply (reached_new junk) d.reads d.filled d.last
  unfold replyOf readResponse Delivery.stream
  simp only
  split_ifs with he
  · rw [herror he]
    rfl
  · obtain ⟨rp, hrp, hshows⟩ := hok he
    rw [hrp]
    simp only [Except.map, ResponseParser.decodeMessage, hshows.status, hshows.headers, hshows.body,
      HTTPServerResponse.init, foldl_insertIfNew]

/-- The log without the flag. -/
def unflagged (m : MessageLog) : MessageLog := { m with isComplete := false }

def unflaggedReader : Reader MessageLog where
  deliver := MessageLog.deliver
  notify n _ m := ⟨0, n == .messageComplete, m⟩
  headersComplete _ m := ⟨0, false, m.flush⟩

theorem unflagged_flush (m : MessageLog) : (unflagged m).flush = unflagged m.flush := by
  unfold MessageLog.flush unflagged
  split_ifs <;> rfl

theorem replyReader_unflagged : replyReader.Forgets unflaggedReader unflagged where
  deliver e text m := by
    cases e with
    | headerField => simp only [unflaggedReader, replyReader, MessageLog.deliver, unflagged_flush]; rfl
    | url | status | headerValue | body => rfl
  notify n p m := by cases n <;> rfl
  headersComplete p m := congrArg (Http.Reply.mk 0 false) (unflagged_flush m)

/-- Nor does it matter what the parser's memory held. -/
theorem replyOf_junk (junk junk' : Bool) (stream : Str) : replyOf junk stream = replyOf junk' stream := by
  have hrun := replyReader_unflagged.run stream (init .response) (noReply junk)
  have hrun' := replyReader_unflagged.run stream (init .response) (noReply junk')
  rw [show unflagged (noReply junk) = unflagged (noReply junk') from rfl, hrun'] at hrun
  have hparser := congrArg (fun r => r.2.1) hrun
  have hlog := congrArg (fun r => r.2.2) hrun
  simp only at hparser hlog
  have hdictionary := congrArg MessageLog.dictionary hlog
  have hbody := congrArg MessageLog.body hlog
  change (replyReader.run stream (init .response) (noReply junk')).2.2.dictionary = _ at hdictionary
  change (replyReader.run stream (init .response) (noReply junk')).2.2.body = _ at hbody
  unfold replyOf
  simp only [hparser, hdictionary, hbody]
  rfl

/-- **No response depends on how its bytes are cut into reads.** -/
theorem stream_decides (junk junk' : Bool) (d d' : Delivery) (h : d.stream = d'.stream) :
    readResponse junk d = readResponse junk' d' := by
  rw [readResponse_eq, readResponse_eq, h, replyOf_junk junk junk']

/-- A chunked response at once, and cut inside of a header and of a chunk. -/
def wholeReply : Delivery where
  reads := []
  filled := by decide
  last := str "HTTP/1.1 200 OK\r\nTransfer-Encoding: chunked\r\n\r\n3\r\nabc\r\n0\r\n\r\n"

def cutReply : Delivery where
  reads := [wholeReply.last.take 25, (wholeReply.last.drop 25).take 29]
  filled := by decide +kernel
  last := wholeReply.last.drop 54

theorem cutReply_same : cutReply.stream = wholeReply.stream ∧
    readResponse true cutReply = readResponse false wholeReply := by
  have hstream : cutReply.stream = wholeReply.stream := by decide +kernel
  exact ⟨hstream, stream_decides true false cutReply wholeReply hstream⟩

end HTTPClientImpl

end Wsrv
