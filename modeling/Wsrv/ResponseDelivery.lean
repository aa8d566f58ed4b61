import Wsrv.RequestDelivery
import Wsrv.ResponseHead
import Wsrv.ResponseReading
import Wsrv.SessionData

/-!
# Responses that are delivered

What `response_to_buffers` writes, `readResponse` reads back: status, headers and
content, in whatever reads the bytes come (`readResponse_response`).  Of an
answer to `HEAD`, which ends behind its last header, the client gets all headers
but that one (`readResponse_head`).
-/

namespace Wsrv

open Http

namespace HTTPClientImpl

open MessageLog (replyReader replyReader_additive pairOf)

/-! ## A response as it is written -/

/-- The header lines of a response. -/
def replyLines (rep : HTTPServerResponse) : List HeaderLine :=
  rep.headers.toList.map fun kv => ⟨kv.1, kv.2, true⟩

/-- The status line and the headers. -/
def replyHead (rep : HTTPServerResponse) : Str :=
  statusLine (sentCode rep.status) ++ (replyLines rep).flatMap HeaderLine.text

theorem responseToBuffers_lines (rep : HTTPServerResponse) (isHead : Bool) :
    (responseToBuffers rep isHead).flatten =
      replyHead rep ++ if isHead then [] else CR :: LF :: rep.content := by
  have hheaders (hs : List (Str × Str)) :
      (hs.flatMap fun h => [h.1, str ": ", h.2, [CR, LF]]).flatten =
        (hs.map fun kv => (⟨kv.1, kv.2, true⟩ : HeaderLine)).flatMap HeaderLine.text := by
    induction hs with
    | nil => rfl
    | cons h hs ih =>
      rw [List.flatMap_cons, List.flatten_append, ih]
      simp [HeaderLine.text, HeaderLine.pad, str]
  rw [replyHead, statusLine_sentCode, responseToBuffers, replyLines]
  cases isHead <;> simp [hheaders]

/-- A response whose headers the client can take. -/
structure Headed (rep : HTTPServerResponse) : Prop where
  lines : ∀ h ∈ replyLines rep, h.Sound rep.content.length
  small : rep.content.length < 2 ^ 63
  room : (replyHead rep).length + 2 ≤ HTTP_MAX_HEADER_SIZE

/-- A response that arrives as it is written. -/
structure Deliverable (rep : HTTPServerResponse) : Prop extends Headed rep where
  /-- Two codes leave out the content, unless it has a length. -/
  bodiless : sentCode rep.status = 204 ∨ sentCode rep.status = 304 → rep.content = [] ∨
    str "Content-Length" ∈ rep.headers

theorem isLength_iff (rep : HTTPServerResponse) :
    (∃ h ∈ replyLines rep, h.isLength = true) ↔ str "Content-Length" ∈ rep.headers := by
  rw [Std.ExtTreeMap.mem_iff_isSome_getElem?, Option.isSome_iff_exists]
  simp only [replyLines, List.mem_map, HeaderLine.isLength, beq_iff_eq]
  constructor
  · rintro ⟨h, ⟨kv, hkv, rfl⟩, hname⟩
    refine ⟨kv.2, ?_⟩
    rw [← Std.ExtTreeMap.mem_toList_iff_getElem?_eq_some, ← hname]
    exact hkv
  · rintro ⟨v, hv⟩
    exact ⟨⟨str "Content-Length", v, true⟩,
      ⟨_, Std.ExtTreeMap.mem_toList_iff_getElem?_eq_some.mpr hv, rfl⟩, rfl⟩

/-! ## The head -/

theorem reply_begins : replyReader.Begins fun m => { m with isComplete := false } := fun _ _ => rfl

theorem reply_ends : replyReader.Ends fun m => { m with isComplete := true } := fun _ _ => rfl

variable {rep : HTTPServerResponse}

/-- The log behind the headers, with the last of them still to be put away. -/
def lastLine (rep : HTTPServerResponse) : MessageLog :=
  (replyLines rep).foldl (HeaderLine.deliver replyReader) (noReply false)

/-- The status line and the headers are taken. -/
theorem takes_replyHead (h : Headed rep) (junk : Bool) :
    ∃ q, replyReader.Takes (replyHead rep) (init .response) (noReply junk) q (lastLine rep) ∧
      q.nread = (replyHead rep).length ∧
      AtLine ((replyLines rep).foldl (HeaderLine.frame rep.content.length)
        (frame (behindStatusLine (sentCode rep.status)))) q := by
  have hroom := h.room
  rw [replyHead, List.length_append] at hroom ⊢
  have hfirst := takes_statusLine replyReader_additive reply_begins (sentCode_mem rep.status)
    (noReply junk)
  have hat : AtLine (frame (behindStatusLine (sentCode rep.status)))
      (behindStatusLine (sentCode rep.status)) := ⟨.inl rfl, rfl, rfl⟩
  have hcount : (behindStatusLine (sentCode rep.status)).nread =
      (statusLine (sentCode rep.status)).length := rfl
  obtain ⟨q, hlines, hread, hq⟩ := takes_lines replyReader_additive h.small h.lines hat (noReply false)
    (by omega)
  exact ⟨q, hfirst.append hlines, by omega, hq⟩

/-- What the lines leave as the status line has set it. -/
theorem reply_kept {q : HttpParser}
    (hq : frame q = (replyLines rep).foldl (HeaderLine.frame rep.content.length)
      (frame (behindStatusLine (sentCode rep.status)))) :
    (q.statusCode = sentCode rep.status ∧ q.type = .response) ∧
      (q.flags.upgrade = false ∧ q.method ≠ .CONNECT) ∧
      (q.flags.skipbody = false ∧ q.flags.chunked = false ∧ q.flags.trailing = false) := by
  refine ⟨⟨?_, ?_⟩, ⟨?_, ?_⟩, ?_, ?_, ?_⟩
  · exact framed_kept hq (·.statusCode) (fun _ => rfl) fun _ _ => rfl
  · exact framed_kept hq (·.type) (fun _ => rfl) fun _ _ => rfl
  · exact framed_kept hq (·.flags.upgrade) (fun _ => rfl) fun _ _ => rfl
  · have hmethod : q.method = .DELETE := framed_kept hq (·.method) (fun _ => rfl) fun _ _ => rfl
    rw [hmethod]
    decide
  · exact framed_kept hq (·.flags.skipbody) (fun _ => rfl) fun _ _ => rfl
  · exact framed_kept hq (·.flags.chunked) (fun _ => rfl) fun _ _ => rfl
  · exact framed_kept hq (·.flags.trailing) (fun _ => rfl) fun _ _ => rfl

/-- The headers of a response, put together from its lines. -/
theorem lastLine_flush (h : Headed rep) :
    (lastLine rep).flush = ⟨rep.headers.toList, [], [], [], [], false⟩ := by
  have hlines := MessageLog.foldl_lines (replyLines rep) (fun l hl => (h.lines l hl).value.ne_nil)
    (noReply false) rfl
  have hpairs : (replyLines rep).map pairOf = rep.headers.toList := by
    simp only [replyLines, List.map_map, Function.comp_def, pairOf, Prod.mk.eta, List.map_id']
  rw [hpairs] at hlines
  exact hlines

/-! ## The content -/

/-- The line feed of the empty line: nothing pauses the parser at the end of the headers. -/
theorem reply_headersEnd {q : HttpParser} (hs : q.state = .headersAlmostDone) (hok : q.httpErrno = .ok)
    (htrailing : q.flags.trailing = false) (hroom : q.nread + 1 ≤ HTTP_MAX_HEADER_SIZE) (m : MessageLog) :
    replyReader.stepByte LF q m =
      replyReader.byte 3 LF (headEnd { q with nread := q.nread + 1 }) m.flush := by
  have hswitch := switch_headEnd (p := { q with nread := q.nread + 1 }) hs htrailing
  have hcall : replyReader.call LF (headEnd { q with nread := q.nread + 1 }) m .headersComplete =
      ((headEnd { q with nread := q.nread + 1 }, m.flush), none) := by
    have haccepts : replyReader.Accepts := ⟨fun n p m => by cases n <;> rfl, fun p m => rfl⟩
    rw [haccepts.call_eq LF (p := headEnd { q with nread := q.nread + 1 }) hok]
    rfl
  rw [Reader.stepByte_head (by rw [hs]; rfl) hroom, passes, Reader.byte, hswitch]
  simp only [hcall]

/-- A body that goes to the end of the stream. -/
theorem takes_untilClose (body : Str) {p : HttpParser} (hs : p.state = .bodyIdentityEof)
    (m : MessageLog) :
    replyReader.Takes body p m p { m with body := m.body ++ body } := by
  induction body generalizing m with
  | nil =>
    rw [List.append_nil]
    exact .nil p m
  | cons ch rest ih =>
    have hstep : switch p ch = .go (some .body) p .none .next := by
      simp [switch, switchBody, hs]
    have hcount : countByte p = p := by simp [countByte, hs, parsingHeader]
    have hbyte : replyReader.stepByte ch p m = (none, p, { m with body := m.body ++ [ch] }) := by
      have hbody : replyReader.stepByte ch p m = replyReader.byte passes ch p m := by
        simp [Reader.stepByte, hcount, hs, parsingHeader]
      rw [hbody, passes, Reader.byte_element hstep, hs]
      rfl
    have hrest := (Reader.Takes.one hbyte).append (ih { m with body := m.body ++ [ch] })
    simpa using hrest

/-- The parser at the end of the headers of a response. -/
structure ReplyEnd (rep : HTTPServerResponse) (p : HttpParser) : Prop where
  state : p.state = .headersDone
  ok : p.httpErrno = .ok
  status : p.statusCode = sentCode rep.status
  response : p.type = .response
  upgrade : p.upgrade = false
  skipbody : p.flags.skipbody = false
  chunked : p.flags.chunked = false
  length : p.contentLength =
    if str "Content-Length" ∈ rep.headers then rep.content.length else ULLONG_MAX

theorem replyEnd {q : HttpParser} (n : Nat) (hok : q.httpErrno = .ok)
    (hq : frame q = (replyLines rep).foldl (HeaderLine.frame rep.content.length)
      (frame (behindStatusLine (sentCode rep.status)))) :
    ReplyEnd rep (headEnd { q with nread := n }) := by
  obtain ⟨⟨hstatus, htype⟩, ⟨hupgrade, hmethod⟩, hskip, hchunked, -⟩ := reply_kept hq
  have hlength := framed_length hq
  simp only [isLength_iff] at hlength
  refine ⟨rfl, hok, hstatus, htype, ?_, hskip, hchunked, hlength⟩
  simp only [headEnd, hupgrade, Bool.false_or]
  exact beq_false_of_ne hmethod

/-- Where the end of the stream is no end of the message, the content has a length, or there is
none. -/
theorem ReplyEnd.sized {p : HttpParser} (hp : ReplyEnd rep p) (h : Deliverable rep)
    (hneeds : messageNeedsEof p = false) : Sized rep.content p := by
  refine ⟨hp.upgrade, hp.skipbody, hp.chunked, ?_, h.small⟩
  have hlength := hp.length
  split_ifs at hlength with hin
  · exact .inl hlength
  · have hcode : sentCode rep.status = 204 ∨ sentCode rep.status = 304 := by
      have hknown : ∀ c ∈ knownCodes, c / 100 ≠ 1 := by decide
      have hinformal := hknown _ (sentCode_mem rep.status)
      by_contra hno
      rw [not_or] at hno
      simp [messageNeedsEof, hp.response, hp.status, hp.skipbody, hp.chunked, hlength, hinformal,
        hno] at hneeds
    exact .inr ⟨hlength, hneeds, (h.bodiless hcode).resolve_right hin⟩

/-- A content without a length goes to the end of the stream. -/
theorem ReplyEnd.untilClose {p : HttpParser} (hp : ReplyEnd rep p) (hneeds : messageNeedsEof p = true)
    (k : Nat) (m : MessageLog) :
    replyReader.byte (k + 1) LF p m = (none, { p with nread := 0, state := .bodyIdentityEof }, m) := by
  have hmax : p.contentLength = ULLONG_MAX := by
    by_contra hne
    have hno : messageNeedsEof p = false := by simp [messageNeedsEof, hp.response, hne]
    rw [hno] at hneeds
    cases hneeds
  have hframing : ClientResponse.framing p = .close := by
    unfold ClientResponse.framing
    simp [hp.chunked, hmax, hneeds]
  have hstep := ClientResponse.switch_headersDone hp.state hp.skipbody
  have hup : ¬p.upgrade = true := by simp [hp.upgrade]
  simp only at hstep
  rw [if_neg hup, hframing] at hstep
  rw [Reader.byte_element hstep, hp.state]
  rfl

/-- The empty line and the content, behind the headers. -/
theorem run_reply (h : Deliverable rep) {q : HttpParser}
    (hq : Placed .headersAlmostDone ((replyLines rep).foldl (HeaderLine.frame rep.content.length)
      (frame (behindStatusLine (sentCode rep.status)))) q)
    (hroom : q.nread + 1 ≤ HTTP_MAX_HEADER_SIZE) :
    ∃ k q' m, replyReader.run (LF :: rep.content) q (lastLine rep) = (k, q', m) ∧
      ¬ q'.httpErrno.isError ∧ q'.statusCode = sentCode rep.status ∧
      m.headers = rep.headers.toList ∧ m.body = rep.content := by
  obtain ⟨hs, hok, hframe⟩ := hq
  obtain ⟨-, -, -, -, htrailing⟩ := reply_kept hframe
  have hfirst := reply_headersEnd hs hok htrailing hroom (lastLine rep)
  rw [lastLine_flush h.toHeaded] at hfirst
  have hp := replyEnd (q.nread + 1) hok hframe
  generalize headEnd { q with nread := q.nread + 1 } = p at hfirst hp
  cases hneeds : messageNeedsEof p with
  | true =>
    have hbyte := hfirst.trans (hp.untilClose hneeds 2 _)
    have hcontent := takes_untilClose rep.content
      (p := { p with nread := 0, state := .bodyIdentityEof }) rfl
      ⟨rep.headers.toList, [], [], [], [], false⟩
    exact ⟨_, _, _, (Reader.Takes.one hbyte).append hcontent, fun he => he.1 hp.ok, hp.status, rfl, rfl⟩
  | false =>
    obtain ⟨q', hrun, hended⟩ := run_headersDone replyReader_additive reply_ends (hp.sized h hneeds)
      hp.state hp.ok 2 ⟨rep.headers.toList, [], [], [], [], false⟩ hfirst
    exact ⟨_, q', _, hrun, fun he => he.2 hended.paused, hended.statusCode.trans hp.status, rfl, rfl⟩

/-! ## The answer to a GET -/

/-- The bytes of a response are read as that response. -/
theorem replyOf_response (h : Deliverable rep) (junk : Bool) :
    replyOf junk (responseToBuffers rep false).flatten =
      .ok { rep with status := sentCode rep.status } := by
  have hroom := h.room
  obtain ⟨q₁, hhead, hread, hat⟩ := takes_replyHead h.toHeaded junk
  obtain ⟨q₂, hempty, hread₂, hq₂⟩ := takes_emptyLine (R := replyReader) hat (lastLine rep) (by omega)
  obtain ⟨k, q', m, hrun, hok, hstatus, hheaders, hbody⟩ := run_reply h hq₂ (by omega)
  have hstream : replyReader.run (replyHead rep ++ CR :: LF :: rep.content) (init .response) (noReply junk) =
      (k.map (· + (replyHead rep).length + 1), q', m) := by
    have hsplit : replyHead rep ++ CR :: LF :: rep.content =
        (replyHead rep ++ [CR]) ++ (LF :: rep.content) := by simp
    have hfront : replyReader.run (replyHead rep ++ [CR]) (init .response) (noReply junk) = _ :=
      hhead.append hempty
    rw [hsplit, Reader.run_append, hfront]
    simp [hrun, Nat.add_assoc]
  have hdictionary : m.dictionary = rep.headers := by
    rw [MessageLog.dictionary, hheaders]
    exact SessionData.foldl_insert_toList rep.headers
  rw [responseToBuffers_lines, replyOf]
  simp only [Bool.false_eq_true, if_false, hstream, if_neg hok]
  rw [hdictionary, hstatus, hbody]

/-- **A response is read back as it was written**, with the code that stands for its status, in
whatever reads its bytes come. -/
theorem readResponse_response (h : Deliverable rep) (junk : Bool) (d : Delivery)
    (hd : d.stream = (responseToBuffers rep false).flatten) :
    readResponse junk d = .ok { rep with status := sentCode rep.status } := by
  rw [readResponse_eq, hd, replyOf_response h]

/-- A page of the server itself. -/
theorem notFound_deliverable : Deliverable (.stockReply .notFound) where
  lines := by decide +kernel
  small := by decide +kernel
  room := by decide +kernel
  bodiless := by decide +kernel

/-- A page in two reads. -/
def notFoundPage : Delivery where
  reads := [((responseToBuffers (.stockReply .notFound) false).flatten).take 40]
  filled := by decide +kernel
  last := ((responseToBuffers (.stockReply .notFound) false).flatten).drop 40

theorem notFoundPage_read :
    readResponse false notFoundPage = .ok { HTTPServerResponse.stockReply .notFound with status := 404 } :=
  readResponse_response notFound_deliverable false notFoundPage (by
    simp [Delivery.stream, notFoundPage])

/-! ## The answer to a HEAD -/

/-- The headers that are put away before the end of the lines. -/
theorem foldl_putAway (hs : List HeaderLine) (hne : ∀ h ∈ hs, h.value ≠ []) (m : MessageLog)
    (hfield : m.flush.field = []) (hnil : hs ≠ []) :
    (hs.foldl (HeaderLine.deliver replyReader) m).headers =
      m.flush.headers ++ hs.dropLast.map pairOf := by
  induction hs using List.reverseRecOn with
  | nil => exact absurd rfl hnil
  | append_singleton hs l _ =>
    have hlines := MessageLog.foldl_lines hs (fun h hh => hne h (List.mem_append_left _ hh)) m hfield
    have hflush := congrArg MessageLog.headers hlines
    rw [List.foldl_append, List.foldl_cons, List.foldl_nil, List.dropLast_concat]
    exact hflush

/-- **The client reads an answer to HEAD without its last header**: no empty line ends the headers,
and a header is put away with the next name or at their end. -/
theorem readResponse_head (h : Headed rep) (junk : Bool) (d : Delivery)
    (hd : d.stream = (responseToBuffers rep true).flatten) :
    readResponse junk d = .ok
      { headers := Std.ExtTreeMap.ofList rep.headers.toList.dropLast
        content := [], status := sentCode rep.status } := by
  obtain ⟨q, hhead, -, hat⟩ := takes_replyHead h junk
  have hrun : replyReader.run (replyHead rep) (init .response) (noReply junk) = _ := hhead
  obtain ⟨⟨hstatus, -⟩, -⟩ := reply_kept hat.frame
  have hok : ¬ q.httpErrno.isError := fun he => he.1 hat.ok
  have hbody : (lastLine rep).body = [] := by
    have hflush := congrArg MessageLog.body (lastLine_flush h)
    unfold MessageLog.flush at hflush
    split_ifs at hflush <;> exact hflush
  have hdictionary : (lastLine rep).dictionary = Std.ExtTreeMap.ofList rep.headers.toList.dropLast := by
    have hpairs : (replyLines rep).map pairOf = rep.headers.toList := by
      simp only [replyLines, List.map_map, Function.comp_def, pairOf, Prod.mk.eta, List.map_id']
    have hheaders : (lastLine rep).headers = rep.headers.toList.dropLast := by
      by_cases hnil : replyLines rep = []
      · rw [← hpairs, lastLine, hnil]
        rfl
      · have hput := foldl_putAway (replyLines rep) (fun l hl => (h.lines l hl).value.ne_nil)
          (noReply false) rfl hnil
        rw [lastLine, hput, ← hpairs, List.map_dropLast]
        rfl
    rw [MessageLog.dictionary, hheaders, Std.ExtTreeMap.ofList_eq_foldl]
  rw [readResponse_eq, hd, responseToBuffers_lines, replyOf]
  simp only [if_true, List.append_nil, hrun, if_neg hok, hstatus, hbody, hdictionary]

/-- `Content-Type` is the greater name of the two. -/
theorem notFoundHead_read : readResponse false
    ⟨[], by decide, (responseToBuffers (.stockReply .notFound) true).flatten⟩ = .ok
      { headers := Std.ExtTreeMap.ofList
          [(str "Content-Length", toString (HTTPServerResponse.stockReply .notFound).content.length)]
        content := [], status := 404 } := by
  have hheaders : (HTTPServerResponse.stockReply .notFound).headers.toList.dropLast =
      [(str "Content-Length", toString (HTTPServerResponse.stockReply .notFound).content.length)] := by
    decide +kernel
  rw [← hheaders]
  exact readResponse_head notFound_deliverable.toHeaded false _ rfl

end HTTPClientImpl

end Wsrv
