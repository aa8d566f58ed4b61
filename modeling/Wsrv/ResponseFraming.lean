import Wsrv.ClientResponse

/-!
# Truncated responses

`readResponse` decodes what has arrived when the stream ends, and does not ask
whether the message was complete: a message that breaks off is returned like one
that was read to its end.  Nor does the framing of a message count where its
head has an `Upgrade`: the parser takes the head for the whole message.

`untruncated_iff` says when a stream is answered rightly: the parser rejects it,
or it holds a complete message, without a body if the head has an `Upgrade`.
-/

namespace Wsrv.ClientResponse

open Http HTTPClientImpl

/-! ## What is received -/

/-- The log of a reader without the flag of the parser's owner. -/
structure Received where
  /-- The parser at the end of the headers. -/
  head : Option HttpParser
  body : Str
  deriving DecidableEq

namespace Received

/-- Nothing has been received. -/
def start : Received := ⟨none, []⟩

def deliver (e : Elem) (text : Str) (m : Received) : Received :=
  if e = .body then { m with body := m.body ++ text } else m

def reader : Reader Received where
  deliver := deliver
  notify n _ m := match n with
    | .messageBegin => ⟨0, false, m⟩
    | .messageComplete => ⟨0, true, m⟩
  headersComplete p m := ⟨0, false, { m with head := some p }⟩

def ofLog (m : ResponseLog) : Received := ⟨m.head, m.body⟩

theorem reader_forgets : ResponseLog.reader.Forgets reader ofLog where
  deliver e text m := by
    simp only [reader, deliver, ResponseLog.reader, ResponseLog.deliver]
    split_ifs <;> rfl
  notify n p m := by cases n <;> rfl
  headersComplete p m := rfl

end Received

/-! ## Complete messages -/

/-- How the body of a message is delimited. -/
inductive Framing
  | bodiless
  | chunked
  | length (n : Nat)
  | close
  deriving DecidableEq

/-- The framing that the headers call for. -/
def framing (p : HttpParser) : Framing :=
  if p.flags.chunked then .chunked
  else if p.contentLength ≠ ULLONG_MAX then .length p.contentLength
  else if messageNeedsEof p then .close
  else .bodiless

/-- `head` is the head of a response, up to the line feed of the empty line, and `p` has parsed it. -/
def Head (head : Str) (p : HttpParser) : Prop :=
  ∃ pre, head = pre ++ [LF] ∧
    (Received.reader.run pre (init .response) .start).2.2.head = none ∧
    (Received.reader.run head (init .response) .start).2.2.head = some p

/-- The number that hexadecimal digits stand for. -/
def hexValue (digits : Str) : Nat := digits.foldl (fun n c => n * 16 + (unhex c).getD 0) 0

/-- The line with the size of a chunk, and its extensions. -/
def SizeLine (line : Str) (n : Nat) : Prop :=
  ∃ digits ext, line = digits ++ (ext ++ [CR, LF]) ∧ digits ≠ [] ∧
    (∀ c ∈ digits, (unhex c).isSome) ∧ hexValue digits = n ∧
    (ext = [] ∨ ext.head? = some ';'.toUInt8 ∨ ext.head? = some ' '.toUInt8) ∧ CR ∉ ext

/-- The end of a line of a head or a trailer, with a carriage return or without. -/
def LineEnd (text : Str) : Prop := text = [LF] ∨ text = [CR, LF]

/-- The lines behind the last chunk, each with its end, and the empty line. -/
def Trailer (text : Str) : Prop :=
  ∃ (lines : List (Str × Str)) (last : Str),
    text = lines.flatMap (fun line => line.1 ++ line.2) ++ last ∧ LineEnd last ∧
      ∀ line ∈ lines, line.1 ≠ [] ∧ CR ∉ line.1 ∧ LF ∉ line.1 ∧ LineEnd line.2

/-- The bytes begin with a chunked body up to the end of its trailer. -/
inductive Chunks : Str → Str → Prop
  | last {line trailer rest : Str} (hline : SizeLine line 0) (htrailer : Trailer trailer) :
    Chunks (line ++ (trailer ++ rest)) []
  | more {line data rest body : Str} (hline : SizeLine line data.length) (hdata : data ≠ [])
    (hrest : Chunks rest body) : Chunks (line ++ (data ++ ([CR, LF] ++ rest))) (data ++ body)

/-- The stream begins with a complete message that has the body, or it is one that its end
delimits; `p` has parsed its head. -/
inductive Message (p : HttpParser) : Str → Str → Prop
  | bodiless {head rest : Str} (hhead : Head head p) (hf : framing p = .bodiless) :
    Message p (head ++ rest) []
  | length {head rest : Str} {n : Nat} (hhead : Head head p) (hf : framing p = .length n)
    (hn : n ≤ rest.length) : Message p (head ++ rest) (rest.take n)
  | chunked {head rest body : Str} (hhead : Head head p) (hf : framing p = .chunked)
    (hbody : Chunks rest body) : Message p (head ++ rest) body
  | close {head rest : Str} (hhead : Head head p) (hf : framing p = .close) :
    Message p (head ++ rest) rest

/-- The parser rejects the bytes. -/
def Rejected (s : Str) : Prop :=
  (Received.reader.run s (init .response) .start).2.1.httpErrno.isError

/-- A response is returned for a complete message only, with its body, and the rest is an
`HTTPClientError`. -/
structure Untruncated (junk : Bool) (d : Delivery) : Prop where
  returned : ∀ resp, readResponse junk d = .ok resp → ∃ p, Message p d.stream resp.content
  thrown : ∀ e, readResponse junk d = .error e → e = invalidResponse

/-! ## Runs of the reader -/

open Received (reader deliver)

theorem reader_accepts : reader.Accepts where
  notify n p m := by cases n <;> rfl
  headersComplete p m := rfl

theorem reader_call (ch : UInt8) {p : HttpParser} (hok : p.httpErrno = .ok) (m : Received) (c : Call) :
    reader.call ch p m c =
      match c with
      | .none => ((p, m), none)
      | .data e w _ => ((p, deliver e (if w then [ch] else []) m), none)
      | .notify .messageBegin => ((p, m), none)
      | .notify .messageComplete => ((parserPause p true, m), some 1)
      | .headersComplete => ((p, { m with head := some p }), none) := by
  rw [reader_accepts.call_eq ch hok]
  cases c with
  | none => rfl
  | data e w k => rfl
  | notify n => cases n <;> rfl
  | headersComplete => rfl

/-- The parser fails on the bytes, or uses all of them and comes to `Q`. -/
def Leads (bytes : Str) (p : HttpParser) (m : Received) (Q : HttpParser → Received → Prop) : Prop :=
  match reader.run bytes p m with
  | (none, p', m') => p'.httpErrno = .ok ∧ Q p' m'
  | (some _, p', _) => p'.httpErrno.isError

/-- The parser fails on the bytes, or comes to the log `m'`, complete or not. -/
def Comes (bytes : Str) (p : HttpParser) (m m' : Received) : Prop :=
  (reader.run bytes p m).2.1.httpErrno.isError ∨ (reader.run bytes p m).2.2 = m'

theorem Leads.append {a b : Str} {p : HttpParser} {m : Received} {Q R : HttpParser → Received → Prop}
    (ha : Leads a p m Q)
    (hb : ∀ p' m', p'.httpErrno = .ok → Q p' m' → Leads b p' m' R) : Leads (a ++ b) p m R := by
  unfold Leads at ha ⊢
  rw [Reader.run_append]
  rcases hr : reader.run a p m with ⟨_ | k, p', m'⟩
  · rw [hr] at ha
    have hrest := hb p' m' ha.1 ha.2
    unfold Leads at hrest
    rcases hr' : reader.run b p' m' with ⟨_ | k, p'', m''⟩
    · rw [hr'] at hrest
      simpa [hr'] using hrest
    · rw [hr'] at hrest
      simpa [hr'] using hrest
  · rw [hr] at ha
    exact ha

theorem Leads.comes {a b : Str} {p : HttpParser} {m n : Received} {Q : HttpParser → Received → Prop}
    (ha : Leads a p m Q)
    (hb : ∀ p' m', p'.httpErrno = .ok → Q p' m' → Comes b p' m' n) : Comes (a ++ b) p m n := by
  unfold Leads at ha
  unfold Comes
  rw [Reader.run_append]
  rcases hr : reader.run a p m with ⟨_ | k, p', m'⟩
  · rw [hr] at ha
    exact hb p' m' ha.1 ha.2
  · rw [hr] at ha
    exact .inl ha

theorem Leads.nil {p : HttpParser} {m : Received} {Q : HttpParser → Received → Prop}
    (hok : p.httpErrno = .ok) (h : Q p m) : Leads [] p m Q := ⟨hok, h⟩

theorem Comes.nil (p : HttpParser) (m : Received) : Comes [] p m m := .inr rfl

/-- Where the reader has stopped, the rest of the bytes changes nothing. -/
theorem Comes.stopped {a b : Str} {p p' : HttpParser} {m m' : Received} {k : Nat}
    (h : reader.run a p m = (some k, p', m')) : Comes (a ++ b) p m m' := by
  unfold Comes
  rw [Reader.run_append, h]
  exact .inr rfl

theorem countByte_eq (p : HttpParser) : ∃ k, countByte p = { p with nread := k } := by
  unfold countByte
  split
  · exact ⟨_, rfl⟩
  · exact ⟨p.nread, rfl⟩

/-- What a step that calls nothing, or reports an element, leaves to do. -/
def Rest (p : HttpParser) (ch : UInt8) (m : Received) (next : HttpParser → Received → Prop) :
    Step → Prop
  | .error _ _ => True
  | .go mk q .none .next => next q (reader.feed (mk <|> owner p.state) [ch] m)
  | .go _ q (.data e w _) .next => next q (deliver e (if w then [ch] else []) m)
  | _ => False

theorem stepByte_rest {ch : UInt8} {p : HttpParser} {m : Received}
    {next : HttpParser → Received → Prop} (hok : p.httpErrno = .ok)
    (h : ∀ k, Rest p ch m next (switch { p with nread := k } ch)) :
    match reader.stepByte ch p m with
    | (none, p', m') => p'.httpErrno = .ok ∧ next p' m'
    | (some _, p', _) => p'.httpErrno.isError := by
  unfold Reader.stepByte
  split_ifs
  · exact (by decide : Errno.headerOverflow.isError)
  · obtain ⟨k, hk⟩ := countByte_eq p
    have hrest := h k
    have hd := switch_disciplined { p with nread := k } ch
    rw [hk, passes, Reader.byte]
    cases hs : switch { p with nread := k } ch with
    | error q e =>
      rw [hs] at hd
      exact hd
    | go mk q c after =>
      rw [hs] at hrest hd
      have hq : q.httpErrno = .ok := hd.1.trans hok
      simp only [reader_call ch hq]
      cases c with
      | none =>
        cases after with
        | next => exact ⟨hq, hrest⟩
        | again => exact hrest.elim
        | ret => exact hrest.elim
      | data e w k =>
        cases after with
        | next => exact ⟨hq, hrest⟩
        | again => exact hrest.elim
        | ret => exact hrest.elim
      | notify n => exact hrest.elim
      | headersComplete => exact hrest.elim

theorem Leads.cons {ch : UInt8} {rest : Str} {p : HttpParser} {m : Received}
    {Q : HttpParser → Received → Prop} (hok : p.httpErrno = .ok)
    (h : ∀ k, Rest p ch m (fun q m' => q.httpErrno = .ok → Leads rest q m' Q)
      (switch { p with nread := k } ch)) : Leads (ch :: rest) p m Q := by
  have hstep := stepByte_rest hok h
  unfold Leads
  rw [Reader.run]
  rcases hs : reader.stepByte ch p m with ⟨_ | used, p', m'⟩
  · rw [hs] at hstep
    have hrest := hstep.2 hstep.1
    unfold Leads at hrest
    rcases hr : reader.run rest p' m' with ⟨_ | k, q, m''⟩
    · rw [hr] at hrest
      simpa [hr] using hrest
    · rw [hr] at hrest
      simpa [hr] using hrest
  · rw [hs] at hstep
    exact hstep

theorem Comes.cons {ch : UInt8} {rest : Str} {p : HttpParser} {m n : Received}
    (hok : p.httpErrno = .ok)
    (h : ∀ k, Rest p ch m (fun q m' => q.httpErrno = .ok → Comes rest q m' n)
      (switch { p with nread := k } ch)) : Comes (ch :: rest) p m n := by
  have hstep := stepByte_rest hok h
  unfold Comes
  rw [Reader.run]
  rcases hs : reader.stepByte ch p m with ⟨_ | used, p', m'⟩
  · rw [hs] at hstep
    exact hstep.2 hstep.1
  · rw [hs] at hstep
    exact .inl hstep

/-! ## Bodies -/

/-- More of the body. -/
def Received.more (m : Received) (text : Str) : Received := { m with body := m.body ++ text }

theorem feed_body (m : Received) (text : Str) : reader.feed (some .body) text m = m.more text := rfl

theorem Received.more_more (m : Received) (a b : Str) : (m.more a).more b = m.more (a ++ b) := by
  simp [Received.more]

theorem Received.more_nil (m : Received) : m.more [] = m := by simp [Received.more]

/-- The body of a message with a length is what comes, up to its length. -/
theorem comes_identity {rest : Str} {p : HttpParser} {m : Received} (hok : p.httpErrno = .ok)
    (hs : p.state = .bodyIdentity) (hpos : p.contentLength ≠ 0) (hn : p.contentLength ≤ rest.length) :
    Comes rest p m (m.more (rest.take p.contentLength)) := by
  induction rest generalizing p m with
  | nil => exact absurd (Nat.le_zero.mp hn) hpos
  | cons ch rest ih =>
    by_cases hlast : p.contentLength - 1 = 0
    · -- the last byte is reported, and the message is complete
      have hone : p.contentLength = 1 := by omega
      have hcount : countByte p = p := by simp [countByte, hs, parsingHeader]
      have hrun : reader.run [ch] p m = (some 1, parserPause { p with
          contentLength := 0, state := newMessage { p with
            contentLength := 0, state := .messageDone } } true, m.more [ch]) := by
        simp [Reader.run, Reader.stepByte, hs, parsingHeader, hcount, passes, Reader.byte, switch,
          switchBody, hone, reader_call, hok, finish, Received.more, deliver]
      have hstop := Comes.stopped (b := rest) hrun
      rwa [hone, List.take_succ_cons, List.take_zero]
    · have hstep : ∀ k, switch { p with nread := k } ch = .go (some .body)
          { p with nread := k, contentLength := p.contentLength - 1 } .none .next := by
        intro k
        simp [switch, switchBody, hs, hlast]
      refine Comes.cons hok fun k => ?_
      rw [hstep k]
      intro hq
      have hrest := ih (p := { p with nread := k, contentLength := p.contentLength - 1 })
        (m := m.more [ch]) hq hs hlast (by simp at hn ⊢; omega)
      obtain ⟨n, hn'⟩ : ∃ n, p.contentLength = n + 1 := ⟨p.contentLength - 1, by omega⟩
      rw [Received.more_more] at hrest
      rw [hn', List.take_succ_cons]
      simpa [hn', feed_body] using hrest

/-- The body of a message that the end of the stream delimits is all that comes. -/
theorem comes_identityEof {rest : Str} {p : HttpParser} {m : Received} (hok : p.httpErrno = .ok)
    (hs : p.state = .bodyIdentityEof) : Comes rest p m (m.more rest) := by
  induction rest generalizing p m with
  | nil =>
    rw [Received.more_nil]
    exact Comes.nil p m
  | cons ch rest ih =>
    have hstep : ∀ k, switch { p with nread := k } ch =
        .go (some .body) { p with nread := k } .none .next := by
      intro k
      simp [switch, switchBody, hs]
    refine Comes.cons hok fun k => ?_
    rw [hstep k]
    intro hq
    have hrest := ih (p := { p with nread := k }) (m := m.more [ch]) hq hs
    rwa [Received.more_more] at hrest

/-- The data of a chunk. -/
theorem leads_data {data : Str} {p : HttpParser} {m : Received} (hok : p.httpErrno = .ok)
    (hs : p.state = .chunkData) (hn : p.contentLength = data.length) (hne : data ≠ []) :
    Leads data p m fun p' m' => p'.state = .chunkDataAlmostDone ∧ m' = m.more data := by
  induction data generalizing p m with
  | nil => exact absurd rfl hne
  | cons ch rest ih =>
    rw [List.length_cons] at hn
    refine Leads.cons hok fun k => ?_
    cases rest with
    | nil =>
      have hstep : switch { p with nread := k } ch = .go (some .body)
          { p with nread := k, contentLength := 0, state := .chunkDataAlmostDone } .none .next := by
        simp [switch, switchBody, hs, hn]
      rw [hstep]
      exact fun hq => Leads.nil hq ⟨rfl, rfl⟩
    | cons c cs =>
      have hstep : switch { p with nread := k } ch = .go (some .body)
          { p with nread := k, contentLength := (c :: cs).length } .none .next := by
        simp [switch, switchBody, hs, hn]
      rw [hstep]
      intro hq
      have hrest := ih (p := { p with nread := k, contentLength := (c :: cs).length })
        (m := m.more [ch]) hq hs rfl (List.cons_ne_nil _ _)
      rw [Received.more_more] at hrest
      exact hrest

/-- The line end behind the data. -/
theorem leads_dataEnd {p : HttpParser} {m : Received} (hok : p.httpErrno = .ok)
    (hs : p.state = .chunkDataAlmostDone) :
    Leads [CR, LF] p m fun p' m' => p'.state = .chunkSizeStart ∧ m' = m := by
  refine Leads.cons hok fun k => ?_
  have hcr : switch { p with nread := k } CR =
      .go none { p with nread := k, state := .chunkDataDone } (.data .body false true) .next := by
    simp [switch, switchChunk, hs]
  rw [hcr]
  intro hq
  refine Leads.cons hq fun k' => ?_
  have hlf : switch { p with nread := k', state := .chunkDataDone } LF =
      .next { p with nread := 0, state := .chunkSizeStart } := by
    simp [switch, switchChunk]
  show Rest _ LF _ _ (switch { p with nread := k', state := .chunkDataDone } LF)
  rw [hlf]
  refine fun hq => Leads.nil hq ⟨rfl, ?_⟩
  exact m.more_nil

/-- The digits of a size behind the first. -/
theorem leads_digits {digits : Str} {p : HttpParser} {m : Received} (hok : p.httpErrno = .ok)
    (hs : p.state = .chunkSize) (hd : ∀ c ∈ digits, (unhex c).isSome) :
    Leads digits p m fun p' m' => p'.state = .chunkSize ∧ m' = m ∧
      p'.contentLength = digits.foldl (fun n c => n * 16 + (unhex c).getD 0) p.contentLength := by
  induction digits generalizing p with
  | nil => exact Leads.nil hok ⟨hs, rfl, rfl⟩
  | cons ch rest ih =>
    obtain ⟨v, hv⟩ := Option.isSome_iff_exists.mp (hd ch List.mem_cons_self)
    have hcr : ch ≠ CR := by
      rintro rfl
      have hnone : unhex CR = none := by decide
      rw [hnone] at hv
      cases hv
    refine Leads.cons hok fun k => ?_
    cases hacc : accumulate 16 p.contentLength v with
    | none =>
      have hstep : switch { p with nread := k } ch =
          .error { p with nread := k } .invalidContentLength := by
        simp [switch, switchChunk, hs, hcr, hv, hacc]
      rw [hstep]
      trivial
    | some t =>
      have hstep : switch { p with nread := k } ch =
          .next { p with nread := k, contentLength := t } := by
        simp [switch, switchChunk, hs, hcr, hv, hacc]
      rw [hstep]
      intro hq
      have ht : t = p.contentLength * 16 + v := by
        unfold accumulate at hacc
        split_ifs at hacc
        exact (Option.some.inj hacc).symm
      have hrest := ih (p := { p with nread := k, contentLength := t }) hq hs
        fun c hc => hd c (List.mem_cons_of_mem _ hc)
      have hfeed : reader.feed (none <|> owner p.state) [ch] m = m := by rw [hs]; rfl
      rw [hfeed, List.foldl_cons, hv, Option.getD_some, ← ht]
      exact hrest

/-- The parameters of a size, up to the carriage return. -/
theorem leads_parameters {text : Str} {p : HttpParser} {m : Received} (hok : p.httpErrno = .ok)
    (hs : p.state = .chunkParameters) (hcr : CR ∉ text) :
    Leads text p m fun p' m' => p'.state = .chunkParameters ∧ m' = m ∧
      p'.contentLength = p.contentLength := by
  induction text generalizing p with
  | nil => exact Leads.nil hok ⟨hs, rfl, rfl⟩
  | cons ch rest ih =>
    rw [List.mem_cons, not_or] at hcr
    refine Leads.cons hok fun k => ?_
    have hstep : switch { p with nread := k } ch = .next { p with nread := k } := by
      simp [switch, switchChunk, hs, Ne.symm hcr.1]
    rw [hstep]
    intro hq
    have hfeed : reader.feed (none <|> owner p.state) [ch] m = m := by rw [hs]; rfl
    rw [hfeed]
    exact ih (p := { p with nread := k }) hq hs hcr.2

/-- Behind the line with the size of a chunk. -/
def SizeRead (n : Nat) (p : HttpParser) : Prop :=
  (n = 0 ∧ p.state = .headerFieldStart ∧ p.flags.trailing = true) ∨
    (n ≠ 0 ∧ p.state = .chunkData ∧ p.contentLength = n)

/-- The end of the line. -/
theorem leads_sizeEnd {p : HttpParser} {m : Received} (hok : p.httpErrno = .ok)
    (hs : p.state = .chunkSize ∨ p.state = .chunkParameters) :
    Leads [CR, LF] p m fun p' m' => SizeRead p.contentLength p' ∧ m' = m := by
  refine Leads.cons hok fun k => ?_
  have hcr : switch { p with nread := k } CR =
      .next { p with nread := k, state := .chunkSizeAlmostDone } := by
    rcases hs with hs | hs <;> simp [switch, switchChunk, hs]
  have hfeed : reader.feed (none <|> owner p.state) [CR] m = m := by
    rcases hs with hs | hs <;> rw [hs] <;> rfl
  rw [hcr]
  intro hq
  rw [hfeed]
  refine Leads.cons hq fun k' => ?_
  show Rest _ LF _ _ (switch { p with nread := k', state := .chunkSizeAlmostDone } LF)
  by_cases hzero : p.contentLength = 0
  · have hlf : switch { p with nread := k', state := .chunkSizeAlmostDone } LF =
        .next { p with nread := 0, flags := { p.flags with trailing := true },
                       state := .headerFieldStart } := by
      simp [switch, switchChunk, hzero]
    rw [hlf]
    exact fun hq => Leads.nil hq ⟨.inl ⟨hzero, rfl, rfl⟩, rfl⟩
  · have hlf : switch { p with nread := k', state := .chunkSizeAlmostDone } LF =
        .next { p with nread := 0, state := .chunkData } := by
      simp [switch, switchChunk, hzero]
    rw [hlf]
    exact fun hq => Leads.nil hq ⟨.inr ⟨hzero, rfl, rfl⟩, rfl⟩

theorem leads_extensions {ext : Str} {p : HttpParser} {m : Received} (hok : p.httpErrno = .ok)
    (hs : p.state = .chunkSize)
    (hext : ext = [] ∨ ext.head? = some ';'.toUInt8 ∨ ext.head? = some ' '.toUInt8)
    (hcr : CR ∉ ext) :
    Leads ext p m fun p' m' => (p'.state = .chunkSize ∨ p'.state = .chunkParameters) ∧ m' = m ∧
      p'.contentLength = p.contentLength := by
  cases ext with
  | nil => exact Leads.nil hok ⟨.inl hs, rfl, rfl⟩
  | cons c rest =>
    rw [List.mem_cons, not_or] at hcr
    have hc : c = ';'.toUInt8 ∨ c = ' '.toUInt8 := by simpa using hext
    refine Leads.cons hok fun k => ?_
    have hstep : switch { p with nread := k } c =
        .next { p with nread := k, state := .chunkParameters } := by
      have hnone : unhex c = none := by rcases hc with rfl | rfl <;> decide
      simp only [switch, switchChunk, hs, Ne.symm hcr.1, if_false, hnone, hc, if_true]
    rw [hstep]
    intro hq
    have hfeed : reader.feed (none <|> owner p.state) [c] m = m := by rw [hs]; rfl
    rw [hfeed]
    have hrest := leads_parameters (p := { p with nread := k, state := .chunkParameters })
      (m := m) hq rfl hcr.2
    unfold Leads at hrest ⊢
    revert hrest
    rcases reader.run rest { p with nread := k, state := .chunkParameters } m with
      ⟨_ | used, p', m'⟩
    · exact fun h => ⟨h.1, .inr h.2.1, h.2.2⟩
    · exact id

/-- **The line with the size of a chunk.** -/
theorem leads_sizeLine {line : Str} {n : Nat} {p : HttpParser} {m : Received}
    (hok : p.httpErrno = .ok) (hs : p.state = .chunkSizeStart) (h : SizeLine line n) :
    Leads line p m fun p' m' => SizeRead n p' ∧ m' = m := by
  obtain ⟨digits, ext, rfl, hne, hdigits, rfl, hext, hcr⟩ := h
  cases digits with
  | nil => exact absurd rfl hne
  | cons d digits =>
    obtain ⟨v, hv⟩ := Option.isSome_iff_exists.mp (hdigits d List.mem_cons_self)
    refine Leads.cons hok fun k => ?_
    have hstep : switch { p with nread := k } d =
        .next { p with nread := k, contentLength := v, state := .chunkSize } := by
      simp [switch, switchChunk, hs, hv]
    rw [hstep]
    intro hq
    have hfeed : reader.feed (none <|> owner p.state) [d] m = m := by rw [hs]; rfl
    rw [hfeed]
    refine (leads_digits hq rfl fun c hc => hdigits c (List.mem_cons_of_mem _ hc)).append ?_
    rintro p₁ m₁ hok₁ ⟨hs₁, rfl, hlen₁⟩
    refine (leads_extensions hok₁ hs₁ hext hcr).append ?_
    rintro p₂ m₂ hok₂ ⟨hs₂, rfl, hlen₂⟩
    have hvalue : p₂.contentLength = hexValue (d :: digits) := by
      rw [hlen₂, hlen₁, hexValue, List.foldl_cons, hv]
      simp
    rw [← hvalue]
    exact leads_sizeEnd hok₂ hs₂

/-! ## Heads and trailers -/

theorem feed_of_ne_body {o : Option Elem} (h : o ≠ some .body) (text : Str) (m : Received) :
    reader.feed o text m = m := by
  cases o with
  | none => rfl
  | some e => exact if_neg fun he => h (congrArg some he)

theorem owner_ne_body {s : State} (h : inHead s = true) : owner s ≠ some .body := by
  revert h
  cases s <;> decide

/-- The head of the log is set once and for all. -/
theorem byte_head_ne_none {n : Nat} {ch : UInt8} {p : HttpParser} {m : Received}
    (hm : m.head ≠ none) : (reader.byte n ch p m).2.2.head ≠ none := by
  have hdeliver : ∀ e text (m : Received), (deliver e text m).head = m.head := by
    intro e text m
    unfold deliver
    split_ifs <;> rfl
  induction n generalizing p m with
  | zero => exact hm
  | succ n ih =>
    rw [Reader.byte]
    cases switch p ch with
    | error q e => exact hm
    | go mk q c after =>
      have hc : (reader.call ch q m c).1.2.head ≠ none := by
        cases c with
        | none => exact hm
        | data e w k => exact (hdeliver ..).symm ▸ hm
        | notify n => cases n <;> exact hm
        | headersComplete => exact Option.some_ne_none _
      rcases hcall : reader.call ch q m c with ⟨⟨q', m'⟩, _ | used⟩
      · rw [hcall] at hc
        simp only [hcall]
        cases after with
        | next =>
          simp only
          split_ifs
          · cases mk <|> owner p.state with
            | none => exact hc
            | some e => exact (hdeliver ..).symm ▸ hc
          · exact hc
        | again => exact ih hc
        | ret => exact hc
      · rw [hcall] at hc
        simp only [hcall]
        exact hc

theorem stepByte_head_ne_none {ch : UInt8} {p : HttpParser} {m : Received} (hm : m.head ≠ none) :
    (reader.stepByte ch p m).2.2.head ≠ none := by
  unfold Reader.stepByte
  split_ifs
  · exact hm
  · exact byte_head_ne_none hm

theorem run_head_ne_none {bytes : Str} {p : HttpParser} {m : Received} (hm : m.head ≠ none) :
    (reader.run bytes p m).2.2.head ≠ none := by
  induction bytes generalizing p m with
  | nil => exact hm
  | cons ch rest ih =>
    have hstep : (reader.stepByte ch p m).2.2.head ≠ none := stepByte_head_ne_none hm
    rw [Reader.run]
    rcases hs : reader.stepByte ch p m with ⟨_ | used, p', m'⟩
    · rw [hs] at hstep
      exact ih hstep
    · rw [hs] at hstep
      exact hstep

/-- From one place in a head, or in a trailer, to another. -/
structure Inside (p p' : HttpParser) : Prop where
  ok : p'.httpErrno = .ok
  head : inHead p'.state = true
  skipbody : p.flags.skipbody = false → p'.flags.skipbody = false
  chunks : inChunks p = true → inChunks p' = true

theorem Inside.trans {p q r : HttpParser} (h : Inside p q) (h' : Inside q r) : Inside p r :=
  ⟨h'.ok, h'.head, fun hs => h'.skipbody (h.skipbody hs), fun hc => h'.chunks (h.chunks hc)⟩

/-- The byte ends the headers; `q` is the parser at their end. -/
structure EndsHead (p q : HttpParser) (ch : UInt8) : Prop where
  lineFeed : ch = LF
  state : q.state = .headersDone
  ok : q.httpErrno = .ok
  skipbody : p.flags.skipbody = false → q.flags.skipbody = false
  noTrailer : inChunks p = false

/-- What a byte in a head or a trailer comes to: it leaves the log as it is, or it ends the
headers and goes on at their end. -/
def InHead (p : HttpParser) (ch : UInt8) (m : Received) (r : Option Nat × HttpParser × Received) :
    Prop :=
  (r.2.2 = m ∧ (r.1 = none → Inside p r.2.1)) ∨
    ∃ q k, EndsHead p q ch ∧ r = reader.byte (k + 1) ch q { m with head := some q }

theorem InHead.of_inside {p q : HttpParser} {ch : UInt8} {m : Received}
    {r : Option Nat × HttpParser × Received} (hin : Inside p q) (h : InHead q ch m r) :
    InHead p ch m r := by
  rcases h with ⟨hm, hr⟩ | ⟨q', k, hend, hr⟩
  · exact .inl ⟨hm, fun h => hin.trans (hr h)⟩
  · refine .inr ⟨q', k, ⟨hend.lineFeed, hend.state, hend.ok,
      fun h => hend.skipbody (hin.skipbody h), ?_⟩, hr⟩
    by_contra hne
    have hchunks := hin.chunks (by simpa using hne)
    rw [hend.noTrailer] at hchunks
    cases hchunks

/-- **A byte in a head or a trailer.** -/
theorem byte_inHead {n : Nat} {ch : UInt8} {p : HttpParser} (m : Received) (hok : p.httpErrno = .ok)
    (hn : rank p.state < n) (hh : inHead p.state = true) :
    InHead p ch m (reader.byte n ch p m) := by
  induction n generalizing p with
  | zero => exact absurd hn (Nat.not_lt_zero _)
  | succ n ih =>
    have hd := switch_disciplined p ch
    have hb := switch_bounded p ch
    have hstep := switch_head p ch
    have hc : inChunks p = true → ChunkStep (switch p ch) := switch_chunks ch
    rw [Reader.byte]
    cases hs : switch p ch with
    | error q e => exact .inl ⟨rfl, fun h => absurd h (Option.some_ne_none 0)⟩
    | go mk q c after =>
      rw [hs] at hd hb hstep hc
      have hq : q.httpErrno = .ok := hd.1.trans hok
      -- a callback that leaves the log as it is
      have hnext : Inside p q → mk ≠ some .body → InHead p ch m
          (none, q, if c = .none then reader.feed (mk <|> owner p.state) [ch] m else m) := by
        intro hin hmk
        have hfeed : reader.feed (mk <|> owner p.state) [ch] m = m := by
          apply feed_of_ne_body
          cases mk with
          | none => exact owner_ne_body hh
          | some e => exact hmk
        rw [hfeed, ite_self]
        exact .inl ⟨rfl, fun _ => hin⟩
      have hagain : Inside p q → after = .again → InHead p ch m (reader.byte n ch q m) := by
        intro hin hafter
        have hlt := hd.2.2.1 hafter
        exact (ih hq (by omega) hin.head).of_inside hin
      simp only [reader_call ch hq]
      cases c with
      | none =>
        obtain ⟨hmk, hhead⟩ := hstep.2 hh
        have hin : Inside p q := ⟨hq, hhead, hstep.1, fun h => (hc h).1⟩
        exact Reader.after_cases hb.2 (hnext hin hmk) (hagain hin)
      | data e w k =>
        obtain ⟨he, hhead⟩ := hstep.2 hh
        have hdeliver : ∀ text, deliver e text m = m := fun text => if_neg he
        have hmk : mk ≠ some .body := by
          rintro rfl
          exact he (Option.some.inj hd.2.2.2.1).symm
        have hin : Inside p q := ⟨hq, hhead, hstep.1, fun h => (hc h).1⟩
        simp only [hdeliver]
        exact Reader.after_cases hb.2 (hnext hin hmk) (hagain hin)
      | notify k =>
        cases k with
        | messageBegin =>
          obtain ⟨hmk, hhead⟩ := hstep.2 hh
          have hin : Inside p q := ⟨hq, hhead, hstep.1, fun h => (hc h).elim⟩
          exact Reader.after_cases hb (hnext hin hmk) (hagain hin)
        | messageComplete => exact .inl ⟨rfl, fun h => absurd h (Option.some_ne_none 1)⟩
      | headersComplete =>
        obtain ⟨hlf, hdone, -⟩ := hb
        have hagain : after = .again := hstep.2
        subst hagain
        have hlt := hd.2.2.1 rfl
        obtain ⟨k, rfl⟩ : ∃ k, n = k + 1 := ⟨n - 1, by omega⟩
        refine .inr ⟨q, k, ⟨hlf, hdone, hq, hstep.1, ?_⟩, rfl⟩
        by_contra hne
        exact hc (by simpa using hne)

theorem inside_countByte {p : HttpParser} (hok : p.httpErrno = .ok) (hh : inHead p.state = true) :
    Inside p (countByte p) := by
  obtain ⟨k, hk⟩ := countByte_eq p
  rw [hk]
  exact ⟨hok, hh, id, id⟩

/-- The same of the whole body of the loop. -/
theorem stepByte_inHead (ch : UInt8) {p : HttpParser} (m : Received) (hok : p.httpErrno = .ok)
    (hh : inHead p.state = true) : InHead p ch m (reader.stepByte ch p m) := by
  have hcount := inside_countByte hok hh
  unfold Reader.stepByte
  split_ifs
  · exact .inl ⟨rfl, nofun⟩
  · exact (byte_inHead m hcount.ok (rank_lt_passes _) hcount.head).of_inside hcount

/-- A trailer adds nothing to the body. -/
theorem comes_trailer {bytes : Str} {p : HttpParser} (m : Received) (hok : p.httpErrno = .ok)
    (hh : inHead p.state = true) (hc : inChunks p = true) : Comes bytes p m m := by
  induction bytes generalizing p with
  | nil => exact Comes.nil p m
  | cons ch rest ih =>
    have hstep := stepByte_inHead ch m hok hh
    unfold Comes
    rw [Reader.run]
    rcases hs : reader.stepByte ch p m with ⟨_ | used, p', m'⟩
    all_goals
      rw [hs] at hstep
      rcases hstep with ⟨rfl, hin⟩ | ⟨q, k, hend, -⟩
    · exact ih (hin rfl).ok (hin rfl).head ((hin rfl).chunks hc)
    · rw [hend.noTrailer] at hc
      cases hc
    · exact .inr rfl
    · rw [hend.noTrailer] at hc
      cases hc

/-- **A chunked body comes to the data of its chunks.** -/
theorem comes_chunks {bytes body : Str} (h : Chunks bytes body) {p : HttpParser} {m : Received}
    (hok : p.httpErrno = .ok) (hs : p.state = .chunkSizeStart) : Comes bytes p m (m.more body) := by
  induction h generalizing p m with
  | last hline htrailer =>
    rw [Received.more_nil]
    refine (leads_sizeLine hok hs hline).comes ?_
    rintro p' m' hok' ⟨⟨-, hstate, htrailing⟩ | ⟨hne, -⟩, rfl⟩
    · exact comes_trailer m' hok' (by rw [hstate]; rfl) (by simp [inChunks, hstate, htrailing])
    · exact absurd rfl hne
  | @more line data rest body hline hdata hrest ih =>
    refine (leads_sizeLine hok hs hline).comes ?_
    rintro p₁ m₁ hok₁ ⟨⟨hzero, -⟩ | ⟨-, hstate, hlength⟩, rfl⟩
    · exact absurd (List.length_eq_zero_iff.mp hzero) hdata
    · refine (leads_data hok₁ hstate hlength hdata).comes ?_
      rintro p₂ m₂ hok₂ ⟨hstate₂, rfl⟩
      refine (leads_dataEnd hok₂ hstate₂).comes ?_
      rintro p₃ m₃ hok₃ ⟨hstate₃, rfl⟩
      have := ih (m := m₁.more data) hok₃ hstate₃
      rwa [Received.more_more] at this

/-! ## Whole messages -/

/-- Before the end of the headers the log stays empty. -/
theorem run_inHead {bytes : Str} {p : HttpParser} {m : Received} (hok : p.httpErrno = .ok)
    (hh : inHead p.state = true) (hskip : p.flags.skipbody = false)
    (hnone : (reader.run bytes p m).2.2.head = none) :
    (reader.run bytes p m).2.2 = m ∧ ((reader.run bytes p m).1 = none →
      (reader.run bytes p m).2.1.httpErrno = .ok ∧
        inHead (reader.run bytes p m).2.1.state = true ∧
        (reader.run bytes p m).2.1.flags.skipbody = false) := by
  induction bytes generalizing p with
  | nil => exact ⟨rfl, fun _ => ⟨hok, hh, hskip⟩⟩
  | cons ch rest ih =>
    have hstep := stepByte_inHead ch m hok hh
    have hhead : (reader.stepByte ch p m).2.2.head = none := by
      by_contra hne
      rw [Reader.run] at hnone
      rcases hs : reader.stepByte ch p m with ⟨_ | used, p', m'⟩
      · rw [hs] at hne
        simp only [hs] at hnone
        exact run_head_ne_none hne hnone
      · rw [hs] at hne
        simp only [hs] at hnone
        exact hne hnone
    rw [Reader.run] at hnone ⊢
    rcases hstep with ⟨hm, hin⟩ | ⟨q, k, -, hbyte⟩
    · rcases hs : reader.stepByte ch p m with ⟨_ | used, p', m'⟩
      · rw [hs] at hm hin
        obtain rfl : m' = m := hm
        obtain ⟨hok', hh', hskip', -⟩ := hin rfl
        simp only [hs] at hnone ⊢
        obtain ⟨hlog, hrest⟩ := ih hok' hh' (hskip' hskip) hnone
        exact ⟨hlog, fun h => hrest (by simpa using h)⟩
      · rw [hs] at hm
        simp only
        exact ⟨hm, fun h => absurd h (Option.some_ne_none used)⟩
    · rw [hbyte] at hhead
      exact absurd hhead (byte_head_ne_none (Option.some_ne_none q))

/-- What the line feed behind the headers comes to. -/
def afterHead (p : HttpParser) (m : Received) : Option Nat × HttpParser × Received :=
  let q := { p with nread := 0 }
  let complete := (some 1, parserPause { q with state := newMessage q } true, m)
  if p.upgrade then complete
  else match framing p with
    | .bodiless => complete
    | .chunked => (none, { q with state := .chunkSizeStart }, m)
    | .length n => if n = 0 then complete else (none, { q with state := .bodyIdentity }, m)
    | .close => (none, { q with state := .bodyIdentityEof }, m)

/-- The step behind the headers, by the framing. -/
theorem switch_headersDone {p : HttpParser} (hs : p.state = .headersDone)
    (hskip : p.flags.skipbody = false) :
    switch p LF =
      let q := { p with nread := 0 }
      if p.upgrade then finish q .ret
      else match framing p with
        | .bodiless => finish q
        | .chunked => .next { q with state := .chunkSizeStart }
        | .length n => if n = 0 then finish q else .next { q with state := .bodyIdentity }
        | .close => .next { q with state := .bodyIdentityEof } := by
  have heof : ∀ s, messageNeedsEof { p with state := s, nread := 0 } = messageNeedsEof p :=
    fun _ => rfl
  have hswitch : switch p LF = switchHeadersEnd p LF := by simp only [switch, hs]
  have hrequest : messageNeedsEof p = true → p.type ≠ .request := by
    intro hneeds htype
    simp [messageNeedsEof, htype] at hneeds
  rw [hswitch, switchHeadersEnd, hs]
  simp only [hskip, heof, framing, ne_eq, not_true_eq_false, if_false, Bool.false_eq_true]
  by_cases hchunked : p.flags.chunked = true
  · simp only [hchunked, if_true]
  rw [if_neg hchunked, if_neg hchunked]
  by_cases hzero : p.contentLength = 0
  · have hmax : ¬ (0 : Nat) = ULLONG_MAX := by decide
    simp only [hzero, hmax, not_false_eq_true, if_true]
  rw [if_neg hzero]
  by_cases hlen : p.contentLength = ULLONG_MAX
  · rw [if_neg (not_not.mpr hlen), if_neg (not_not.mpr hlen)]
    cases hneeds : messageNeedsEof p with
    | true => simp [hrequest hneeds]
    | false => simp
  · simp only [hlen, hzero, not_false_eq_true, if_true, if_false]

theorem byte_finish {k : Nat} {ch : UInt8} {p q : HttpParser} {after : After} (m : Received)
    (hstep : switch p ch = finish q after) (hok : q.httpErrno = .ok) :
    reader.byte (k + 1) ch p m =
      (some 1, parserPause { q with state := newMessage q } true, m) := by
  rw [Reader.byte, hstep]
  simp only [finish, reader_call ch (show { q with state := newMessage q }.httpErrno = .ok from hok)]

theorem byte_next {k : Nat} {ch : UInt8} {p q : HttpParser} (m : Received)
    (hstep : switch p ch = .next q) (howner : owner p.state = none) :
    reader.byte (k + 1) ch p m = (none, q, m) := by
  rw [Reader.byte, hstep]
  simp [Step.next, Reader.call, howner, Reader.feed]

theorem byte_headersDone {k : Nat} {p : HttpParser} (m : Received) (hs : p.state = .headersDone)
    (hok : p.httpErrno = .ok) (hskip : p.flags.skipbody = false) :
    reader.byte (k + 1) LF p m = afterHead p m := by
  have hstep := switch_headersDone hs hskip
  have howner : owner p.state = none := by rw [hs]; rfl
  unfold afterHead
  simp only at hstep ⊢
  by_cases hup : p.upgrade = true
  · rw [if_pos hup] at hstep ⊢
    exact byte_finish m hstep hok
  rw [if_neg hup] at hstep ⊢
  cases hf : framing p with
  | bodiless =>
    rw [hf] at hstep
    exact byte_finish m hstep hok
  | chunked =>
    rw [hf] at hstep
    exact byte_next m hstep howner
  | length n =>
    rw [hf] at hstep
    simp only at hstep ⊢
    by_cases hn : n = 0
    · rw [if_pos hn] at hstep ⊢
      exact byte_finish m hstep hok
    · rw [if_neg hn] at hstep ⊢
      exact byte_next m hstep howner
  | close =>
    rw [hf] at hstep
    exact byte_next m hstep howner

theorem afterHead_eq {p : HttpParser} (hup : ¬ p.upgrade = true) (m : Received) :
    afterHead p m =
      let q := { p with nread := 0 }
      let complete := (some 1, parserPause { q with state := newMessage q } true, m)
      match framing p with
      | .bodiless => complete
      | .chunked => (none, { q with state := .chunkSizeStart }, m)
      | .length n => if n = 0 then complete else (none, { q with state := .bodyIdentity }, m)
      | .close => (none, { q with state := .bodyIdentityEof }, m) := if_neg hup

theorem framing_length {p : HttpParser} {n : Nat} (h : framing p = .length n) :
    p.contentLength = n := by
  unfold framing at h
  split_ifs at h
  exact Framing.length.inj h

theorem afterHead_log (p : HttpParser) (m : Received) : (afterHead p m).2.2 = m := by
  unfold afterHead
  simp only
  split
  · rfl
  · split
    · rfl
    · rfl
    · split_ifs <;> rfl
    · rfl

/-- Behind a head: the line feed is what the end of the headers makes of it. -/
theorem Head.reached {head : Str} {p : HttpParser} (h : Head head p) :
    p.httpErrno = .ok ∧ ∃ pre q, head = pre ++ [LF] ∧
      reader.run pre (init .response) .start = (none, q, .start) ∧
      reader.stepByte LF q .start = afterHead p ⟨some p, []⟩ := by
  obtain ⟨pre, rfl, hnone, hsome⟩ := h
  have hok : (init .response).httpErrno = .ok := rfl
  have hhead : inHead (init .response).state = true := rfl
  have hskip : (init .response).flags.skipbody = false := rfl
  obtain ⟨hlog, hgoes⟩ := run_inHead hok hhead hskip hnone
  rw [Reader.run_append] at hsome
  rcases hr : reader.run pre (init .response) .start with ⟨_ | used, q, m⟩
  · rw [hr] at hlog hgoes hsome
    obtain rfl : m = .start := hlog
    obtain ⟨hok', hhead', hskip'⟩ := hgoes rfl
    have hone : (reader.stepByte LF q .start).2.2.head = some p := by
      simp only [Reader.run] at hsome
      rcases hs : reader.stepByte LF q .start with ⟨_ | used, q', m'⟩
      · simpa [hs] using hsome
      · simpa [hs] using hsome
    rcases stepByte_inHead LF .start hok' hhead' with ⟨hsame, -⟩ | ⟨q', k, hend, hbyte⟩
    · rw [hsame] at hone
      cases hone
    · rw [byte_headersDone _ hend.state hend.ok (hend.skipbody hskip')] at hbyte
      rw [hbyte, afterHead_log] at hone
      obtain rfl : q' = p := Option.some.inj hone
      exact ⟨hend.ok, pre, q, rfl, hr, hbyte⟩
  · rw [hr] at hnone hsome
    rw [hnone] at hsome
    cases hsome

/-- The bytes behind a head that does not complete the message. -/
theorem Head.comes {head rest : Str} {p p' : HttpParser} {n : Received} (h : Head head p)
    (hafter : afterHead p ⟨some p, []⟩ = (none, p', ⟨some p, []⟩))
    (hrest : Comes rest p' ⟨some p, []⟩ n) : Comes (head ++ rest) (init .response) .start n := by
  obtain ⟨-, pre, q, rfl, hpre, hstep⟩ := h.reached
  have hrun : reader.run (pre ++ [LF]) (init .response) .start =
      (none, p', ⟨some p, []⟩) := by
    rw [Reader.run_append, hpre]
    simp only [Reader.run, hstep, hafter, Option.map_none]
  unfold Comes at hrest ⊢
  rw [Reader.run_append, hrun]
  exact hrest

/-- A head that completes the message. -/
theorem Head.completes {head rest : Str} {p p' : HttpParser} {k : Nat} (h : Head head p)
    (hafter : afterHead p ⟨some p, []⟩ = (some k, p', ⟨some p, []⟩)) :
    Comes (head ++ rest) (init .response) .start ⟨some p, []⟩ := by
  obtain ⟨-, pre, q, rfl, hpre, hstep⟩ := h.reached
  have hrun : reader.run (pre ++ [LF]) (init .response) .start =
      (some (k + pre.length), p', ⟨some p, []⟩) := by
    rw [Reader.run_append, hpre]
    simp only [Reader.run, hstep, hafter, Option.map_some]
  exact Comes.stopped hrun

/-- **A complete message comes to its body**, or to none if its head has an upgrade. -/
theorem Message.comes {p : HttpParser} {s body : Str} (h : Message p s body) :
    Comes s (init .response) .start ⟨some p, if p.upgrade then [] else body⟩ := by
  by_cases hup : p.upgrade = true
  · have hafter : ∃ k p', afterHead p ⟨some p, []⟩ = (some k, p', ⟨some p, []⟩) := by
      simp only [afterHead, hup, if_true]
      exact ⟨_, _, rfl⟩
    obtain ⟨k, p', hafter⟩ := hafter
    rw [if_pos hup]
    cases h with
    | bodiless hhead hf => exact hhead.completes hafter
    | length hhead hf hn => exact hhead.completes hafter
    | chunked hhead hf hbody => exact hhead.completes hafter
    | close hhead hf => exact hhead.completes hafter
  · rw [if_neg hup]
    cases h with
    | bodiless hhead hf =>
      have hafter := afterHead_eq hup ⟨some p, []⟩
      rw [hf] at hafter
      exact hhead.completes hafter
    | @length head rest n hhead hf hn =>
      have hafter := afterHead_eq hup ⟨some p, []⟩
      rw [hf] at hafter
      simp only at hafter
      by_cases hzero : n = 0
      · rw [if_pos hzero] at hafter
        rw [hzero, List.take_zero]
        exact hhead.completes hafter
      · rw [if_neg hzero] at hafter
        have hlength := framing_length hf
        have hbody : Comes rest { p with nread := 0, state := .bodyIdentity } ⟨some p, []⟩
            (Received.more ⟨some p, []⟩ (rest.take p.contentLength)) := comes_identity
          hhead.reached.1 rfl (by rw [hlength]; exact hzero) (by rw [hlength]; exact hn)
        rw [← hlength]
        exact hhead.comes hafter hbody
    | @chunked head rest body hhead hf hbody =>
      have hafter := afterHead_eq hup ⟨some p, []⟩
      rw [hf] at hafter
      exact hhead.comes hafter (comes_chunks hbody hhead.reached.1 rfl)
    | @close head rest hhead hf =>
      have hafter := afterHead_eq hup ⟨some p, []⟩
      rw [hf] at hafter
      exact hhead.comes hafter (comes_identityEof hhead.reached.1 rfl)

/-! ## The response -/

/-- `readResponse` throws where the parser rejects the stream, and else it returns the body so far. -/
theorem readResponse_run (junk : Bool) (d : Delivery) :
    (Rejected d.stream → readResponse junk d = .error invalidResponse) ∧
      (¬ Rejected d.stream → ∃ resp, readResponse junk d = .ok resp ∧
        resp.content = (reader.run d.stream (init .response) .start).2.2.body) := by
  obtain ⟨herror, hok⟩ := readLoop_run (at_new junk) d.reads d.filled d.last
  have hforget := Received.reader_forgets.run d.stream (init .response) (.start junk)
  have hstart : Received.ofLog (.start junk) = .start := rfl
  rw [hstart] at hforget
  unfold Rejected readResponse
  rw [hforget]
  refine ⟨fun he => ?_, fun he => ?_⟩
  · rw [herror he]
    rfl
  · obtain ⟨rp, hrp, hbody⟩ := hok he
    rw [hrp]
    exact ⟨_, rfl, hbody⟩

/-- **When no truncated response is returned.**  A stream, in whatever reads it comes, is answered
with the body of a complete message or with an error if and only if the parser rejects it, or it
holds a complete message, which has no body where its head has an upgrade. -/
theorem untruncated_iff (junk : Bool) (d : Delivery) :
    Untruncated junk d ↔
      Rejected d.stream ∨ ∃ p body, Message p d.stream body ∧ (p.upgrade = true → body = []) := by
  obtain ⟨herror, hok⟩ := readResponse_run junk d
  by_cases hrej : Rejected d.stream
  · have hthrow := herror hrej
    refine iff_of_true ⟨fun resp h => ?_, fun e h => ?_⟩ (.inl hrej)
    · rw [hthrow] at h
      cases h
    · rw [hthrow] at h
      exact (Except.error.inj h).symm
  · obtain ⟨resp, hresp, hcontent⟩ := hok hrej
    -- what a complete message says of the content
    have hmessage : ∀ p body, Message p d.stream body →
        resp.content = if p.upgrade then [] else body := by
      intro p body hm
      have hlog := hm.comes.resolve_left hrej
      rw [hcontent, hlog]
    constructor
    · intro h
      obtain ⟨p, hm⟩ := h.returned resp hresp
      refine .inr ⟨p, resp.content, hm, fun hup => ?_⟩
      rw [hmessage p _ hm, if_pos hup]
    · intro h
      obtain ⟨p, body, hm, hup⟩ := h.resolve_left hrej
      refine ⟨fun resp' h' => ?_, fun e h' => ?_⟩
      · rw [hresp] at h'
        obtain rfl := Except.ok.inj h'
        refine ⟨p, ?_⟩
        rw [hmessage p body hm]
        split_ifs with hcase
        · rwa [hup hcase] at hm
        · exact hm
      · rw [hresp] at h'
        cases h'

/-- The connection closes behind two of five bytes. -/
def cutDelivery : Delivery where
  reads := []
  filled := nofun
  last := str "HTTP/1.1 200 OK\r\nContent-Length: 5\r\n\r\nab"

theorem cutDelivery_returned : ¬ Untruncated false cutDelivery := by
  intro h
  have hrej : ¬ Rejected cutDelivery.stream := by
    unfold Rejected
    decide +kernel
  have hbody : (reader.run cutDelivery.stream (init .response) .start).2.2.body = str "ab" := by
    decide +kernel
  have hhead : (reader.run cutDelivery.stream (init .response) .start).2.2.head.map framing =
      some (.length 5) := by
    decide +kernel
  obtain ⟨resp, hresp, hcontent⟩ := (readResponse_run false cutDelivery).2 hrej
  obtain ⟨p, hm⟩ := h.returned resp hresp
  rw [hcontent, hbody] at hm
  have hframing : framing p = .length 5 := by
    rw [hm.comes.resolve_left hrej] at hhead
    exact Option.some.inj hhead
  have hlen : (str "ab").length = 2 := by decide
  generalize str "ab" = ab at hm hlen
  generalize cutDelivery.stream = s at hm
  cases hm with
  | bodiless hh hf => simp [hframing] at hf
  | length hh hf hn =>
    rw [hframing] at hf
    obtain rfl := Framing.length.inj hf
    rw [List.length_take] at hlen
    omega
  | chunked hh hf hb => simp [hframing] at hf
  | close hh hf => simp [hframing] at hf

end Wsrv.ClientResponse
