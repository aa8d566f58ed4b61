import Wsrv.HttpElements
import Wsrv.RequestParser

/-!
# Reading a request byte by byte

`Reading` is the state of a reader that takes the bytes of a request one at a
time and knows nothing of the reads they came in.  It sees the byte that ends
the headers again, after the pause, as `parse` does.

`parse_reading` is the refinement: a call of `parse` is the reader on the bytes
of the call, for all that it collects except the target.
-/

namespace Wsrv

open Http

/-! ## What is collected -/

/-- What the callbacks collect, without the target: the headers are in the order they come in. -/
structure MessageLog where
  headers : List (Str × Str)
  field : Str
  value : Str
  body : Str
  protocol : Str
  isComplete : Bool

namespace MessageLog

def flush (m : MessageLog) : MessageLog :=
  if m.value = [] then m
  else { m with headers := m.headers ++ [(m.field, m.value)], field := [], value := [] }

def deliver (e : Elem) (text : Str) (m : MessageLog) : MessageLog :=
  match e with
  | .url | .status => m
  | .headerField => { m.flush with field := m.flush.field ++ text }
  | .headerValue => { m with value := m.value ++ text }
  | .body => { m with body := m.body ++ text }

def headersEnd (p : HttpParser) (m : MessageLog) : MessageLog :=
  { m.flush with
    protocol := str "HTTP/" ++ toString p.httpMajor ++ str "." ++ toString p.httpMinor }

def reader : Reader MessageLog where
  deliver := deliver
  notify n _ m := match n with
    | .messageBegin => ⟨0, false, { m with isComplete := false }⟩
    | .messageComplete => ⟨0, true, { m with isComplete := true }⟩
  headersComplete p m := ⟨0, true, m.headersEnd p⟩

theorem flush_value (m : MessageLog) : m.flush.value = [] := by
  unfold flush
  split_ifs with h
  · exact h
  · rfl

theorem flush_of_value {m : MessageLog} (h : m.value = []) : m.flush = m := if_pos h

theorem reader_additive : reader.Additive where
  append e a b m := by
    cases e with
    | url | status => rfl
    | headerField =>
      have hflush : ({ m.flush with field := m.flush.field ++ a } : MessageLog).flush =
          { m.flush with field := m.flush.field ++ a } := flush_of_value m.flush_value
      simp only [reader, deliver, hflush, List.append_assoc]
    | headerValue | body => simp only [reader, deliver, List.append_assoc]
  body_nil m := by simp only [reader, deliver, List.append_nil]

/-- The fields of the parser that hold this, and no target. -/
def fields (m : MessageLog) : RequestFields :=
  { currentHeaderField := m.field, currentHeaderValue := m.value, url := [], body := m.body
    protocol := m.protocol, headers := m.headers.foldl (fun d hdr => d.insert hdr.1 hdr.2) ∅
    isComplete := m.isComplete }

theorem fields_flush (m : MessageLog) : m.flush.fields = m.fields.flushHeader := by
  unfold flush RequestFields.flushHeader
  split_ifs with h h' h'
  · rfl
  · exact absurd h h'
  · exact absurd h' h
  · simp only [fields, List.foldl_append, List.foldl_cons, List.foldl_nil]

end MessageLog

/-- The fields of the parser but the target. -/
def RequestFields.eraseUrl (rp : RequestFields) : RequestFields := { rp with url := [] }

namespace RequestParser

/-- The callbacks on the fields but the target. -/
def fieldsReader : Reader RequestFields where
  deliver e text rp := match e with
    | .url | .status => rp
    | .headerField => rp.onHeaderField text
    | .headerValue => rp.onHeaderValue text
    | .body => rp.onBody text
  notify n _ rp := match n with
    | .messageBegin => ⟨0, false, rp.onMessageBegin⟩
    | .messageComplete => ⟨0, true, rp.onMessageComplete⟩
  headersComplete p rp := ⟨0, true, rp.onHeadersComplete p⟩

theorem flushHeader_flushHeader (rp : RequestFields) (a : Str) :
    ({ rp.flushHeader with currentHeaderField := a } : RequestFields).flushHeader =
      { rp.flushHeader with currentHeaderField := a } := by
  have hvalue : rp.flushHeader.currentHeaderValue = [] := by
    unfold RequestFields.flushHeader
    split_ifs with h
    · exact h
    · rfl
  exact if_pos hvalue

theorem fieldsReader_additive : fieldsReader.Additive where
  append e a b rp := by
    cases e with
    | url | status => rfl
    | headerField =>
      simp only [fieldsReader, RequestFields.onHeaderField, flushHeader_flushHeader,
        List.append_assoc]
    | headerValue | body =>
      simp only [fieldsReader, RequestFields.onHeaderValue, RequestFields.onBody, List.append_assoc]
  body_nil rp := by simp only [fieldsReader, RequestFields.onBody, List.append_nil]

theorem eraseUrl_flushHeader (rp : RequestFields) :
    rp.flushHeader.eraseUrl = rp.eraseUrl.flushHeader := by
  unfold RequestFields.flushHeader RequestFields.eraseUrl
  split_ifs <;> rfl

theorem settings_reads : Reads settings fieldsReader RequestFields.eraseUrl where
  data e p text rp := by
    cases e with
    | url | status => rfl
    | headerField =>
      simp only [Settings.data, settings, Reply.map, Reply.skip, fieldsReader,
        RequestFields.onHeaderField, ← eraseUrl_flushHeader]
      rfl
    | headerValue | body => rfl
  notify n p rp := by cases n <;> rfl
  headersComplete p rp := by
    simp only [Settings.headersComplete, settings, Reply.map, fieldsReader,
      RequestFields.onHeadersComplete, ← eraseUrl_flushHeader]
    rfl

theorem reader_forgets : MessageLog.reader.Forgets fieldsReader MessageLog.fields where
  deliver e text m := by
    cases e with
    | url | status => rfl
    | headerField =>
      simp only [fieldsReader, MessageLog.reader, MessageLog.deliver, RequestFields.onHeaderField,
        ← MessageLog.fields_flush]
      rfl
    | headerValue | body => rfl
  notify n p m := by cases n <;> rfl
  headersComplete p m := by
    simp only [fieldsReader, MessageLog.reader, MessageLog.headersEnd, Reply.map,
      RequestFields.onHeadersComplete, ← MessageLog.fields_flush]
    rfl

/-! ## The reader of single bytes -/

/-- How far a request has been read; `seen` says that its headers are behind. -/
inductive Reading
  | going (seen : Bool) (p : HttpParser) (m : MessageLog)
  | complete (p : HttpParser) (m : MessageLog)
  | failed

namespace Reading

open MessageLog

/-- The byte that ends the headers, after the pause. -/
def resume (r : Option Nat × HttpParser × MessageLog) : Reading :=
  match r with
  | (none, p, m) => .going true p m
  | (some _, p, m) => if p.httpErrno = .paused ∧ m.isComplete then .complete p m else .failed

/-- What becomes of the rest of the bytes where the reader has stopped before them. -/
def stopped (seen : Bool) (p : HttpParser) (m : MessageLog) (rest : Str) : Reading :=
  if p.httpErrno ≠ .paused then .failed
  else if m.isComplete then .complete p m
  else if seen then .failed
  else resume (reader.run rest (parserPause p false) m)

def byte (r : Reading) (ch : UInt8) : Reading :=
  match r with
  | .going seen p m =>
    match reader.stepByte ch p m with
    | (none, p, m) => .going seen p m
    | (some _, p, m) => stopped seen p m [ch]
  | r => r

def text (r : Reading) (bytes : Str) : Reading := bytes.foldl byte r

theorem text_append (r : Reading) (a b : Str) : r.text (a ++ b) = (r.text a).text b :=
  List.foldl_append

@[simp] theorem text_complete (p : HttpParser) (m : MessageLog) (bytes : Str) :
    text (.complete p m) bytes = .complete p m := by
  induction bytes with
  | nil => rfl
  | cons ch rest ih => exact ih

@[simp] theorem text_failed (bytes : Str) : text .failed bytes = .failed := by
  induction bytes with
  | nil => rfl
  | cons ch rest ih => exact ih

/-- `parse` would return `HTTP_PARSER_OK`. -/
def ok : Reading → Bool
  | .going _ _ m => m.isComplete
  | .complete _ _ => true
  | .failed => false

/-! ## Its stops -/

theorem deliver_isComplete (e : Elem) (text : Str) (m : MessageLog) :
    (deliver e text m).isComplete = m.isComplete := by
  cases e with
  | headerField =>
    simp only [deliver, flush]
    split_ifs <;> rfl
  | url | status | headerValue | body => rfl

/-- A callback pauses the parser at the end of the headers, before the byte, or at the end of the
message. -/
theorem reader_call (ch : UInt8) {p : HttpParser} (hok : p.httpErrno = .ok) (m : MessageLog)
    (c : Call) :
    let r := reader.call ch p m c
    (r.2 = none → r.1.1 = p ∧ (m.isComplete = false → r.1.2.isComplete = false)) ∧
      ∀ k, r.2 = some k → r.1.1.httpErrno = .paused ∧ r.1.1.state = p.state ∧ c ≠ .none ∧
        (k = 0 ∨ r.1.2.isComplete = true) := by
  have haccepts : reader.Accepts := ⟨fun n p m => by cases n <;> rfl, fun p m => rfl⟩
  have hpaused := parserPause_ok hok
  have hstate := parserPause_state p true
  simp only [haccepts.call_eq ch hok]
  cases c with
  | none => exact ⟨fun _ => ⟨rfl, id⟩, fun k hk => absurd hk (Option.some_ne_none k).symm⟩
  | data e w c =>
    exact ⟨fun _ => ⟨rfl, fun h => (deliver_isComplete e _ m).trans h⟩,
      fun k hk => absurd hk (Option.some_ne_none k).symm⟩
  | notify n =>
    cases n with
    | messageBegin =>
      exact ⟨fun _ => ⟨rfl, fun _ => rfl⟩, fun k hk => absurd hk (Option.some_ne_none k).symm⟩
    | messageComplete =>
      refine ⟨fun h => absurd h (Option.some_ne_none 1), fun k hk => ?_⟩
      exact ⟨hpaused, hstate, Call.noConfusion, .inr rfl⟩
  | headersComplete =>
    refine ⟨fun h => absurd h (Option.some_ne_none 0), fun k hk => ?_⟩
    exact ⟨hpaused, hstate, Call.noConfusion, .inl (Option.some.inj hk).symm⟩

/-- So does a byte; and without a pause the message is not complete. -/
theorem reader_byte {n : Nat} {ch : UInt8} {p p' : HttpParser} {m m' : MessageLog} {r : Option Nat}
    (h : reader.byte n ch p m = (r, p', m')) (hok : p.httpErrno = .ok) :
    (p'.httpErrno ≠ .paused → m.isComplete = false → m'.isComplete = false) ∧
      ∀ k, r = some k → p'.httpErrno = .paused →
        owner p'.state = none ∧ (k = 0 ∨ m'.isComplete = true) := by
  induction n generalizing p m with
  | zero =>
    cases h
    exact ⟨fun _ hm => hm, fun k hk hp => Errno.noConfusion hp⟩
  | succ n ih =>
    have hd := switch_disciplined p ch
    rw [Reader.byte] at h
    cases hs : switch p ch with
    | error q e =>
      rw [hs] at h hd
      cases h
      exact ⟨fun _ hm => hm, fun k hk hp => absurd hp hd.2⟩
    | go mk q c after =>
      rw [hs] at h hd
      have hq : q.httpErrno = .ok := hd.1.trans hok
      obtain ⟨hgoes, hstops⟩ := reader_call ch hq m c
      simp only at h
      rcases hc : reader.call ch q m c with ⟨⟨q', m₁⟩, _ | used⟩
      · rw [hc] at h hgoes
        obtain ⟨rfl, hm₁⟩ := hgoes rfl
        cases after with
        | next =>
          cases h
          refine ⟨fun _ hm => ?_, fun k hk => absurd hk (Option.some_ne_none k).symm⟩
          split_ifs
          · cases mk <|> owner p.state with
            | none => exact hm₁ hm
            | some e => exact (deliver_isComplete e _ _).trans (hm₁ hm)
          · exact hm₁ hm
        | again =>
          obtain ⟨h1, h2⟩ := ih h hq
          exact ⟨fun hp hm => h1 hp (hm₁ hm), h2⟩
        | ret =>
          cases h
          refine ⟨fun _ hm => hm₁ hm, fun k _ hp => ?_⟩
          rw [hq] at hp
          cases hp
      · rw [hc] at h hstops
        obtain ⟨hpaused, hstate, hne, hk⟩ := hstops used rfl
        cases h
        refine ⟨fun hp => absurd hpaused hp, fun k hk' _ => ⟨?_, Option.some.inj hk' ▸ hk⟩⟩
        rw [hstate]
        cases c with
        | none => exact absurd rfl hne
        | data e w c => exact hd.2.2.2.2.1
        | notify n => exact hd.2.2.2.2.2
        | headersComplete => exact hd.2.2.2.2.2

theorem countByte_errno (p : HttpParser) : (countByte p).httpErrno = p.httpErrno := by
  unfold countByte
  split_ifs <;> rfl

theorem reader_stepByte {ch : UInt8} {p p' : HttpParser} {m m' : MessageLog} {r : Option Nat}
    (h : reader.stepByte ch p m = (r, p', m')) (hok : p.httpErrno = .ok) :
    (p'.httpErrno ≠ .paused → m.isComplete = false → m'.isComplete = false) ∧
      ∀ k, r = some k → p'.httpErrno = .paused →
        owner p'.state = none ∧ (k = 0 ∨ m'.isComplete = true) := by
  unfold Reader.stepByte at h
  split at h
  · cases h
    exact ⟨fun _ hm => hm, fun k _ hp => nomatch hp⟩
  · exact reader_byte h ((countByte_errno p).trans hok)

/-- Without a pause the message is not complete. -/
theorem run_incomplete {bytes : Str} {p p' : HttpParser} {m m' : MessageLog} {r : Option Nat}
    (h : reader.run bytes p m = (r, p', m')) (hok : p.httpErrno = .ok) (hs : reader.Settled p m)
    (hp : p'.httpErrno ≠ .paused) (hm : m.isComplete = false) : m'.isComplete = false := by
  induction bytes generalizing p m r with
  | nil =>
    cases h
    exact hm
  | cons ch rest ih =>
    rw [Reader.run] at h
    rcases hstep : reader.stepByte ch p m with ⟨_ | k, q, m₁⟩
    · have hone : reader.run [ch] p m = (none, q, m₁) := by simp [Reader.run, hstep]
      obtain ⟨hq, hsq⟩ := Reader.run_settled reader_additive hone hok hs
      have hm₁ := (reader_stepByte hstep hok).1 (by rw [hq]; decide) hm
      rw [hstep] at h
      rcases hrest : reader.run rest q m₁ with ⟨r', q', m₂⟩
      simp only [hrest] at h
      cases h
      exact ih hrest hq hsq hm₁
    · rw [hstep] at h
      cases h
      exact (reader_stepByte hstep hok).1 hp hm

/-- The first byte of a message begins it, or is refused; line breaks before it are skipped. -/
theorem stepByte_start {ch : UInt8} {p p' : HttpParser} {m m' : MessageLog} {r : Option Nat}
    (h : reader.stepByte ch p m = (r, p', m')) (hok : p.httpErrno = .ok)
    (hstart : p.state = .startReq) :
    m'.isComplete = false ∨ r = none ∧ p'.state = .startReq ∨ r = some 0 := by
  unfold Reader.stepByte at h
  split at h
  · cases h
    exact .inr (.inr rfl)
  · have hcount : (countByte p).state = .startReq := (countByte_state p).trans hstart
    have herr : (countByte p).httpErrno = .ok := (countByte_errno p).trans hok
    rw [passes, Reader.byte] at h
    simp only [switch, switchRequestTarget, hcount] at h
    split_ifs at h
    · cases h
      exact .inr (.inl ⟨rfl, hcount⟩)
    · cases h
      exact .inr (.inr rfl)
    · cases hf : firstMethod ch with
      | none =>
        rw [hf] at h
        cases h
        exact .inr (.inr rfl)
      | some method =>
        rw [hf] at h
        simp only [Reader.call, reader, Reply.settle, checkErrno, herr, ne_eq, not_true_eq_false,
          if_false, Bool.false_eq_true] at h
        cases h
        exact .inl rfl

/-- A message that has not been read to its end is not complete, or has not begun. -/
theorem run_start {bytes : Str} {p p' : HttpParser} {m m' : MessageLog} {r : Option Nat}
    (h : reader.run bytes p m = (r, p', m')) (hok : p.httpErrno = .ok)
    (hstart : p.state = .startReq) (hp : p'.httpErrno ≠ .paused) :
    m'.isComplete = false ∨ r = none ∨ ∃ k < bytes.length, r = some k := by
  induction bytes generalizing p m r with
  | nil =>
    cases h
    exact .inr (.inl rfl)
  | cons ch rest ih =>
    rw [Reader.run] at h
    rcases hstep : reader.stepByte ch p m with ⟨_ | k, q, m₁⟩
    · have hone : reader.run [ch] p m = (none, q, m₁) := by simp [Reader.run, hstep]
      obtain ⟨hq, hsq⟩ := Reader.run_settled reader_additive hone hok
        (Reader.settled_between (by rw [hstart]; rfl))
      rw [hstep] at h
      rcases hrest : reader.run rest q m₁ with ⟨r', q', m₂⟩
      simp only [hrest] at h
      cases h
      rcases stepByte_start hstep hok hstart with hm₁ | ⟨-, hstart'⟩ | hr
      · exact .inl (run_incomplete hrest hq hsq hp hm₁)
      · rcases ih hrest hq hstart' with hm₂ | rfl | ⟨k, hk, rfl⟩
        · exact .inl hm₂
        · exact .inr (.inl rfl)
        · exact .inr (.inr ⟨k + 1, by simpa using hk, rfl⟩)
      · cases hr
    · rw [hstep] at h
      cases h
      rcases stepByte_start hstep hok hstart with hm₁ | ⟨hr, -⟩ | hr
      · exact .inl hm₁
      · cases hr
      · exact .inr (.inr ⟨0, by simp, hr⟩)

/-- The pause at the end of the headers comes before a byte. -/
theorem run_paused {bytes : Str} {p p' : HttpParser} {m m' : MessageLog} {k : Nat}
    (h : reader.run bytes p m = (some k, p', m')) (hok : p.httpErrno = .ok)
    (hs : reader.Settled p m) (hp : p'.httpErrno = .paused) (hm : m'.isComplete = false) :
    k < bytes.length ∧ owner p'.state = none := by
  induction bytes generalizing p m k with
  | nil => cases h
  | cons ch rest ih =>
    rw [Reader.run] at h
    rcases hstep : reader.stepByte ch p m with ⟨_ | j, q, m₁⟩
    · have hone : reader.run [ch] p m = (none, q, m₁) := by simp [Reader.run, hstep]
      obtain ⟨hq, hsq⟩ := Reader.run_settled reader_additive hone hok hs
      rw [hstep] at h
      rcases hrest : reader.run rest q m₁ with ⟨_ | j, q', m₂⟩
      · simp only [hrest] at h
        cases h
      · simp only [hrest] at h
        cases h
        obtain ⟨hj, ho⟩ := ih hrest hq hsq
        exact ⟨by simpa using hj, ho⟩
    · rw [hstep] at h
      cases h
      obtain ⟨ho, hj⟩ := (reader_stepByte hstep hok).2 k rfl hp
      obtain rfl := hj.resolve_right (by simp [hm])
      exact ⟨by simp, ho⟩

/-! ## The reader and the runs of the parser -/

/-- Behind the headers the reader is one run of the parser. -/
theorem text_seen (bytes : Str) (p : HttpParser) (m : MessageLog) :
    text (.going true p m) bytes = resume (reader.run bytes p m) := by
  induction bytes generalizing p m with
  | nil => rfl
  | cons ch rest ih =>
    rw [Reader.run, text, List.foldl_cons, ← text, byte]
    rcases reader.stepByte ch p m with ⟨_ | k, p', m'⟩
    · simp only [ih p' m']
      rcases reader.run rest p' m' with ⟨_ | k, q, m₁⟩ <;> rfl
    · simp only [stopped, resume]
      by_cases hp : p'.httpErrno = .paused
      · by_cases hc : m'.isComplete = true <;> simp [hp, hc]
      · simp [hp]

theorem resume_text (a b : Str) (p : HttpParser) (m : MessageLog) :
    (resume (reader.run a p m)).text b = resume (reader.run (a ++ b) p m) := by
  rw [← text_seen, ← text_seen, text_append]

/-- Before that it is a run and, from where the run pauses at the end of the headers, another. -/
theorem text_first (bytes : Str) {p : HttpParser} {m : MessageLog} (hok : p.httpErrno = .ok)
    (hs : reader.Settled p m) :
    text (.going false p m) bytes =
      match reader.run bytes p m with
      | (none, p', m') => .going false p' m'
      | (some k, p', m') => stopped false p' m' (bytes.drop k) := by
  induction bytes generalizing p m with
  | nil => rfl
  | cons ch rest ih =>
    rw [Reader.run, text, List.foldl_cons, ← text, byte]
    rcases hstep : reader.stepByte ch p m with ⟨_ | k, p', m'⟩
    · have hone : reader.run [ch] p m = (none, p', m') := by simp [Reader.run, hstep]
      obtain ⟨hq, hsq⟩ := Reader.run_settled reader_additive hone hok hs
      simp only [ih hq hsq]
      rcases reader.run rest p' m' with ⟨_ | k, q, m₁⟩ <;> rfl
    · simp only
      by_cases hp : p'.httpErrno = .paused
      · by_cases hc : m'.isComplete = true
        · simp [stopped, hp, hc]
        · have hk : k = 0 := ((reader_stepByte hstep hok).2 k rfl hp).2.resolve_right hc
          simp only [stopped, hp, hc, hk, ne_eq, not_true_eq_false, if_false, Bool.false_eq_true,
            List.drop_zero, resume_text, List.singleton_append]
      · simp [stopped, hp]

/-! ## `parse` -/

/-- The request parser has come as far as the reader. -/
def At (rp : RequestParser) : Reading → Prop
  | .going _ p m => rp.parser = p ∧ rp.fields.eraseUrl = m.fields ∧ p.httpErrno = .ok ∧
      reader.Settled p m
  | .complete p m => rp.parser.method = p.method ∧ rp.fields.eraseUrl = m.fields
  | .failed => False

/-- One run of the parser on the bytes of a read. -/
theorem execute_reader {p : HttpParser} {u : RequestFields} {m : MessageLog} {data : Str}
    (hok : p.httpErrno = .ok) (hne : data ≠ []) (hs : reader.Settled p m)
    (hu : u.eraseUrl = m.fields) :
    let r := execute settings p u data
    let s := reader.run data p m
    r.1 = s.1.getD data.length ∧ r.2.1 = s.2.1 ∧ r.2.2.isComplete = s.2.2.isComplete ∧
      (r.2.1.httpErrno = .ok ∨ r.2.1.httpErrno = .paused → r.2.2.eraseUrl = s.2.2.fields) := by
  have hs' : fieldsReader.Settled p u.eraseUrl := by
    intro e he
    rw [hu, reader_forgets.deliver, hs e he]
  obtain ⟨h1, h2, h3, h4⟩ :=
    execute_eager settings_reads fieldsReader_additive p u data hok hne hs'
  rw [hu, reader_forgets.run] at h1 h2 h3 h4
  refine ⟨h1, h2, h3 RequestFields.isComplete ?_, h4⟩
  intro e text u
  cases e with
  | url | status | headerValue | body => rfl
  | headerField =>
    simp only [fieldsReader, RequestFields.onHeaderField, RequestFields.flushHeader]
    split_ifs <;> rfl

/-- The result of `parse`. -/
def result (r : Reading) : Result := if r.ok then .ok else .indeterminate

theorem resultOf_eq {fields : RequestFields} {b : Bool} (h : fields.isComplete = b) :
    resultOf fields = if b then .ok else .indeterminate := by
  rw [resultOf, h]

/-- The second run of the parser in a call of `parse`. -/
theorem second_run {p : HttpParser} {u : RequestFields} {m : MessageLog} {data : Str}
    (hok : p.httpErrno = .ok) (hne : data ≠ []) (hs : reader.Settled p m)
    (hu : u.eraseUrl = m.fields) (hm : m.isComplete = false) :
    let e := execute settings p u data
    let r := resume (reader.run data p m)
    (r ≠ .failed → At ⟨e.2.1, e.2.2⟩ r ∧ resultOf e.2.2 = r.result) ∧
      (r = .failed → resultOf e.2.2 = .indeterminate) := by
  obtain ⟨h1, h2, h3, h4⟩ := execute_reader hok hne hs hu
  simp only
  rw [resultOf_eq h3]
  rcases hrun : reader.run data p m with ⟨_ | k, p', m'⟩
  · rw [hrun] at h2 h4
    obtain ⟨hp', hs'⟩ := Reader.run_settled reader_additive hrun hok hs
    refine ⟨fun _ => ⟨⟨h2, h4 (.inl (by rw [h2]; exact hp')), hp', hs'⟩, rfl⟩, fun h => nomatch h⟩
  · rw [hrun] at h2 h4
    by_cases hp : p'.httpErrno = .paused
    · cases hc : m'.isComplete with
      | true =>
        simp only [resume, hp, hc, and_self, if_true]
        exact ⟨fun _ => ⟨⟨congrArg HttpParser.method h2, h4 (.inr (by rw [h2]; exact hp))⟩, rfl⟩,
          fun h => nomatch h⟩
      | false => simp [resume, hc]
    · have hc := run_incomplete hrun hok hs hp hm
      simp [resume, hp, hc]

/-- In either case it goes on as far as the run does. -/
theorem text_going (bytes : Str) (seen : Bool) {p : HttpParser} {m : MessageLog}
    (hok : p.httpErrno = .ok) (hs : reader.Settled p m) :
    text (.going seen p m) bytes =
      match reader.run bytes p m with
      | (none, p', m') => .going seen p' m'
      | (some k, p', m') => stopped seen p' m' (bytes.drop k) := by
  cases seen with
  | false => exact text_first bytes hok hs
  | true =>
    rw [text_seen]
    rcases reader.run bytes p m with ⟨_ | k, p', m'⟩
    · rfl
    · by_cases hp : p'.httpErrno = .paused
      · by_cases hc : m'.isComplete = true <;> simp [resume, stopped, hp, hc]
      · simp [resume, stopped, hp]

/-- **A call of `parse` is the reader on its bytes.**  Where the reader fails before it has seen the
end of the headers, the call does not return `HTTP_PARSER_OK`. -/
theorem parse_reading {rp : RequestParser} {seen : Bool} {p : HttpParser} {m : MessageLog}
    {data : Str} (h : At rp (.going seen p m)) (hne : data ≠ []) :
    let r := Reading.text (.going seen p m) data
    (r ≠ .failed → At (rp.parse data).2 r ∧ (rp.parse data).1 = r.result) ∧
      (r = .failed → seen = false → m.isComplete = false ∨ p.state = .startReq →
        (rp.parse data).1 ≠ .ok) := by
  obtain ⟨rfl, hu, hok, hs⟩ := h
  obtain ⟨h1, h2, h3, h4⟩ := execute_reader hok hne hs hu
  rw [text_going data seen hok hs]
  unfold parse
  rcases hrun : reader.run data rp.parser m with ⟨_ | k, p', m'⟩
  · rw [hrun] at h1 h2 h3 h4
    obtain ⟨hp', hs'⟩ := Reader.run_settled reader_additive hrun hok hs
    have hne' : p'.httpErrno ≠ .paused := by rw [hp']; decide
    simp only [h1, h2, Option.getD_none, lt_irrefl, if_false, hne']
    exact ⟨fun _ => ⟨⟨rfl, h4 (.inl (h2 ▸ hp')), hp', hs'⟩, resultOf_eq h3⟩, Reading.noConfusion⟩
  · rw [hrun] at h1 h2 h3 h4
    simp only [h1, h2, Option.getD_some]
    by_cases hp : p'.httpErrno = .paused
    · have hu' := h4 (.inr (h2 ▸ hp))
      simp only [hp, if_true]
      cases hc : m'.isComplete with
      | true =>
        have hc' : (execute settings rp.parser rp.fields data).2.2.isComplete = true := h3.trans hc
        have hpause : (parserPause p' false).method = p'.method := by simp [parserPause, hp]
        simp only [stopped, hp, hc, hc', ne_eq, not_true_eq_false, if_false, if_true, ite_self]
        exact ⟨fun _ => ⟨⟨hpause, hu'⟩, resultOf_eq hc'⟩, Reading.noConfusion⟩
      | false =>
        obtain ⟨hk, howner⟩ := run_paused hrun hok hs hp hc
        have hc' : (execute settings rp.parser rp.fields data).2.2.isComplete = false := h3.trans hc
        have hpause : parserPause p' false = { p' with httpErrno := .ok } := by
          simp [parserPause, hp]
        have hdrop : data.drop k ≠ [] := by
          rw [ne_eq, List.drop_eq_nil_iff]
          omega
        have hs' : reader.Settled (parserPause p' false) m' :=
          Reader.settled_between (by rw [hpause]; exact howner)
        obtain ⟨hgoes, hfails⟩ :=
          second_run (p := parserPause p' false) (by rw [hpause]) hdrop hs' hu' hc
        simp only [hk, hc', if_true, Bool.false_eq_true, if_false]
        cases seen with
        | true =>
          simp [stopped, hp, hc]
        | false =>
          simp only [stopped, hp, hc, ne_eq, not_true_eq_false, if_false, Bool.false_eq_true]
          exact ⟨hgoes, fun h _ _ => by rw [hfails h]; decide⟩
    · have hstop : stopped seen p' m' (data.drop k) = .failed := by simp [stopped, hp]
      rw [hstop]
      refine ⟨fun h => absurd rfl h, fun _ _ hm => ?_⟩
      simp only [hp, if_false]
      have hresult : m'.isComplete = false ∨ k < data.length := by
        rcases hm with hm | hstart
        · exact .inl (run_incomplete hrun hok hs hp hm)
        · rcases run_start hrun hok hstart hp with hm' | hr | ⟨j, hj, hr⟩
          · exact .inl hm'
          · cases hr
          · exact .inr (Option.some.inj hr ▸ hj)
      split
      · simp
      · rename_i hk
        rw [resultOf_eq (h3.trans (hresult.resolve_right hk))]
        simp

end Reading

end RequestParser

end Wsrv
