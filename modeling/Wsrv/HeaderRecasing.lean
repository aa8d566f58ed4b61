import Wsrv.ChunkInvariance

/-!
# The letter case of header names

Two requests that differ in the letter case of their header names are framed
alike: `text_sim` runs the reader on both, step by step, and relates the names
it collects.  What the relation is, is a parameter (`Spelling`): that the names
are the same but for their case, or that one is a chosen spelling of the other.
-/

namespace Wsrv

open Http

namespace RequestParser

/-! ## Letters -/

theorem letter_token (c : UInt8) : isAlpha c = true →
    token c = tolower c ∧ token c ≠ 0 ∧ c ≠ CR ∧ c ≠ LF ∧ c ≠ ' '.toUInt8 ∧ c ≠ 9 :=
  forall_byte (P := fun c => isAlpha c = true → token c = tolower c ∧ token c ≠ 0 ∧ c ≠ CR ∧
    c ≠ LF ∧ c ≠ ' '.toUInt8 ∧ c ≠ 9) (by decide +kernel) c

theorem tolower_letter (c : UInt8) :
    isAlpha (tolower c) = isAlpha c ∧ (isAlpha c = false → tolower c = c) :=
  forall_byte (P := fun c => isAlpha (tolower c) = isAlpha c ∧ (isAlpha c = false → tolower c = c))
    (by decide +kernel) c

/-- Bytes that differ in case only are letters. -/
theorem letters_of_ne {a b : UInt8} (h : tolower b = tolower a) (hne : b ≠ a) :
    isAlpha a = true ∧ isAlpha b = true := by
  have hab : isAlpha b = isAlpha a := by rw [← (tolower_letter b).1, h, (tolower_letter a).1]
  cases ha : isAlpha a with
  | true => exact ⟨rfl, hab.trans ha⟩
  | false =>
    rw [(tolower_letter a).2 ha, (tolower_letter b).2 (hab.trans ha)] at h
    exact absurd h hne

/-! ## The states of a header name -/

/-- The states in which a letter is taken for one of a header name. -/
def inName : State → Bool
  | .headerFieldStart | .headerField | .headerValueLws | .headerValueDiscardLws => true
  | _ => false

/-- What a step has to do with a header name: outside of one it neither adds to it nor sees the
byte again in one. -/
def FieldSafe (s : State) : Step → Prop
  | .error _ _ => True
  | .go m q c after =>
    (m = some .headerField → inName s = true) ∧ (∀ k, c ≠ .data .headerField true k) ∧
      (after = .again → inName q.state = true →
        inName s = true ∧ (c = .none ∨ c = .data .headerValue false false)) ∧
      (c = .headersComplete → inName q.state = false)

@[simp] theorem fieldSafe_error (s : State) (p : HttpParser) (e : Errno) :
    FieldSafe s (.error p e) := trivial

@[simp] theorem fieldSafe_go (s : State) (m : Option Elem) (q : HttpParser) (c : Call) (after : After) :
    FieldSafe s (.go m q c after) ↔
      (m = some .headerField → inName s = true) ∧ (∀ k, c ≠ .data .headerField true k) ∧
        (after = .again → inName q.state = true →
          inName s = true ∧ (c = .none ∨ c = .data .headerValue false false)) ∧
        (c = .headersComplete → inName q.state = false) := Iff.rfl

@[simp] theorem fieldSafe_next (s : State) (p : HttpParser) : FieldSafe s (.next p) := by
  simp [Step.next, FieldSafe]

@[simp] theorem fieldSafe_expect (s : State) (p : HttpParser) (ch want : UInt8) (t : State) (e : Errno) :
    FieldSafe s (.expect p ch want t e) := by
  unfold Step.expect
  split_ifs <;> simp

@[simp] theorem fieldSafe_finish (s : State) (p : HttpParser) : FieldSafe s (finish p) ∧ FieldSafe s (finish p .ret) := by
  simp [finish]

theorem fieldSafe_start (p : HttpParser) (ch : UInt8) : FieldSafe p.state (switchStart p ch) := by
  unfold switchStart
  split <;> (try split_ifs) <;> simp [Step.again, inName]

theorem fieldSafe_responseLine (p : HttpParser) (ch : UInt8) :
    FieldSafe p.state (switchResponseLine p ch) := by
  unfold switchResponseLine firstMajor moreMajor firstMinor moreMinor
  simp only
  split <;> (try split_ifs) <;> simp

theorem fieldSafe_requestTarget (p : HttpParser) (ch : UInt8) :
    FieldSafe p.state (switchRequestTarget p ch) := by
  unfold switchRequestTarget switchMethod urlChar
  simp only
  split <;> (try split_ifs) <;> (try split) <;> simp

theorem fieldSafe_requestVersion (p : HttpParser) (ch : UInt8) :
    FieldSafe p.state (switchRequestVersion p ch) := by
  unfold switchRequestVersion firstMajor moreMajor firstMinor moreMinor
  simp only
  split <;> (try split_ifs) <;> simp

theorem fieldSafe_headerField (p : HttpParser) (ch : UInt8) :
    FieldSafe p.state (switchHeaderField p ch) := by
  unfold switchHeaderField
  simp only
  split <;> rename_i hp <;> (try split_ifs) <;> simp [Step.again, inName, *]

theorem fieldSafe_headerValueStart (p : HttpParser) (ch : UInt8) :
    FieldSafe p.state (switchHeaderValueStart p ch) := by
  unfold switchHeaderValueStart headerValueStart
  simp only
  split <;> rename_i hp <;> (try split_ifs) <;> (try split) <;> simp [inName, *]

theorem fieldSafe_headerValue (p : HttpParser) (ch : UInt8) :
    FieldSafe p.state (switchHeaderValue p ch) := by
  unfold switchHeaderValue headerValueChar
  simp only
  split <;> rename_i hp <;> (try split_ifs) <;> (try split) <;> (try split) <;>
    simp [Step.again, inName, *]

theorem fieldSafe_headersEnd (p : HttpParser) (ch : UInt8) :
    FieldSafe p.state (switchHeadersEnd p ch) := by
  unfold switchHeadersEnd
  simp only
  split <;> rename_i hp <;> (try split_ifs) <;> simp [inName, *]

theorem fieldSafe_chunk (p : HttpParser) (ch : UInt8) : FieldSafe p.state (switchChunk p ch) := by
  unfold switchChunk
  simp only
  split <;> (try split) <;> (try split) <;> (try split) <;> simp

theorem fieldSafe_body (p : HttpParser) : FieldSafe p.state (switchBody p) := by
  unfold switchBody
  simp only
  split <;> (try split_ifs) <;> simp [inName]

theorem switch_fieldSafe (p : HttpParser) (ch : UInt8) : FieldSafe p.state (switch p ch) :=
  switch_parts (P := FieldSafe p.state) (fieldSafe_start p ch) (fieldSafe_responseLine p ch)
    (fieldSafe_requestTarget p ch) (fieldSafe_requestVersion p ch) (fieldSafe_headerField p ch)
    (fieldSafe_headerValueStart p ch) (fieldSafe_headerValue p ch) (fieldSafe_headersEnd p ch)
    (fieldSafe_chunk p ch) (fieldSafe_body p)

/-! ## Logs with other spellings -/

/-- The names of one log are spellings of those of another, each with its place in the list; all
else is the same. -/
structure LogSim (Rel : Nat → Str → Str → Prop) (m m' : MessageLog) : Prop where
  length : m'.headers.length = m.headers.length
  headers : ∀ i h, m.headers[i]? = some h →
    ∃ name, m'.headers[i]? = some (name, h.2) ∧ Rel i h.1 name
  field : Rel m.headers.length m.field m'.field
  value : m'.value = m.value
  body : m'.body = m.body
  protocol : m'.protocol = m.protocol
  isComplete : m'.isComplete = m.isComplete

/-- A relation of names that grows with them, where the bytes are `Allowed`. -/
structure Spelling (Rel : Nat → Str → Str → Prop) (Allowed : Nat → Str → UInt8 → UInt8 → Prop) :
    Prop where
  nil : ∀ i, Rel i [] []
  snoc : ∀ {i f f' a b}, Rel i f f' → Allowed i f a b → Rel i (f ++ [a]) (f' ++ [b])
  caseless : ∀ {i f a b}, Allowed i f a b → tolower b = tolower a

section Simulation

variable {Rel : Nat → Str → Str → Prop} {Allowed : Nat → Str → UInt8 → UInt8 → Prop}

open MessageLog

theorem LogSim.flush (hsp : Spelling Rel Allowed) {m m' : MessageLog} (h : LogSim Rel m m') :
    LogSim Rel m.flush m'.flush := by
  unfold MessageLog.flush
  rw [h.value]
  split_ifs with hv
  · exact h
  · refine ⟨by simp [h.length], fun i hdr hi => ?_, hsp.nil _, rfl, h.body, h.protocol,
      h.isComplete⟩
    simp only at hi ⊢
    rcases lt_trichotomy i m.headers.length with hlt | rfl | hgt
    · rw [List.getElem?_append_left hlt] at hi
      rw [List.getElem?_append_left (by rw [h.length]; exact hlt)]
      exact h.headers i hdr hi
    · rw [List.getElem?_append_right le_rfl, Nat.sub_self] at hi
      obtain rfl : (m.field, m.value) = hdr := by simpa using hi
      refine ⟨m'.field, ?_, h.field⟩
      rw [List.getElem?_append_right (by rw [h.length]), h.length, Nat.sub_self]
      rfl
    · rw [List.getElem?_eq_none (by simp; omega)] at hi
      cases hi

/-- Text of an element; one of a header name is spelled alike on both sides. -/
theorem LogSim.deliver (hsp : Spelling Rel Allowed) {m m' : MessageLog} (h : LogSim Rel m m')
    {e : Elem} {text text' : Str} (htext : e ≠ .headerField → text' = text)
    (hname : e = .headerField → Rel m.flush.headers.length (m.flush.field ++ text)
      (m'.flush.field ++ text')) :
    LogSim Rel (deliver e text m) (deliver e text' m') := by
  cases e with
  | url | status => exact h
  | headerField =>
    have hf := h.flush hsp
    exact ⟨hf.length, hf.headers, hname rfl, hf.value, hf.body, hf.protocol, hf.isComplete⟩
  | headerValue =>
    rw [htext (by decide)]
    exact ⟨h.length, h.headers, h.field, congrArg (· ++ text) h.value, h.body, h.protocol,
      h.isComplete⟩
  | body =>
    rw [htext (by decide)]
    exact ⟨h.length, h.headers, h.field, h.value, congrArg (· ++ text) h.body, h.protocol,
      h.isComplete⟩

theorem inName_owner {s : State} (h : owner s = some .headerField) : inName s = true := by
  cases s <;> first | rfl | cases h

theorem reader_call_state (ch : UInt8) (p : HttpParser) (m : MessageLog) (c : Call) :
    (reader.call ch p m c).1.1.state = p.state := by
  cases c with
  | none | data e w k => rfl
  | notify n => exact settle_state _ _ _
  | headersComplete => exact settleHeaders_state _ _

/-- The callbacks of a step that adds nothing to a name. -/
theorem call_sim (hsp : Spelling Rel Allowed) {ch : UInt8} {m m' : MessageLog}
    (h : LogSim Rel m m') {c : Call} (hc : ∀ k, c ≠ .data .headerField true k) (p : HttpParser) :
    let r := reader.call ch p m c
    let r' := reader.call ch p m' c
    r'.1.1 = r.1.1 ∧ r'.2 = r.2 ∧ LogSim Rel r.1.2 r'.1.2 := by
  cases c with
  | none => exact ⟨rfl, rfl, h⟩
  | data e w k =>
    refine ⟨rfl, rfl, h.deliver hsp (fun _ => rfl) ?_⟩
    rintro rfl
    cases w with
    | true => exact absurd rfl (hc k)
    | false =>
      simp only [Bool.false_eq_true, if_false, List.append_nil]
      exact (h.flush hsp).field
  | notify n =>
    cases n with
    | messageBegin =>
      exact ⟨rfl, rfl, ⟨h.length, h.headers, h.field, h.value, h.body, h.protocol, rfl⟩⟩
    | messageComplete =>
      exact ⟨rfl, rfl, ⟨h.length, h.headers, h.field, h.value, h.body, h.protocol, rfl⟩⟩
  | headersComplete =>
    have hf := h.flush hsp
    exact ⟨rfl, rfl, ⟨hf.length, hf.headers, hf.field, hf.value, hf.body, rfl, hf.isComplete⟩⟩

/-- A byte may be the next of a header name that the parser stands in. -/
def Extends (Rel : Nat → Str → Str → Prop) (ch : UInt8) (p : HttpParser) (m m' : MessageLog) :
    Prop :=
  inName p.state = true →
    Rel m.flush.headers.length (m.flush.field ++ [ch]) (m'.flush.field ++ [ch])

/-- A byte that is the same on both sides. -/
theorem byte_sim (hsp : Spelling Rel Allowed) {n : Nat} {ch : UInt8} {p : HttpParser}
    {m m' : MessageLog} (h : LogSim Rel m m') (hext : Extends Rel ch p m m') :
    let r := reader.byte n ch p m
    let r' := reader.byte n ch p m'
    r'.1 = r.1 ∧ r'.2.1 = r.2.1 ∧ LogSim Rel r.2.2 r'.2.2 := by
  induction n generalizing p m m' with
  | zero => exact ⟨rfl, rfl, h⟩
  | succ n ih =>
    have hf := switch_fieldSafe p ch
    rw [Reader.byte, Reader.byte]
    cases hs : switch p ch with
    | error q e => exact ⟨rfl, rfl, h⟩
    | go mk q c after =>
      rw [hs] at hf
      obtain ⟨hmark, hdata, hagain, -⟩ := hf
      obtain ⟨hp, hr, hlog⟩ := @call_sim _ _ hsp ch _ _ h _ hdata q
      simp only
      rcases hc : reader.call ch q m c with ⟨⟨q₁, m₁⟩, r⟩
      rcases hc' : reader.call ch q m' c with ⟨⟨q₁', m₁'⟩, r'⟩
      rw [hc, hc'] at hp hr hlog
      simp only at hp hr hlog
      subst hp hr
      cases r' with
      | some used => exact ⟨rfl, rfl, hlog⟩
      | none =>
        cases after with
        | ret => exact ⟨rfl, rfl, hlog⟩
        | next =>
          refine ⟨rfl, rfl, ?_⟩
          simp only
          split_ifs with hcnone
          · subst hcnone
            cases hc
            cases hc'
            cases ho : mk <|> owner p.state with
            | none => exact h
            | some e =>
              refine h.deliver hsp (fun _ => rfl) ?_
              rintro rfl
              apply hext
              cases mk with
              | some e =>
                obtain rfl : e = .headerField := by simpa using ho
                exact hmark rfl
              | none =>
                exact inName_owner ho
          · exact hlog
        | again =>
          refine ih hlog fun hq => ?_
          have hstate : q₁'.state = q.state := by
            have := reader_call_state ch q m c
            rwa [hc] at this
          rw [hstate] at hq
          obtain ⟨hin, hc₀⟩ := hagain rfl hq
          have hkeep : ∀ m : MessageLog, ∃ v, (reader.call ch q m c).1.2 = { m with value := v } ∧
              v = m.value := by
            intro m
            rcases hc₀ with rfl | rfl
            · exact ⟨m.value, rfl, rfl⟩
            · exact ⟨m.value ++ [], rfl, List.append_nil _⟩
          obtain ⟨v, hm₁, rfl⟩ := hkeep m
          obtain ⟨v', hm₁', rfl⟩ := hkeep m'
          rw [hc] at hm₁
          rw [hc'] at hm₁'
          obtain rfl : m₁ = m := hm₁
          obtain rfl : m₁' = m' := hm₁'
          exact hext hin

/-- The parser pauses at the end of the message, or outside of a header name. -/
theorem reader_pause {n k : Nat} {ch : UInt8} {p p' : HttpParser} {m m' : MessageLog}
    (h : reader.byte n ch p m = (some k, p', m')) (hok : p.httpErrno = .ok)
    (hp : p'.httpErrno = .paused) : inName p'.state = false ∨ m'.isComplete = true := by
  induction n generalizing p m with
  | zero =>
    cases h
    cases hp
  | succ n ih =>
    have hd := switch_disciplined p ch
    have hf := switch_fieldSafe p ch
    rw [Reader.byte] at h
    cases hs : switch p ch with
    | error q e =>
      rw [hs] at h hd
      cases h
      exact absurd hp hd.2
    | go mk q c after =>
      rw [hs] at h hd hf
      have hq : q.httpErrno = .ok := hd.1.trans hok
      have hstate := reader_call_state ch q m c
      obtain ⟨hgoes, -⟩ := Reading.reader_call ch hq m c
      simp only at h
      rcases hc : reader.call ch q m c with ⟨⟨q', m₁⟩, _ | used⟩
      · rw [hc] at h hgoes
        obtain ⟨rfl, -⟩ := hgoes rfl
        cases after with
        | next => cases h
        | again => exact ih h hq
        | ret =>
          cases h
          rw [hq] at hp
          cases hp
      · rw [hc] at h hstate
        cases h
        cases c with
        | none => cases hc
        | data e w k =>
          simp [Reader.call, checkErrno, hq] at hc
        | headersComplete => exact .inl (hstate ▸ hf.2.2.2 rfl)
        | notify n =>
          cases n with
          | messageBegin => simp [Reader.call, reader, Reply.settle, checkErrno, hq] at hc
          | messageComplete =>
            have hcomplete := congrArg (·.1.2.isComplete) hc
            exact .inr hcomplete.symm

/-! ## Letters of a header name -/

/-- The parser behind the first letter of a name. -/
def nameStart (p : HttpParser) (c : UInt8) : HttpParser :=
  { p with index := 0, state := .headerField, headerState := headerFieldFirst c }

theorem reader_fieldStart {a : UInt8} (ha : isAlpha a = true) {p : HttpParser} (n : Nat)
    (hp : p.state = .headerFieldStart) (m : MessageLog) :
    reader.byte (n + 1) a p m = (none, nameStart p (tolower a), deliver .headerField [a] m) := by
  obtain ⟨ht, hne, hcr, hlf, -⟩ := letter_token a ha
  rw [ht] at hne
  rw [Reader.byte]
  simp only [switch, switchHeaderField, hp, if_neg hcr, if_neg hlf, ht, if_neg hne]
  rfl

theorem headerFieldChar_letter {a b : UInt8} (ha : a ≠ ' '.toUInt8) (hb : b ≠ ' '.toUInt8)
    (p : HttpParser) (c : UInt8) : headerFieldChar p a c = headerFieldChar p b c := by
  unfold headerFieldChar
  simp only [ne_eq, ha, hb]

/-- A letter of a header name, in one case or the other. -/
theorem reader_letter {a b : UInt8} (ha : isAlpha a = true) (hb : isAlpha b = true)
    (h : tolower b = tolower a) {p : HttpParser} (hp : inName p.state = true)
    (hok : p.httpErrno = .ok) :
    ∃ q, ∀ m, reader.byte passes a p m = (none, q, deliver .headerField [a] m) ∧
      reader.byte passes b p m = (none, q, deliver .headerField [b] m) := by
  obtain ⟨hta, hnea, -, -, hspa, htaba⟩ := letter_token a ha
  obtain ⟨htb, hneb, -, -, hspb, htabb⟩ := letter_token b hb
  have hnil : ∀ (c : UInt8) (m : MessageLog), reader.call c
      { p with state := .headerFieldStart } m (.data .headerValue false false) =
        (({ p with state := .headerFieldStart }, m), none) := by
    intro c m
    simp [Reader.call, reader, deliver, checkErrno, hok]
  cases hs : p.state <;> rw [hs] at hp <;> try cases hp
  case headerFieldStart =>
    refine ⟨nameStart p (tolower a), fun m => ⟨reader_fieldStart ha 3 hs m, ?_⟩⟩
    rw [← h]
    exact reader_fieldStart hb 3 hs m
  case headerField =>
    refine ⟨headerFieldChar p a (tolower a), fun m => ⟨?_, ?_⟩⟩
    · rw [passes, Reader.byte]
      simp only [switch, switchHeaderField, hs, hta ▸ hnea, hta, ne_eq, not_false_eq_true, if_true]
      simp [Step.next, Reader.call, owner, State.inUrl, Reader.feed, reader]
    · rw [passes, Reader.byte]
      simp only [switch, switchHeaderField, hs, htb ▸ hneb, htb, ne_eq, not_false_eq_true, if_true]
      rw [h, headerFieldChar_letter hspa hspb]
      simp [Step.next, Reader.call, owner, State.inUrl, Reader.feed, reader]
  case headerValueLws =>
    refine ⟨nameStart { p with flags := headerFlags p, state := .headerFieldStart } (tolower a),
      fun m => ⟨?_, ?_⟩⟩
    · rw [passes, Reader.byte]
      simp only [switch, switchHeaderValue, hs, hspa, htaba, or_self, if_false, Step.again,
        Reader.call]
      exact reader_fieldStart ha 2 rfl m
    · rw [passes, Reader.byte]
      simp only [switch, switchHeaderValue, hs, hspb, htabb, or_self, if_false, Step.again,
        Reader.call]
      rw [← h]
      exact reader_fieldStart hb 2 rfl m
  case headerValueDiscardLws =>
    refine ⟨nameStart { p with state := .headerFieldStart } (tolower a), fun m => ⟨?_, ?_⟩⟩
    · rw [passes, Reader.byte]
      simp only [switch, switchHeaderValueStart, hs, hspa, htaba, or_self, if_false, hnil]
      exact reader_fieldStart ha 2 rfl m
    · rw [passes, Reader.byte]
      simp only [switch, switchHeaderValueStart, hs, hspb, htabb, or_self, if_false, hnil]
      rw [← h]
      exact reader_fieldStart hb 2 rfl m

/-! ## Two readers side by side -/

/-- A byte in the place of another: the next of a name in its spelling, or the same. -/
def Spelled (Allowed : Nat → Str → UInt8 → UInt8 → Prop) (a b : UInt8) (p : HttpParser)
    (m : MessageLog) : Prop :=
  if inName p.state = true then Allowed m.flush.headers.length m.flush.field a b else b = a

theorem stepByte_sim (hsp : Spelling Rel Allowed) {a b : UInt8} {p : HttpParser}
    {m m' : MessageLog} (h : LogSim Rel m m') (hok : p.httpErrno = .ok)
    (hab : Spelled Allowed a b p m) :
    let r := reader.stepByte a p m
    let r' := reader.stepByte b p m'
    r'.1 = r.1 ∧ r'.2.1 = r.2.1 ∧ LogSim Rel r.2.2 r'.2.2 ∧
      (b ≠ a → r.1 = none ∨ r.2.1.httpErrno ≠ .paused) := by
  unfold Reader.stepByte
  split_ifs with hover
  · exact ⟨rfl, rfl, h, fun _ => .inr (by simp)⟩
  have hstate := countByte_state p
  by_cases hne : b = a
  · subst hne
    obtain ⟨h1, h2, h3⟩ := @byte_sim _ _ hsp passes b (countByte p) _ _ h fun hin => by
      rw [hstate] at hin
      rw [Spelled, if_pos hin] at hab
      exact hsp.snoc (h.flush hsp).field hab
    exact ⟨h1, h2, h3, fun hne => absurd rfl hne⟩
  · have hin : inName p.state = true := by
      by_contra hin
      rw [Spelled, if_neg hin] at hab
      exact hne hab
    rw [Spelled, if_pos hin] at hab
    obtain ⟨ha, hb⟩ := letters_of_ne (hsp.caseless hab) hne
    obtain ⟨q, hq⟩ := reader_letter ha hb (hsp.caseless hab) (p := countByte p)
      (by rw [hstate]; exact hin) ((Reading.countByte_errno p).trans hok)
    rw [(hq m).1, (hq m').2]
    refine ⟨rfl, rfl, h.deliver hsp (fun hn => absurd rfl hn) fun _ => ?_, fun _ => .inl rfl⟩
    exact hsp.snoc (h.flush hsp).field hab

/-- Two readers at the same place, with spellings of the same names. -/
def Sim (Rel : Nat → Str → Str → Prop) : Reading → Reading → Prop
  | .going seen p m, .going seen' p' m' =>
    seen' = seen ∧ p' = p ∧ p.httpErrno = .ok ∧ reader.Settled p m ∧ LogSim Rel m m'
  | .complete p m, .complete p' m' => p' = p ∧ LogSim Rel m m'
  | .failed, .failed => True
  | _, _ => False

theorem run_singleton (ch : UInt8) (p : HttpParser) (m : MessageLog) :
    reader.run [ch] p m = reader.stepByte ch p m := by
  rw [Reader.run]
  rcases reader.stepByte ch p m with ⟨_ | k, q, m₁⟩ <;> rfl

/-- The byte that ends the headers, again. -/
theorem resume_sim (hsp : Spelling Rel Allowed) {ch : UInt8} {p : HttpParser} {m m' : MessageLog}
    (h : LogSim Rel m m') (hok : p.httpErrno = .ok) (hs : reader.Settled p m)
    (hin : inName p.state = false) :
    Sim Rel (Reading.resume (reader.run [ch] p m)) (Reading.resume (reader.run [ch] p m')) := by
  obtain ⟨h1, h2, h3, -⟩ := stepByte_sim hsp (a := ch) (b := ch) h hok (by simp [Spelled, hin])
  have hsettled := fun q m₁ => @Reader.run_settled _ _ reader_additive [ch] p q m m₁
  rw [run_singleton, run_singleton]
  rw [run_singleton] at hsettled
  rcases hr : reader.stepByte ch p m with ⟨r, q, m₁⟩
  rcases hr' : reader.stepByte ch p m' with ⟨r', q', m₁'⟩
  rw [hr, hr'] at h1 h2 h3
  simp only at h1 h2 h3
  subst h1 h2
  cases r' with
  | none =>
    obtain ⟨hq, hsq⟩ := hsettled q' m₁ hr hok hs
    exact ⟨rfl, rfl, hq, hsq, h3⟩
  | some k =>
    simp only [Reading.resume, h3.isComplete]
    split_ifs
    · exact ⟨rfl, h3⟩
    · trivial

/-- A byte and its spelling. -/
def Reading.Spelled (Allowed : Nat → Str → UInt8 → UInt8 → Prop) (a b : UInt8) : Reading → Prop
  | .going _ p m => RequestParser.Spelled Allowed a b p m
  | _ => True

theorem reading_sim (hsp : Spelling Rel Allowed) {r r' : Reading} {a b : UInt8}
    (h : Sim Rel r r') (hab : r.Spelled Allowed a b) : Sim Rel (r.byte a) (r'.byte b) := by
  cases r with
  | complete p m =>
    cases r' with
    | complete p' m' => exact h
    | going | failed => cases h
  | failed =>
    cases r' with
    | failed => trivial
    | going | complete => cases h
  | going seen p m =>
    cases r' with
    | complete p' m' => cases h
    | failed => cases h
    | going seen' p' m' =>
      obtain ⟨rfl, rfl, hok, hs, hlog⟩ := h
      obtain ⟨h1, h2, h3, h4⟩ := stepByte_sim hsp hlog hok hab
      rw [Reading.byte, Reading.byte]
      rcases hr : reader.stepByte a p' m with ⟨r, q, m₁⟩
      rcases hr' : reader.stepByte b p' m' with ⟨r', q', m₁'⟩
      rw [hr, hr'] at h1 h2 h3
      rw [hr] at h4
      simp only at h1 h2 h3 h4
      subst h1 h2
      cases r' with
      | none =>
        obtain ⟨hq, hsq⟩ := @Reader.run_settled _ _ reader_additive [a] _ _ _ _
          (by rw [run_singleton]; exact hr) hok hs
        exact ⟨rfl, rfl, hq, hsq, h3⟩
      | some k =>
        simp only [Reading.stopped, h3.isComplete]
        split_ifs with hp hc hseen
        · trivial
        · exact ⟨rfl, h3⟩
        · trivial
        · have hp' : q'.httpErrno = .paused := by simpa using hp
          obtain rfl : b = a := by
            by_contra hne
            rcases h4 hne with h4 | h4
            · cases h4
            · exact h4 hp'
          have howner := ((Reading.reader_stepByte hr hok).2 k rfl hp').1
          have hin : inName q'.state = false := by
            unfold Reader.stepByte at hr
            split at hr
            · cases hr
              cases hp'
            · exact (reader_pause hr ((Reading.countByte_errno _).trans hok) hp').resolve_right hc
          have hpause : parserPause q' false = { q' with httpErrno := .ok } := by
            simp [parserPause, hp']
          exact resume_sim hsp h3 (by rw [hpause])
            (Reader.settled_between (by rw [hpause]; exact howner)) (by rw [hpause]; exact hin)

theorem text_sim (hsp : Spelling Rel Allowed) {s s' : Str} {r r' : Reading}
    (hlen : s'.length = s.length) (h : Sim Rel r r')
    (hs : ∀ i a b, s[i]? = some a → s'[i]? = some b →
      (r.text (s.take i)).Spelled Allowed a b) : Sim Rel (r.text s) (r'.text s') := by
  induction s generalizing s' r r' with
  | nil =>
    obtain rfl := List.length_eq_zero_iff.mp hlen
    exact h
  | cons a s ih =>
    cases s' with
    | nil => cases hlen
    | cons b s' =>
      have hstep := reading_sim hsp h (hs 0 a b rfl rfl)
      refine @ih s' (r.byte a) (r'.byte b) (by simpa using hlen) hstep fun i c d hc hd => ?_
      exact hs (i + 1) c d hc hd

theorem sim_ok {r r' : Reading} (h : Sim Rel r r') : r'.ok = r.ok := by
  cases r with
  | complete p m =>
    cases r' with
    | complete p' m' => rfl
    | going | failed => cases h
  | failed =>
    cases r' with
    | failed => rfl
    | going | complete => cases h
  | going seen p m =>
    cases r' with
    | going seen' p' m' => exact h.2.2.2.2.isComplete
    | complete | failed => cases h

theorem sim_start (hsp : Spelling Rel Allowed) (junk : Bool) :
    Sim Rel (startReading junk) (startReading junk) := by
  refine ⟨rfl, rfl, rfl, Reader.settled_between rfl, rfl, ?_, hsp.nil 0, rfl, rfl, rfl, rfl⟩
  intro i h hi
  cases hi

/-- **A request with other spellings** is complete where the request is, and it is read alike. -/
theorem complete_spelled (hsp : Spelling Rel Allowed) {junk : Bool} {s s' : Str}
    (hs : Complete junk s) (hlen : s'.length = s.length)
    (h : ∀ i a b, s[i]? = some a → s'[i]? = some b →
      ((startReading junk).text (s.take i)).Spelled Allowed a b) :
    Complete junk s' ∧ Sim Rel ((startReading junk).text s) ((startReading junk).text s') := by
  have hne : s' ≠ [] := by
    rintro rfl
    exact hs.ne_nil (List.length_eq_zero_iff.mp hlen.symm)
  have hupTo : ∀ n, Sim Rel ((startReading junk).text (s.take n))
      ((startReading junk).text (s'.take n)) := by
    intro n
    refine text_sim hsp (by simp [hlen]) (sim_start hsp junk) fun i a b ha hb => ?_
    rw [List.getElem?_take] at ha hb
    split_ifs at ha with hi
    rw [if_pos hi] at hb
    rw [List.take_take, min_eq_left hi.le]
    exact h i a b ha hb
  have hfull := hupTo s.length
  rw [List.take_length, ← hlen, List.take_length] at hfull
  refine ⟨⟨?_, fun i hi hpos => ?_, hne⟩, hfull⟩
  · rw [parse_ok_iff junk hne, sim_ok hfull, ← parse_ok_iff junk hs.ne_nil]
    exact hs.ok
  · have htake : ∀ t : Str, i < t.length → t.take i ≠ [] := by
      intro t ht hnil
      rw [List.take_eq_nil_iff] at hnil
      rcases hnil with rfl | rfl
      · omega
      · simp at ht
    rw [ne_eq, parse_ok_iff junk (htake s' hi), sim_ok (hupTo i),
      ← parse_ok_iff junk (htake s (hlen ▸ hi))]
    exact hs.first i (hlen ▸ hi) hpos

end Simulation

/-! ## Recasing a request -/

/-- The parser stands in a header name before the byte at `i`. -/
def InHeaderName (junk : Bool) (s : Str) (i : Nat) : Prop :=
  inName ((new junk).parse (s.take i)).2.parser.state = true

/-- **A change of the letter case of the header names** of a request. -/
structure Recasing (junk : Bool) (s s' : Str) : Prop where
  caseless : s'.map tolower = s.map tolower
  names : ∀ i, s'[i]? ≠ s[i]? → InHeaderName junk s i

/-- Before its last byte a complete request is being read, and the parser is where the reader is. -/
theorem reading_before {junk : Bool} {s : Str} (hs : Complete junk s) {i : Nat}
    (hi : i < s.length) :
    ∃ seen p m, (startReading junk).text (s.take i) = .going seen p m ∧
      ((new junk).parse (s.take i)).2.parser = p := by
  rcases Nat.eq_zero_or_pos i with rfl | hpos
  · exact ⟨false, _, _, rfl, rfl⟩
  have hne : s.take i ≠ [] := by
    rw [ne_eq, List.take_eq_nil_iff, not_or]
    exact ⟨by omega, hs.ne_nil⟩
  have hnot := hs.first i hi hpos
  have hok := (parse_ok_iff junk hs.ne_nil).mp hs.ok
  rw [← List.take_append_drop i s, Reading.text_append] at hok
  obtain ⟨hgoes, -⟩ := Reading.parse_reading (at_start junk) hne
  rw [← startReading] at hgoes
  cases hr : (startReading junk).text (s.take i) with
  | failed =>
    rw [hr, Reading.text_failed] at hok
    cases hok
  | complete p m =>
    rw [ne_eq, parse_ok_iff junk hne, hr] at hnot
    exact absurd rfl hnot
  | going seen p m =>
    obtain ⟨hat, -⟩ := hgoes (by rw [hr]; simp)
    rw [hr] at hat
    exact ⟨seen, p, m, rfl, hat.1⟩

/-- Names that are the same but for their case. -/
theorem caseless_spelling : Spelling (fun _ f f' => f'.map tolower = f.map tolower)
    (fun _ _ a b => tolower b = tolower a) where
  nil _ := rfl
  snoc hf hab := by simp only [List.map_append, List.map_cons, List.map_nil, hf, hab]
  caseless h := h

theorem Recasing.length {junk : Bool} {s s' : Str} (h : Recasing junk s s') :
    s'.length = s.length := by
  have := congrArg List.length h.caseless
  simpa using this

theorem Recasing.spelled {junk : Bool} {s s' : Str} (hs : Complete junk s) (h : Recasing junk s s')
    (i : Nat) (a b : UInt8) (ha : s[i]? = some a) (hb : s'[i]? = some b) :
    ((startReading junk).text (s.take i)).Spelled (fun _ _ a b => tolower b = tolower a) a b := by
  obtain ⟨hi, -⟩ := List.getElem?_eq_some_iff.mp ha
  obtain ⟨seen, p, m, hr, hp⟩ := reading_before hs hi
  rw [hr, Reading.Spelled, Spelled]
  split_ifs with hin
  · have := congrArg (·[i]?) h.caseless
    simpa [ha, hb] using this
  · by_contra hne
    refine hin ?_
    have hname := h.names i (by rw [ha, hb]; simpa using hne)
    rwa [InHeaderName, hp] at hname

/-- **Recased requests are read alike.** -/
theorem recasing_sim {junk : Bool} {s s' : Str} (hs : Complete junk s) (h : Recasing junk s s') :
    Complete junk s' ∧ Sim (fun _ f f' => f'.map tolower = f.map tolower)
      ((startReading junk).text s) ((startReading junk).text s') :=
  complete_spelled caseless_spelling hs h.length (h.spelled hs)

/-! ## A header name in capitals -/

def toupper (c : UInt8) : UInt8 :=
  if decide ('a'.toUInt8 ≤ c) && decide (c ≤ 'z'.toUInt8) then c - 32 else c

/-- The byte behind the bytes `f` of a name: a capital at the start and behind a hyphen, if so
wished, and else in lower case. -/
def spellByte (capital : Bool) (f : Str) (a : UInt8) : UInt8 :=
  if capital = true ∧ (f = [] ∨ (f.map tolower).getLast? = some '-'.toUInt8) then
    toupper (tolower a)
  else tolower a

def spellFrom (capital : Bool) (f : Str) : Str → Str
  | [] => []
  | a :: name => spellByte capital f a :: spellFrom capital (f ++ [a]) name

/-- The name as `Content-Type` or as `content-type` is spelled. -/
def spell (capital : Bool) (name : Str) : Str := spellFrom capital [] name

theorem tolower_spelled (c : UInt8) :
    tolower (toupper (tolower c)) = tolower c ∧ tolower (tolower c) = tolower c :=
  forall_byte (P := fun c => tolower (toupper (tolower c)) = tolower c ∧
    tolower (tolower c) = tolower c) (by decide +kernel) c

theorem tolower_spellByte (capital : Bool) (f : Str) (a : UInt8) :
    tolower (spellByte capital f a) = tolower a := by
  unfold spellByte
  split_ifs
  · exact (tolower_spelled a).1
  · exact (tolower_spelled a).2

theorem spellFrom_snoc (capital : Bool) (f name : Str) (a : UInt8) :
    spellFrom capital f (name ++ [a]) =
      spellFrom capital f name ++ [spellByte capital (f ++ name) a] := by
  induction name generalizing f with
  | nil => simp [spellFrom]
  | cons b name ih => simp [spellFrom, ih]

/-- The spelling does not depend on the case of the name. -/
theorem spell_tolower (capital : Bool) (name : Str) :
    spell capital (name.map tolower) = spell capital name := by
  have hfrom : ∀ f, spellFrom capital (f.map tolower) (name.map tolower) =
      spellFrom capital f name := by
    induction name with
    | nil => exact fun f => rfl
    | cons a name ih =>
      intro f
      have hrest := ih (f ++ [a])
      rw [List.map_append, List.map_cons, List.map_nil] at hrest
      have hidem : tolower ∘ tolower = tolower := funext fun c => (tolower_spelled c).2
      simp only [List.map_cons, spellFrom, hrest, spellByte, List.map_eq_nil_iff, List.map_map,
        hidem, (tolower_spelled a).2]
  exact hfrom []

theorem spell_lower (name : Str) : spell false name = name.map tolower := by
  have hfrom : ∀ f, spellFrom false f name = name.map tolower := by
    induction name with
    | nil => exact fun f => rfl
    | cons a name ih =>
      intro f
      simp [spellFrom, spellByte, ih]
  exact hfrom []

/-- The `k`th name has capitals, the others have none. -/
theorem chosen_spelling (k : Nat) : Spelling (fun i f f' => f' = spell (i == k) f)
    (fun i f a b => b = spellByte (i == k) f a) where
  nil _ := rfl
  snoc hf hab := by rw [hf, hab, spell, spell, spellFrom_snoc, List.nil_append]
  caseless h := by rw [h, tolower_spellByte]

/-- A byte of a request, spelled so where it is one of a header name. -/
def Reading.spellByte (k : Nat) (a : UInt8) : Reading → UInt8
  | .going _ p m =>
    if inName p.state = true then
      RequestParser.spellByte (m.flush.headers.length == k) m.flush.field a
    else a
  | _ => a

/-- The request with capitals in its `k`th header name and in no other. -/
def respell (junk : Bool) (k : Nat) (s : Str) : Str :=
  s.mapIdx fun i a => ((startReading junk).text (s.take i)).spellByte k a

theorem respell_getElem? (junk : Bool) (k : Nat) (s : Str) (i : Nat) :
    (respell junk k s)[i]? =
      s[i]?.map fun a => ((startReading junk).text (s.take i)).spellByte k a :=
  List.getElem?_mapIdx

theorem respell_recasing {junk : Bool} {s : Str} (hs : Complete junk s) (k : Nat) :
    Recasing junk s (respell junk k s) where
  caseless := by
    apply List.ext_getElem?
    intro i
    rw [List.getElem?_map, List.getElem?_map, respell_getElem?]
    cases s[i]? with
    | none => rfl
    | some a =>
      simp only [Option.map_some, Option.some.injEq]
      unfold Reading.spellByte
      split
      · split_ifs
        · exact tolower_spellByte _ _ _
        · rfl
      · rfl
  names i h := by
    rw [respell_getElem?] at h
    cases ha : s[i]? with
    | none => simp [ha] at h
    | some a =>
      obtain ⟨hi, -⟩ := List.getElem?_eq_some_iff.mp ha
      obtain ⟨seen, p, m, hr, hp⟩ := reading_before hs hi
      rw [InHeaderName, hp]
      by_contra hin
      rw [ha, hr, Option.map_some, Reading.spellByte, if_neg hin] at h
      exact h rfl

/-- What is read of it. -/
theorem respell_sim {junk : Bool} {s : Str} (hs : Complete junk s) (k : Nat) :
    Sim (fun i f f' => f' = spell (i == k) f) ((startReading junk).text s)
      ((startReading junk).text (respell junk k s)) := by
  refine (complete_spelled (chosen_spelling k) hs (by simp [respell]) fun i a b ha hb => ?_).2
  rw [respell_getElem?, ha, Option.map_some, Option.some.injEq] at hb
  subst hb
  cases (startReading junk).text (s.take i) with
  | going seen p m =>
    rw [Reading.Spelled, Spelled, Reading.spellByte]
    split_ifs <;> rfl
  | complete | failed => trivial

/-! ## The target of a recased request -/

theorem TargetScan.foldl_stage (sc : TargetScan) (bytes : Str) :
    (bytes.foldl TargetScan.byte sc).stage = bytes.foldl ScanStage.next sc.stage := by
  induction bytes generalizing sc with
  | nil => rfl
  | cons ch rest ih => exact ih (sc.byte ch)

theorem TargetScan.read_stage (sc : TargetScan) (data : Str) :
    (sc.read data).stage = data.foldl ScanStage.next sc.stage := by
  rw [read, foldl_stage]
  split_ifs <;> rfl

/-- Bytes that differ behind the target only. -/
theorem foldl_behind {data data' : Str} {sc : TargetScan} (hlen : data'.length = data.length)
    (h : ∀ i, data'[i]? ≠ data[i]? → (data.take i).foldl ScanStage.next sc.stage = .done) :
    data'.foldl TargetScan.byte sc = data.foldl TargetScan.byte sc := by
  induction data generalizing data' sc with
  | nil => rw [List.length_eq_zero_iff.mp hlen]
  | cons a data ih =>
    cases data' with
    | nil => cases hlen
    | cons b data' =>
      by_cases hne : b = a
      · subst hne
        exact ih (by simpa using hlen) fun i hi => h (i + 1) hi
      · have hdone : sc.stage = .done := h 0 (by simpa using hne)
        rw [TargetScan.foldl_done hdone, TargetScan.foldl_done hdone]

/-- Reads of the same lengths that differ behind the target only. -/
theorem reads_behind {reads reads' : List Str} {sc : TargetScan}
    (hlen : reads'.map List.length = reads.map List.length)
    (h : ∀ i, reads'.flatten[i]? ≠ reads.flatten[i]? →
      (reads.flatten.take i).foldl ScanStage.next sc.stage = .done) :
    reads'.foldl TargetScan.read sc = reads.foldl TargetScan.read sc := by
  induction reads generalizing reads' sc with
  | nil => rw [List.map_eq_nil_iff.mp hlen]
  | cons data rest ih =>
    cases reads' with
    | nil => cases hlen
    | cons data' rest' =>
      obtain ⟨hd, hrest⟩ := List.cons.inj hlen
      have hread : sc.read data' = sc.read data := by
        unfold TargetScan.read
        refine foldl_behind hd fun i hi => ?_
        have hi' : i < data.length := by
          by_contra hge
          rw [List.getElem?_eq_none (by omega), List.getElem?_eq_none (by omega)] at hi
          exact hi rfl
        have := h i (by
          rw [List.flatten_cons, List.flatten_cons, List.getElem?_append_left (by omega),
            List.getElem?_append_left hi']
          exact hi)
        rw [List.flatten_cons, List.take_append_of_le_length hi'.le] at this
        split_ifs <;> exact this
      rw [List.foldl_cons, List.foldl_cons, hread]
      refine ih hrest fun i hi => ?_
      have := h (data.length + i) (by
        rw [List.flatten_cons, List.flatten_cons, List.getElem?_append_right (by omega),
          List.getElem?_append_right (by omega), hd, Nat.add_sub_cancel_left]
        exact hi)
      rw [List.flatten_cons, List.take_append, List.take_of_length_le (by omega),
        Nat.add_sub_cancel_left, List.foldl_append] at this
      rwa [TargetScan.read_stage]

theorem stageOf_inName {st : State} (h : inName st = true) : stageOf st = some .done := by
  cases st <;> first | rfl | cases h

/-- Where the parser stands in a header name, the target is behind. -/
theorem inHeaderName_done {junk : Bool} {s : Str} (hs : Complete junk s) {i : Nat}
    (hi : i < s.length) (h : InHeaderName junk s i) :
    (s.take i).foldl ScanStage.next .blank = .done := by
  rcases Nat.eq_zero_or_pos i with rfl | hpos
  · cases h
  have hne : s.take i ≠ [] := by
    rw [ne_eq, List.take_eq_nil_iff, not_or]
    exact ⟨by omega, hs.ne_nil⟩
  obtain ⟨seen, p, m, hr, hp⟩ := reading_before hs hi
  obtain ⟨hgoes, -⟩ := Reading.parse_reading (at_start junk) hne
  rw [← startReading, hr] at hgoes
  obtain ⟨hat, hresult⟩ := hgoes (by simp)
  have hnot := hs.first i hi hpos
  have hind : ((new junk).parse (s.take i)).1 = .indeterminate := by
    rw [hresult, Reading.result] at hnot ⊢
    split_ifs at hnot ⊢ <;> first | rfl | exact absurd rfl hnot
  obtain ⟨-, hscan⟩ := parse_scanned (urlAt_start junk) hne (by rw [hind]; decide)
  have hstage := (hscan hind (hp ▸ hat.2.2.1)).stage
  rw [stageOf_inName h, TargetScan.read_stage] at hstage
  exact (Option.some.inj hstage).symm

/-- **The target does not see the letter case of the headers.** -/
theorem recasing_target {junk : Bool} {s s' : Str} (hs : Complete junk s) (h : Recasing junk s s')
    {reads reads' : List Str} (hc : Cut s reads) (hc' : Cut s' reads')
    (hlen : reads'.map List.length = reads.map List.length) :
    targetTail reads' = targetTail reads := by
  refine congrArg TargetScan.text (reads_behind hlen fun i hi => ?_)
  rw [hc.flatten, hc'.flatten] at hi
  rw [hc.flatten]
  have hlt : i < s.length := by
    by_contra hge
    rw [List.getElem?_eq_none (by rw [h.length]; omega), List.getElem?_eq_none (by omega)] at hi
    exact hi rfl
  exact inHeaderName_done hs hlt (h.names i hi)

end RequestParser

end Wsrv
