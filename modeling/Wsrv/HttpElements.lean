import Wsrv.HttpParser

/-!
# How the parser reports an element

The switch of `http_parser_execute` keeps a discipline with its marks: every
state belongs to at most one element (`owner`), a mark is set where its element
begins, and the data callback runs where it ends (`switch_disciplined`).

Over it stands a reader without marks (`Reader`, `eager`), which takes the text
of an element byte by byte.  When the callbacks add up, so that two pieces of an
element come to the same as one, `http_parser_execute` is the eager reader
(`execute_eager`), and the eager reader does not see where a read ends
(`run_append`).

Two results say that the model of the loop is that of the source: the passes of
a byte through the switch are enough (`byte_passes`), and the bytes of a block
come to what the source does with the block (`loop_block`).
-/

namespace Wsrv.Http

/-! ## The element a state belongs to -/

/-- The element whose text goes on at the next byte. -/
def owner (s : State) : Option Elem :=
  if s.inUrl then some .url
  else match s with
  | .resStatus => some .status
  | .headerField => some .headerField
  | .headerValue => some .headerValue
  | .bodyIdentity | .bodyIdentityEof | .chunkData | .chunkDataAlmostDone => some .body
  | _ => none

/-- How often `reexecute_byte` can follow on a state. -/
def rank : State → Nat
  | .headerValueLws | .headerValueDiscardLws => 3
  | .headerFieldStart => 2
  | .headersAlmostDone | .headerValue | .startReqOrRes | .bodyIdentity => 1
  | _ => 0

/-- **The discipline of a step** from the state `s`.  The error number stays; a mark opens an element or repeats its
owner; a byte of a body is always marked; a data callback reports the element at hand and closes
it; a notification comes between elements; and a byte is seen again between elements only, or
after one is closed. -/
def Step.Disciplined (s : State) (errno : Errno) : Step → Prop
  | .error _ e => e ≠ .ok ∧ e ≠ .paused
  | .go m p call after =>
    p.httpErrno = errno ∧
    (∀ e, m = some e → owner s = none ∨ owner s = some e) ∧
    (after = .again → rank p.state < rank s) ∧
    match call with
    | .none =>
      match after with
      | .next =>
        (owner s = some .body → m = some .body) ∧
          (owner p.state = (m <|> owner s) ∨ (m <|> owner s) = none ∧ owner p.state = some .body)
      | _ => m = none ∧ owner s = none ∧ owner p.state = none
    | .data e withByte _ =>
      (m <|> owner s) = some e ∧ owner p.state = none ∧
        (e = .body → m = none → withByte = false)
    | .notify _ | .headersComplete => m = none ∧ owner s = none ∧ owner p.state = none

@[simp] theorem owner_newMessage (p : HttpParser) : owner (newMessage p) = none := by
  unfold newMessage startState
  split_ifs <;> rfl

theorem parseUrlChar_inUrl (s : State) (ch : UInt8) :
    parseUrlChar s ch = .dead ∨ (parseUrlChar s ch).inUrl := by
  unfold parseUrlChar
  split
  · exact .inl rfl
  split
  · exact .inl rfl
  split
  case h_13 => exact .inl rfl
  all_goals split_ifs <;> first | exact .inl rfl | exact .inr rfl

@[simp] theorem matchWord_state (p : HttpParser) (c : UInt8) (word : Str) (m : HeaderState) :
    (matchWord p c word m).state = p.state := by
  simp only [matchWord]
  split_ifs <;> rfl

@[simp] theorem matchWord_errno (p : HttpParser) (c : UInt8) (word : Str) (m : HeaderState) :
    (matchWord p c word m).httpErrno = p.httpErrno := by
  simp only [matchWord]
  split_ifs <;> rfl

@[simp] theorem headerFieldChar_errno (p : HttpParser) (ch c : UInt8) :
    (headerFieldChar p ch c).httpErrno = p.httpErrno := by
  unfold headerFieldChar
  split <;> first | rfl | exact matchWord_errno _ _ _ _ | (split_ifs <;> rfl)

@[simp] theorem headerFieldChar_state (p : HttpParser) (ch c : UInt8) :
    (headerFieldChar p ch c).state = p.state := by
  unfold headerFieldChar
  split <;> first | rfl | exact matchWord_state _ _ _ _ | (split_ifs <;> rfl)

theorem disciplined_error {s : State} {p : HttpParser} {e errno : Errno}
    (h : e ≠ .ok ∧ e ≠ .paused) : (Step.error p e).Disciplined s errno := h

/-- A step that keeps the state and calls nothing is disciplined, outside of a body. -/
theorem disciplined_stay {s : State} {p : HttpParser} {errno : Errno} (h : p.state = s)
    (hs : owner s ≠ some .body) (he : p.httpErrno = errno) :
    (Step.next p).Disciplined s errno := by
  subst h he
  simp [Step.next, Step.Disciplined, hs]

/-- So is one between two states that belong to no element. -/
theorem disciplined_between {s : State} {p : HttpParser} (h : owner s = none)
    (h' : owner p.state = none) : (Step.next p).Disciplined s p.httpErrno := by
  simp [Step.next, Step.Disciplined, h, h']

theorem disciplined_expect {s : State} (p : HttpParser) (ch want : UInt8) (t : State) (e : Errno)
    (he : e ≠ .ok ∧ e ≠ .paused) (h : owner s = none) (h' : owner t = none) :
    (Step.expect p ch want t e).Disciplined s p.httpErrno := by
  unfold Step.expect
  split_ifs
  · exact disciplined_error he
  · exact disciplined_between h h'

theorem disciplined_finish {s : State} (p : HttpParser) (h : owner s = none) :
    (finish p).Disciplined s p.httpErrno ∧ (finish p .ret).Disciplined s p.httpErrno := by
  simp [finish, Step.Disciplined, h]

theorem disciplined_urlChar {p : HttpParser} {s : State} {ch : UInt8} {m : Option Elem}
    (h : (m = none ∧ owner s = some .url) ∨ (m = some .url ∧ owner s = none)) :
    (urlChar m p ch).Disciplined s p.httpErrno := by
  unfold urlChar
  simp only []
  split_ifs with hd
  · exact disciplined_error (by decide)
  · have hu : owner (parseUrlChar p.state ch) = some .url := by
      simp [owner, (parseUrlChar_inUrl p.state ch).resolve_left hd]
    rcases h with ⟨rfl, ho⟩ | ⟨rfl, ho⟩ <;> simp [Step.Disciplined, ho, hu]

/-! ## The discipline of every state -/

theorem disciplined_firstMajor {s t : State} (p : HttpParser) (ch lo : UInt8)
    (h : owner s = none) (h' : owner t = none) : (firstMajor p ch lo t).Disciplined s p.httpErrno := by
  unfold firstMajor
  split
  · exact disciplined_error (by decide)
  · exact disciplined_between h h'

theorem disciplined_moreMajor {s t : State} (p : HttpParser) (ch : UInt8) (hp : p.state = s)
    (h : owner s = none) (h' : owner t = none) : (moreMajor p ch t).Disciplined s p.httpErrno := by
  unfold moreMajor
  simp only []
  split_ifs
  · exact disciplined_between h h'
  · exact disciplined_error (by decide)
  · exact disciplined_error (by decide)
  · exact disciplined_stay hp (by simp [h]) rfl

theorem disciplined_firstMinor {s t : State} (p : HttpParser) (ch : UInt8)
    (h : owner s = none) (h' : owner t = none) : (firstMinor p ch t).Disciplined s p.httpErrno := by
  unfold firstMinor
  split_ifs
  · exact disciplined_error (by decide)
  · exact disciplined_between h h'

theorem disciplined_moreMinor {s : State} (p : HttpParser) (ch : UInt8) (hp : p.state = s)
    (h : owner s = none) : (moreMinor p ch).Disciplined s p.httpErrno := by
  unfold moreMinor
  simp only []
  split_ifs
  · exact disciplined_error (by decide)
  · exact disciplined_error (by decide)
  · exact disciplined_stay hp (by simp [h]) rfl

theorem disciplined_method (p : HttpParser) (ch : UInt8) (hp : p.state = .reqMethod) :
    (switchMethod p ch).Disciplined .reqMethod p.httpErrno := by
  unfold switchMethod
  simp only []
  split_ifs
  · exact disciplined_error (by decide)
  · exact disciplined_between rfl rfl
  · exact disciplined_stay hp (by decide) rfl
  · split
    · exact disciplined_stay hp (by decide) rfl
    · exact disciplined_error (by decide)

theorem disciplined_start (p : HttpParser) (ch : UInt8) :
    (switchStart p ch).Disciplined p.state p.httpErrno := by
  unfold switchStart
  split <;> rename_i hp <;> try rw [hp]
  · split_ifs
    · exact disciplined_stay hp (by decide) rfl
    · exact disciplined_error (by decide)
  · split_ifs
    · exact disciplined_stay hp (by decide) rfl
    · simp [Step.Disciplined, owner, State.inUrl]
    · simp [Step.again, Step.Disciplined, owner, State.inUrl, rank]
  · split_ifs
    · exact disciplined_between rfl rfl
    · exact disciplined_error (by decide)
    · exact disciplined_between rfl rfl
  · exact disciplined_error (by decide)

theorem disciplined_responseLine (p : HttpParser) (ch : UInt8) :
    (switchResponseLine p ch).Disciplined p.state p.httpErrno := by
  unfold switchResponseLine
  split <;> rename_i hp <;> try rw [hp]
  case h_1 =>
    split_ifs
    · simp [Step.Disciplined, owner, State.inUrl]
    · simp [Step.Disciplined, owner, State.inUrl]
    · exact disciplined_error (by decide)
  case h_6 => exact disciplined_firstMajor p ch _ rfl rfl
  case h_7 => exact disciplined_moreMajor p ch hp rfl rfl
  case h_8 => exact disciplined_firstMinor p ch rfl rfl
  case h_9 =>
    split
    · exact disciplined_between rfl rfl
    · exact disciplined_moreMinor p ch hp rfl
  case h_10 =>
    split_ifs
    · exact disciplined_stay hp (by decide) rfl
    · exact disciplined_error (by decide)
    · exact disciplined_between rfl rfl
  case h_11 =>
    simp only []
    split_ifs <;> first
      | exact disciplined_error (by decide)
      | exact disciplined_between rfl rfl
  case h_12 =>
    split_ifs
    · exact disciplined_between rfl rfl
    · exact disciplined_between rfl rfl
    · simp [Step.Disciplined, owner, State.inUrl]
  case h_13 =>
    split_ifs
    · simp [Step.Disciplined, owner, State.inUrl]
    · simp [Step.Disciplined, owner, State.inUrl]
    · exact disciplined_stay hp (by decide) rfl
  case h_15 => exact disciplined_error (by decide)
  all_goals exact disciplined_expect p ch _ _ _ (by decide) rfl rfl

theorem disciplined_requestTarget (p : HttpParser) (ch : UInt8) :
    (switchRequestTarget p ch).Disciplined p.state p.httpErrno := by
  unfold switchRequestTarget
  split <;> rename_i hp <;> try rw [hp]
  case h_1 =>
    split_ifs
    · exact disciplined_stay hp (by decide) rfl
    · exact disciplined_error (by decide)
    · split
      · simp [Step.Disciplined, owner, State.inUrl]
      · exact disciplined_error (by decide)
  case h_2 => exact disciplined_method p ch hp
  case h_3 =>
    split_ifs
    · exact disciplined_stay hp (by decide) rfl
    · exact disciplined_urlChar (.inr ⟨rfl, rfl⟩)
    · exact disciplined_urlChar (.inr ⟨rfl, rfl⟩)
  case h_15 => exact disciplined_error (by decide)
  case h_4 | h_5 | h_6 | h_7 =>
    split
    · exact disciplined_error (by decide)
    · exact disciplined_urlChar (.inl ⟨rfl, rfl⟩)
  all_goals
    split_ifs <;> first
      | exact disciplined_urlChar (.inl ⟨rfl, rfl⟩)
      | simp [Step.Disciplined, owner, State.inUrl]

theorem disciplined_requestVersion (p : HttpParser) (ch : UInt8) :
    (switchRequestVersion p ch).Disciplined p.state p.httpErrno := by
  unfold switchRequestVersion
  split <;> rename_i hp <;> try rw [hp]
  case h_1 =>
    split_ifs
    · exact disciplined_between rfl rfl
    · exact disciplined_stay hp (by decide) rfl
    · exact disciplined_error (by decide)
  case h_6 => exact disciplined_firstMajor p ch _ rfl rfl
  case h_7 => exact disciplined_moreMajor p ch hp rfl rfl
  case h_8 => exact disciplined_firstMinor p ch rfl rfl
  case h_9 =>
    split_ifs
    · exact disciplined_between rfl rfl
    · exact disciplined_between rfl rfl
    · exact disciplined_moreMinor p ch hp rfl
  case h_11 => exact disciplined_error (by decide)
  all_goals exact disciplined_expect p ch _ _ _ (by decide) rfl rfl

theorem disciplined_headerField (p : HttpParser) (ch : UInt8) :
    (switchHeaderField p ch).Disciplined p.state p.httpErrno := by
  unfold switchHeaderField
  split <;> rename_i hp <;> try rw [hp]
  · simp only []
    split_ifs
    · exact disciplined_between rfl rfl
    · simp [Step.again, Step.Disciplined, owner, State.inUrl, rank]
    · exact disciplined_error (by decide)
    · simp [Step.Disciplined, owner, State.inUrl]
  · simp only []
    split_ifs
    · exact disciplined_stay (by simp [hp]) (by decide) (by simp)
    · simp [Step.Disciplined, owner, State.inUrl]
    · simp [Step.Disciplined, owner, State.inUrl]
    · simp [Step.Disciplined, owner, State.inUrl]
    · exact disciplined_error (by decide)
  · exact disciplined_error (by decide)

theorem disciplined_valueStart {s : State} (p : HttpParser) (ch : UInt8) (h : owner s = none) :
    (headerValueStart p ch).Disciplined s p.httpErrno := by
  have hv : owner .headerValue = some .headerValue := rfl
  unfold headerValueStart
  simp only []
  split
  case h_3 =>
    split
    · exact disciplined_error (by decide)
    · simp [Step.Disciplined, h, hv]
  all_goals simp [Step.Disciplined, h, hv]

theorem disciplined_headerValueStart (p : HttpParser) (ch : UInt8) :
    (switchHeaderValueStart p ch).Disciplined p.state p.httpErrno := by
  unfold switchHeaderValueStart
  split <;> rename_i hp <;> try rw [hp]
  · split_ifs
    · exact disciplined_stay hp (by decide) rfl
    · exact disciplined_between rfl rfl
    · exact disciplined_between rfl rfl
    · exact disciplined_valueStart p ch rfl
  · exact disciplined_valueStart p ch rfl
  · exact disciplined_expect p ch _ _ _ (by decide) rfl rfl
  · split_ifs
    · exact disciplined_between rfl rfl
    · simp [Step.Disciplined, owner, State.inUrl, rank]
  · exact disciplined_error (by decide)

theorem disciplined_valueChar {p : HttpParser} (ch : UInt8) (hp : p.state = .headerValue) :
    (headerValueChar p ch).Disciplined .headerValue p.httpErrno := by
  unfold headerValueChar
  simp only []
  split
  case h_4 =>
    split_ifs
    · exact disciplined_stay hp (by decide) rfl
    · exact disciplined_error (by decide)
    · split
      · exact disciplined_error (by decide)
      · exact disciplined_stay hp (by decide) rfl
  case h_5 | h_6 | h_7 => exact disciplined_stay (by simp [hp]) (by decide) (by simp)
  case h_8 | h_9 | h_10 => exact disciplined_stay (by split_ifs <;> exact hp) (by decide) (by split_ifs <;> rfl)
  all_goals exact disciplined_stay hp (by decide) rfl

theorem disciplined_headerValue (p : HttpParser) (ch : UInt8) :
    (switchHeaderValue p ch).Disciplined p.state p.httpErrno := by
  unfold switchHeaderValue
  split <;> rename_i hp <;> try rw [hp]
  · split_ifs
    · simp [Step.Disciplined, owner, State.inUrl]
    · simp [Step.Disciplined, owner, State.inUrl, rank]
    · exact disciplined_valueChar ch hp
  · exact disciplined_expect p ch _ _ _ (by decide) rfl rfl
  · split_ifs
    · simp [Step.again, Step.Disciplined, owner, State.inUrl, rank]
    · simp [Step.again, Step.Disciplined, owner, State.inUrl, rank]
  · exact disciplined_error (by decide)

theorem disciplined_headersEnd (p : HttpParser) (ch : UInt8) :
    (switchHeadersEnd p ch).Disciplined p.state p.httpErrno := by
  unfold switchHeadersEnd
  split <;> rename_i hp <;> try rw [hp]
  · split_ifs
    · exact disciplined_error (by decide)
    · exact (disciplined_finish p rfl).1
    · simp [Step.Disciplined, owner, State.inUrl, rank]
  · simp only []
    split_ifs <;> first
      | exact disciplined_error (by decide)
      | exact (disciplined_finish _ rfl).1
      | exact (disciplined_finish _ rfl).2
      | exact disciplined_between rfl rfl
      | simp [Step.next, Step.Disciplined, owner, State.inUrl]
  · exact disciplined_error (by decide)

theorem disciplined_chunk (p : HttpParser) (ch : UInt8) :
    (switchChunk p ch).Disciplined p.state p.httpErrno := by
  unfold switchChunk
  split <;> rename_i hp <;> try rw [hp]
  · split
    · exact disciplined_error (by decide)
    · exact disciplined_between rfl rfl
  · split
    · exact disciplined_between rfl rfl
    · split
      · split_ifs
        · exact disciplined_between rfl rfl
        · exact disciplined_error (by decide)
      · split
        · exact disciplined_error (by decide)
        · exact disciplined_stay rfl (by decide) rfl
  · split_ifs
    · exact disciplined_between rfl rfl
    · exact disciplined_stay hp (by decide) rfl
  · simp only []
    split_ifs
    · exact disciplined_error (by decide)
    · exact disciplined_between rfl rfl
    · simp [Step.next, Step.Disciplined, owner, State.inUrl]
  · split_ifs
    · exact disciplined_error (by decide)
    · simp [Step.Disciplined, owner, State.inUrl]
  · split_ifs
    · exact disciplined_error (by decide)
    · exact disciplined_between rfl rfl
  · exact disciplined_error (by decide)

theorem disciplined_body (p : HttpParser) : (switchBody p).Disciplined p.state p.httpErrno := by
  unfold switchBody
  split <;> rename_i hp <;> try rw [hp]
  · simp only []
    split_ifs <;> simp [Step.Disciplined, owner, State.inUrl, rank]
  · simp [Step.Disciplined, owner, State.inUrl, hp]
  · simp only []
    split_ifs <;> simp [Step.Disciplined, owner, State.inUrl]
  · exact (disciplined_finish p rfl).1
  · exact disciplined_error (by decide)

/-- What holds of each part of the switch. -/
theorem switch_parts {P : Step → Prop} {p : HttpParser} {ch : UInt8} (hstart : P (switchStart p ch))
    (hline : P (switchResponseLine p ch)) (htarget : P (switchRequestTarget p ch))
    (hversion : P (switchRequestVersion p ch)) (hfield : P (switchHeaderField p ch))
    (hvalueStart : P (switchHeaderValueStart p ch)) (hvalue : P (switchHeaderValue p ch))
    (hend : P (switchHeadersEnd p ch)) (hchunk : P (switchChunk p ch)) (hbody : P (switchBody p)) :
    P (switch p ch) := by
  unfold switch
  split <;> assumption

/-- **Every step of the switch keeps the discipline.** -/
theorem switch_disciplined (p : HttpParser) (ch : UInt8) : (switch p ch).Disciplined p.state p.httpErrno :=
  switch_parts (P := fun s => s.Disciplined p.state p.httpErrno) (disciplined_start p ch) (disciplined_responseLine p ch)
    (disciplined_requestTarget p ch) (disciplined_requestVersion p ch) (disciplined_headerField p ch)
    (disciplined_headerValueStart p ch) (disciplined_headerValue p ch) (disciplined_headersEnd p ch)
    (disciplined_chunk p ch) (disciplined_body p)

/-! ## Passes of one byte -/

variable {σ τ : Type}

theorem parserPause_state (p : HttpParser) (paused : Bool) :
    (parserPause p paused).state = p.state := by
  unfold parserPause
  split <;> rfl

theorem parserPause_ok {p : HttpParser} (hok : p.httpErrno = .ok) :
    (parserPause p true).httpErrno = .paused := by
  simp [parserPause, hok]

@[simp] theorem settle_state (r : Reply σ) (e : Errno) (p : HttpParser) :
    (r.settle e p).state = p.state := by
  unfold Reply.settle parserPause
  split_ifs <;> rfl

@[simp] theorem settleHeaders_state (r : Reply σ) (p : HttpParser) :
    (r.settleHeaders p).state = p.state := by
  unfold Reply.settleHeaders parserPause
  simp only []
  split_ifs <;> rfl

@[simp] theorem parser_mark (f : Locals σ) (m : Option Elem) : (f.mark m).parser = f.parser := by
  cases m <;> rfl

@[simp] theorem mark_user (f : Locals σ) (m : Option Elem) : (f.mark m).user = f.user := by
  cases m <;> rfl

@[simp] theorem runCall_state (cfg : Settings σ) (ch : UInt8) (f : Locals σ) (call : Call) :
    (runCall cfg ch f call).1.parser.state = f.parser.state := by
  cases call with
  | none => rfl
  | data e withByte consume =>
    simp only [runCall, Locals.callData]
    split <;> simp
  | notify n => simp [runCall, Locals.callNotify]
  | headersComplete => simp [runCall, Locals.callHeadersComplete]

/-- More fuel than the state can use makes no difference. -/
theorem byte_fuel (cfg : Settings σ) (ch : UInt8) (n k : Nat) (f : Locals σ)
    (hn : rank f.parser.state < n) : byte cfg (n + k) ch f = byte cfg n ch f := by
  induction n generalizing f with
  | zero => omega
  | succ n ih =>
    have hd := switch_disciplined f.parser ch
    rw [Nat.succ_add_eq_add_succ, Nat.add_succ, byte, byte]
    cases hs : switch f.parser ch with
    | error p e => rfl
    | go m p call after =>
      rw [hs] at hd
      have hstate := runCall_state cfg ch (({ f with parser := p } : Locals σ).mark m) call
      rcases hc : runCall cfg ch (({ f with parser := p } : Locals σ).mark m) call with
        ⟨f', _ | used⟩
      · rw [hc] at hstate
        cases after with
        | next => simp only [hc]
        | ret => simp only [hc]
        | again =>
          have hrank : rank p.state < rank f.parser.state := hd.2.2.1 rfl
          have hf : f'.parser.state = p.state := hstate.trans (by simp)
          simp only [hc]
          exact ih f' (by rw [hf]; omega)
      · simp only [hc]

theorem rank_lt_passes (s : State) : rank s < passes := by
  cases s <;> decide

/-- **`reexecute_byte` never runs out**: the passes that `stepByte` has are as good as any more. -/
theorem byte_passes (cfg : Settings σ) (ch : UInt8) (k : Nat) (f : Locals σ) :
    byte cfg (passes + k) ch f = byte cfg passes ch f :=
  byte_fuel cfg ch passes k f (rank_lt_passes _)

/-! ## Blocks of a body -/

/-- A byte of a body that is not its last is marked and counted, nothing else. -/
theorem stepByte_body (cfg : Settings σ) (ch : UInt8) (f : Locals σ)
    (hs : f.parser.state = .bodyIdentity ∨ f.parser.state = .chunkData)
    (hlen : 1 < f.parser.contentLength) :
    stepByte cfg ch f = .next
      ((({ f with parser := { f.parser with
        contentLength := f.parser.contentLength - 1 } } : Locals σ).mark (some .body)).advance
          ch) := by
  have hne : ¬f.parser.contentLength - 1 = 0 := by omega
  rcases hs with hs | hs <;>
    simp [stepByte, countByte, parsingHeader, passes, byte, switch, switchBody, runCall, hs, hne]

/-- **Bytes of a block before its end** are one step of the source: `content_length` goes down by
their number and the mark of the body stands before them. -/
theorem loop_block (cfg : Settings σ) (bytes : Str) (f : Locals σ)
    (hs : f.parser.state = .bodyIdentity ∨ f.parser.state = .chunkData)
    (hlen : bytes.length < f.parser.contentLength) :
    let r := loop cfg bytes f
    r.1 = none ∧ r.2.user = f.user ∧
      r.2.parser = { f.parser with contentLength := f.parser.contentLength - bytes.length } ∧
      (bytes ≠ [] → r.2.marks .body = some ((f.marks .body).getD [] ++ bytes)) := by
  induction bytes generalizing f with
  | nil => exact ⟨rfl, rfl, rfl, fun h => absurd rfl h⟩
  | cons ch rest ih =>
    rw [List.length_cons] at hlen
    rw [loop, stepByte_body cfg ch f hs (by omega)]
    obtain ⟨h1, h2, h3, h4⟩ := ih ((({ f with parser := { f.parser with
      contentLength := f.parser.contentLength - 1 } } : Locals σ).mark (some .body)).advance ch)
      hs (by simp only [Locals.advance, parser_mark]; omega)
    refine ⟨by simp [h1], h2, h3.trans ?_, fun _ => ?_⟩
    · simp only [Locals.advance, parser_mark, List.length_cons]
      congr 1
      omega
    · cases rest with
      | nil => simp [loop, Locals.mark, Locals.advance]
      | cons c rest =>
        refine (h4 (by simp)).trans ?_
        simp [Locals.mark, Locals.advance]

/-! ## The eager reader -/

/-- What callbacks do to the things a reader keeps. -/
structure Reader (τ : Type) where
  deliver : Elem → Str → τ → τ
  notify : Notify → HttpParser → τ → Reply τ
  headersComplete : HttpParser → τ → Reply τ

/-- Two pieces of an element come to the same as their concatenation, and an empty piece of a
body is nothing. -/
structure Reader.Additive (rd : Reader τ) : Prop where
  append : ∀ e a b u, rd.deliver e (a ++ b) u = rd.deliver e b (rd.deliver e a u)
  body_nil : ∀ u, rd.deliver .body [] u = u

def Reply.map (view : σ → τ) (r : Reply σ) : Reply τ := ⟨r.code, r.pause, view r.user⟩

/-- The callbacks `cfg` do to the `view` of their object what the reader does, and a data callback
neither fails nor pauses. -/
structure Reads (cfg : Settings σ) (rd : Reader τ) (view : σ → τ) : Prop where
  data : ∀ e p text u, (cfg.data e p text u).map view = .skip (rd.deliver e text (view u))
  notify : ∀ n p u, (cfg.notify n p u).map view = rd.notify n p (view u)
  headersComplete : ∀ p u, (cfg.headersComplete p u).map view = rd.headersComplete p (view u)

namespace Reader

variable (rd : Reader τ)

/-- Text of the element at hand, if there is one. -/
def feed (o : Option Elem) (text : Str) (u : τ) : τ :=
  match o with
  | none => u
  | some e => rd.deliver e text u

def call (ch : UInt8) (p : HttpParser) (u : τ) : Call → (HttpParser × τ) × Option Nat
  | .none => ((p, u), none)
  | .data e withByte consume =>
    ((p, rd.deliver e (if withByte then [ch] else []) u),
      checkErrno (if consume then 1 else 0) p)
  | .notify n =>
    let r := rd.notify n p u
    ((r.settle n.errno p, r.user), checkErrno 1 (r.settle n.errno p))
  | .headersComplete =>
    let r := rd.headersComplete p u
    ((r.settleHeaders p, r.user), checkErrno 0 (r.settleHeaders p))

/-- The callbacks return 0. -/
structure Accepts : Prop where
  notify : ∀ n p u, (rd.notify n p u).code = 0
  headersComplete : ∀ p u, (rd.headersComplete p u).code = 0

/-- What comes of a callback that returns 0, behind `used` bytes: it may pause the parser. -/
def accepted (used : Nat) (r : Reply τ) (p : HttpParser) : (HttpParser × τ) × Option Nat :=
  if r.pause then ((parserPause p true, r.user), some used) else ((p, r.user), none)

variable {rd} in
theorem Accepts.call_eq (h : rd.Accepts) (ch : UInt8) {p : HttpParser} (hok : p.httpErrno = .ok)
    (u : τ) (c : Call) :
    rd.call ch p u c =
      match c with
      | .none => ((p, u), none)
      | .data e w _ => ((p, rd.deliver e (if w then [ch] else []) u), none)
      | .notify n => accepted 1 (rd.notify n p u) p
      | .headersComplete => accepted 0 (rd.headersComplete p u) p := by
  have hpause := parserPause_ok hok
  cases c with
  | none => rfl
  | data e w k => simp [call, checkErrno, hok]
  | notify n =>
    have hcode := h.notify n p u
    simp only [call, accepted, Reply.settle, hcode]
    cases (rd.notify n p u).pause <;> simp [checkErrno, hok, hpause]
  | headersComplete =>
    have hcode := h.headersComplete p u
    simp only [call, accepted, Reply.settleHeaders, hcode]
    cases (rd.headersComplete p u).pause <;> simp [checkErrno, hok, hpause]

/-- One byte without marks: what belongs to an element is delivered at once. -/
def byte : Nat → UInt8 → HttpParser → τ → Option Nat × HttpParser × τ
  | 0, _, p, u => (some 0, { p with httpErrno := .invalidInternalState }, u)
  | fuel + 1, ch, p, u =>
    match switch p ch with
    | .error p' e => (some 0, { p' with httpErrno := e }, u)
    | .go m p' c after =>
      match rd.call ch p' u c with
      | ((p', u'), some used) => (some used, p', u')
      | ((p', u'), none) => match after with
        | .next => (none, p', if c = .none then rd.feed (m <|> owner p.state) [ch] u' else u')
        | .again => byte fuel ch p' u'
        | .ret => (some 1, p', u')

variable {rd} in
/-- What a byte does behind a callback that does not stop the parser. -/
theorem after_cases {P : Option Nat × HttpParser × τ → Prop} {fuel : Nat} {ch : UInt8}
    {p' : HttpParser} {o : Option Elem} {c : Call} {u : τ} {after : After} : after ≠ .ret →
      P (none, p', if c = .none then rd.feed o [ch] u else u) →
      (after = .again → P (rd.byte fuel ch p' u)) →
      P (match after with
        | .next => (none, p', if c = .none then rd.feed o [ch] u else u)
        | .again => rd.byte fuel ch p' u
        | .ret => (some 1, p', u)) := by
  intro hret hnext hagain
  cases after with
  | next => exact hnext
  | again => exact hagain rfl
  | ret => exact absurd rfl hret

def stepByte (ch : UInt8) (p : HttpParser) (u : τ) : Option Nat × HttpParser × τ :=
  if parsingHeader p.state ∧ HTTP_MAX_HEADER_SIZE < (countByte p).nread then
    (some 0, { countByte p with httpErrno := .headerOverflow }, u)
  else rd.byte passes ch (countByte p) u

/-- The bytes of a read, or of many: `none` when all of them were used. -/
def run : Str → HttpParser → τ → Option Nat × HttpParser × τ
  | [], p, u => (none, p, u)
  | ch :: rest, p, u =>
    match rd.stepByte ch p u with
    | (none, p', u') =>
      let r := run rest p' u'
      (r.1.map (· + 1), r.2)
    | (some used, p', u') => (some used, p', u')

/-- An element that goes on has been delivered so far. -/
def Settled (p : HttpParser) (u : τ) : Prop :=
  ∀ e, owner p.state = some e → rd.deliver e [] u = u

/-- Something that no text of an element changes. -/
def Ignores (c : τ → Bool) : Prop := ∀ e text u, c (rd.deliver e text u) = c u

variable {rd} in
theorem settled_between {p : HttpParser} {u : τ} (h : owner p.state = none) : rd.Settled p u := by
  intro e he
  rw [h] at he
  cases he

variable {rd} in
/-- A byte that is not the last leaves no error, and what it belongs to is delivered. -/
theorem byte_settled (ha : rd.Additive) {n : Nat} {ch : UInt8} {p p' : HttpParser} {u u' : τ}
    (h : rd.byte n ch p u = (none, p', u')) (hok : p.httpErrno = .ok) (hs : rd.Settled p u) :
    p'.httpErrno = .ok ∧ rd.Settled p' u' := by
  induction n generalizing p u with
  | zero => cases h
  | succ n ih =>
    have hd := switch_disciplined p ch
    rw [byte] at h
    cases hsw : switch p ch with
    | error q e =>
      rw [hsw] at h
      cases h
    | go m q c after =>
      rw [hsw] at h hd
      obtain ⟨herr, hm, -, hd⟩ := hd
      rw [hok] at herr
      by_cases hc : c = .none
      · subst hc
        cases after with
        | next =>
          obtain ⟨-, hcase⟩ := hd
          simp only [call, if_true] at h
          obtain ⟨rfl, rfl⟩ : q = p' ∧ rd.feed (m <|> owner p.state) [ch] u = u' := by
            simpa using h
          refine ⟨herr, fun e he => ?_⟩
          rcases hcase with heq | ⟨-, hbody⟩
          · rw [← heq, he, feed, ← ha.append, List.append_nil]
          · obtain rfl : Elem.body = e := Option.some.inj (hbody.symm.trans he)
            exact ha.body_nil _
        | again => exact ih h herr (settled_between hd.2.2)
        | ret => cases h
      · have hnone : owner q.state = none := by
          cases c with
          | none => exact absurd rfl hc
          | data e w k => exact hd.2.1
          | notify n => exact hd.2.2
          | headersComplete => exact hd.2.2
        have hstate : (rd.call ch q u c).1.1.state = q.state := by
          cases c <;> simp [call]
        have hstop : (rd.call ch q u c).2 = none → (rd.call ch q u c).1.1.httpErrno = .ok := by
          cases c with
          | none => exact absurd rfl hc
          | data e w k => simp [call, checkErrno]
          | notify n => simp [call, checkErrno]
          | headersComplete => simp [call, checkErrno]
        rcases hcall : rd.call ch q u c with ⟨⟨q', v⟩, _ | used⟩
        · rw [hcall] at hstate hstop
          simp only [hcall, if_neg hc] at h
          have hbetween : ∀ v, rd.Settled q' v := fun v => settled_between (hstate ▸ hnone)
          cases after with
          | next =>
            obtain ⟨rfl, rfl⟩ : q' = p' ∧ v = u' := by simpa using h
            exact ⟨hstop rfl, hbetween _⟩
          | again => exact ih h (hstop rfl) (hbetween v)
          | ret => cases h
        · simp only [hcall] at h
          cases h

variable {rd} in
/-- After bytes that do not end the run the reader can go on with another read. -/
theorem run_settled (ha : rd.Additive) {bytes : Str} {p p' : HttpParser} {u u' : τ}
    (h : rd.run bytes p u = (none, p', u')) (hok : p.httpErrno = .ok) (hs : rd.Settled p u) :
    p'.httpErrno = .ok ∧ rd.Settled p' u' := by
  induction bytes generalizing p u with
  | nil =>
    obtain ⟨rfl, rfl⟩ : p = p' ∧ u = u' := by simpa [run] using h
    exact ⟨hok, hs⟩
  | cons ch rest ih =>
    rw [run] at h
    rcases hstep : rd.stepByte ch p u with ⟨_ | used, q, v⟩
    · simp only [hstep] at h
      have hrest : rd.run rest q v = (none, p', u') := by
        rcases hr : rd.run rest q v with ⟨_ | k, q', v'⟩ <;> simp [hr] at h ⊢
        exact h
      unfold stepByte at hstep
      split at hstep
      · cases hstep
      · have hcount : (countByte p).state = p.state := by
          unfold countByte
          split_ifs <;> rfl
        have herr : (countByte p).httpErrno = .ok := by
          unfold countByte
          split_ifs <;> exact hok
        obtain ⟨hq, hsq⟩ := byte_settled ha hstep herr (by unfold Settled; rw [hcount]; exact hs)
        exact ih hrest hq hsq
    · simp only [hstep] at h
      cases h

/-- `rd'` keeps more than `rd`, and `view` forgets it. -/
structure Forgets {τ' : Type} (rd' : Reader τ') (rd : Reader τ) (view : τ' → τ) : Prop where
  deliver : ∀ e text u, rd.deliver e text (view u) = view (rd'.deliver e text u)
  notify : ∀ n p u, rd.notify n p (view u) = (rd'.notify n p u).map view
  headersComplete : ∀ p u, rd.headersComplete p (view u) = (rd'.headersComplete p u).map view

section Forgets

variable {τ' : Type} {rd' : Reader τ'} {view : τ' → τ} {rd}

theorem Forgets.call (h : Forgets rd' rd view) (ch : UInt8) (p : HttpParser) (u : τ') (c : Call) :
    rd.call ch p (view u) c =
      (((rd'.call ch p u c).1.1, view (rd'.call ch p u c).1.2), (rd'.call ch p u c).2) := by
  cases c with
  | none => rfl
  | data e w k => simp only [Reader.call, h.deliver]
  | notify n => simp only [Reader.call, h.notify]; rfl
  | headersComplete => simp only [Reader.call, h.headersComplete]; rfl

theorem Forgets.byte (h : Forgets rd' rd view) (n : Nat) (ch : UInt8) (p : HttpParser) (u : τ') :
    rd.byte n ch p (view u) =
      ((rd'.byte n ch p u).1, (rd'.byte n ch p u).2.1, view (rd'.byte n ch p u).2.2) := by
  induction n generalizing p u with
  | zero => rfl
  | succ n ih =>
    rw [Reader.byte, Reader.byte]
    cases switch p ch with
    | error q e => rfl
    | go m q c after =>
      simp only [h.call]
      rcases rd'.call ch q u c with ⟨⟨q', v⟩, _ | used⟩
      · cases after with
        | next =>
          simp only [feed]
          split_ifs
          · cases m <|> owner p.state with
            | none => rfl
            | some e => simp only [h.deliver]
          · rfl
        | again => exact ih q' v
        | ret => rfl
      · rfl

theorem Forgets.run (h : Forgets rd' rd view) (bytes : Str) (p : HttpParser) (u : τ') :
    rd.run bytes p (view u) =
      ((rd'.run bytes p u).1, (rd'.run bytes p u).2.1, view (rd'.run bytes p u).2.2) := by
  have hstep : ∀ ch p u, rd.stepByte ch p (view u) =
      ((rd'.stepByte ch p u).1, (rd'.stepByte ch p u).2.1, view (rd'.stepByte ch p u).2.2) := by
    intro ch p u
    unfold stepByte
    split_ifs
    · rfl
    · exact h.byte _ _ _ _
  induction bytes generalizing p u with
  | nil => rfl
  | cons ch rest ih =>
    rw [Reader.run, Reader.run, hstep]
    rcases rd'.stepByte ch p u with ⟨_ | used, p', u'⟩
    · simp only [ih]
    · rfl

end Forgets

/-- **The eager reader does not see where a read ends.** -/
theorem run_append (a b : Str) (p : HttpParser) (u : τ) :
    rd.run (a ++ b) p u =
      match rd.run a p u with
      | (none, p', u') =>
        let r := rd.run b p' u'
        (r.1.map (· + a.length), r.2)
      | (some used, p', u') => (some used, p', u') := by
  induction a generalizing p u with
  | nil => simp [run]
  | cons ch rest ih =>
    rw [List.cons_append, run, run]
    rcases hs : rd.stepByte ch p u with ⟨_ | used, p', u'⟩
    · simp only []
      rw [ih]
      rcases rd.run rest p' u' with ⟨_ | used, q, v⟩
      · simp [Option.map_map, Function.comp_def, Nat.add_assoc]
      · rfl
    · rfl

end Reader

/-! ## The marks hold what the eager reader has taken -/

namespace Locals

/-- The marks when the current byte belongs to `o`: no other mark is set, and this one is, unless
no byte of a body has come yet. -/
structure Tidy (o : Option Elem) (f : Locals σ) : Prop where
  only : ∀ e, f.marks e ≠ none → o = some e
  set : ∀ e, o = some e → e ≠ .body → f.marks e ≠ none

/-- What the eager reader has made of the bytes so far. -/
def seen (rd : Reader τ) (view : σ → τ) (o : Option Elem) (f : Locals σ) : τ :=
  match o with
  | none => view f.user
  | some e => match f.marks e with
    | none => view f.user
    | some text => rd.deliver e text (view f.user)

theorem ignores_seen {rd : Reader τ} {c : τ → Bool} (hc : rd.Ignores c) (view : σ → τ)
    (o : Option Elem) (f : Locals σ) : c (view f.user) = c (f.seen rd view o) := by
  unfold seen
  cases o with
  | none => rfl
  | some e =>
    simp only []
    split
    · rfl
    · exact (hc _ _ _).symm

theorem Tidy.marks_none {f : Locals σ} (h : f.Tidy none) (e : Elem) : f.marks e = none := by
  by_contra hne
  exact nomatch h.only e hne

/-- Without marks everything has been delivered. -/
theorem seen_unmarked (rd : Reader τ) (view : σ → τ) (o : Option Elem) {f : Locals σ}
    (h : ∀ e, f.marks e = none) : f.seen rd view o = view f.user := by
  unfold seen
  cases o with
  | none => rfl
  | some e => simp [h e]

/-- A frame without marks is tidy between the elements and before a body. -/
theorem tidy_unmarked {f : Locals σ} {o : Option Elem} (h : ∀ e, f.marks e = none)
    (ho : o = none ∨ o = some .body) : f.Tidy o where
  only e he := absurd (h e) he
  set e he hb := by
    rcases ho with rfl | rfl
    · cases he
    · cases he
      exact absurd rfl hb

theorem mark_marks (f : Locals σ) (e e' : Elem) :
    (f.mark (some e)).marks e' = if e' = e then some ((f.marks e).getD []) else f.marks e' := by
  simp [mark, Function.update_apply]

end Locals

section Refinement

variable {cfg : Settings σ} {rd : Reader τ} {view : σ → τ}

open Locals

theorem Reads.data_user (hr : Reads cfg rd view) (e : Elem) (p : HttpParser) (text : Str) (u : σ) :
    view (cfg.data e p text u).user = rd.deliver e text (view u) :=
  congrArg Reply.user (hr.data e p text u)

theorem Reads.data_settle (hr : Reads cfg rd view) (e : Elem) (p : HttpParser) (text : Str)
    (u : σ) (failed : Errno) : (cfg.data e p text u).settle failed p = p := by
  have hc : (cfg.data e p text u).code = 0 := congrArg Reply.code (hr.data e p text u)
  have hp : (cfg.data e p text u).pause = false := congrArg Reply.pause (hr.data e p text u)
  simp [Reply.settle, hc, hp]

theorem settle_map (r : Reply σ) (e : Errno) (p : HttpParser) :
    (r.map view).settle e p = r.settle e p := rfl

theorem settleHeaders_map (r : Reply σ) (p : HttpParser) :
    (r.map view).settleHeaders p = r.settleHeaders p := rfl

/-- A byte that goes to the element at hand. -/
theorem seen_advance (ha : rd.Additive) {o m : Option Elem} {f : Locals σ} (ch : UInt8)
    (ht : f.Tidy o) (hm : ∀ e, m = some e → o = none ∨ o = some e)
    (hb : o = some .body → m = some .body) :
    ((f.mark m).advance ch).Tidy (m <|> o) ∧
      ((f.mark m).advance ch).seen rd view (m <|> o) =
        rd.feed (m <|> o) [ch] (f.seen rd view o) := by
  cases m with
  | none =>
    refine ⟨⟨fun e he => ?_, fun e he hne => ?_⟩, ?_⟩
    · exact ht.only e (by simpa [mark, advance] using he)
    · simpa [mark, advance] using ht.set e he hne
    · cases o with
      | none => rfl
      | some e =>
        have hne : e ≠ .body := by
          rintro rfl
          exact nomatch hb rfl
        rcases hs : f.marks e with _ | text
        · exact absurd hs (ht.set e rfl hne)
        · simp [mark, advance, seen, Reader.feed, hs, ha.append]
  | some e =>
    have hother : ∀ e', e' ≠ e → f.marks e' = none := by
      intro e' hne
      by_contra hset
      have ho := ht.only e' hset
      rcases hm e rfl with h | h
      · simp [h] at ho
      · exact hne (Option.some.inj (ho.symm.trans h))
    refine ⟨⟨fun e' he => ?_, fun e' he _ => ?_⟩, ?_⟩
    · by_cases h : e' = e
      · simp [h]
      · simp [advance, mark_marks, h, hother e' h] at he
    · obtain rfl : e = e' := by simpa using he
      simp [advance, mark_marks]
    · rcases hm e rfl with rfl | rfl
      · simp [advance, seen, mark_marks, Reader.feed, ht.marks_none]
      · rcases hs : f.marks e with _ | text
        · simp [advance, seen, mark_marks, Reader.feed, hs]
        · simp [advance, seen, mark_marks, Reader.feed, hs, ha.append]

/-- The data callback at the end of an element. -/
theorem callData_seen (hr : Reads cfg rd view) (ha : rd.Additive) {o m : Option Elem}
    {f : Locals σ} {e : Elem} {last : Str} (ht : f.Tidy o)
    (hm : ∀ e, m = some e → o = none ∨ o = some e) (he : (m <|> o) = some e)
    (hl : e = .body → m = none → last = []) :
    ((f.mark m).callData cfg e last).parser = f.parser ∧
      (∀ e', ((f.mark m).callData cfg e last).marks e' = none) ∧
      view ((f.mark m).callData cfg e last).user = rd.deliver e last (f.seen rd view o) := by
  have hother : ∀ e', e' ≠ e → (f.mark m).marks e' = none := by
    intro e' hne
    by_contra hset
    cases m with
    | none =>
      have ho := ht.only e' hset
      exact hne (Option.some.inj (ho.symm.trans he))
    | some e₁ =>
      obtain rfl : e₁ = e := by simpa using he
      rw [mark_marks, if_neg hne] at hset
      have ho := ht.only e' hset
      rcases hm e₁ rfl with h | h
      · simp [h] at ho
      · exact hne (Option.some.inj (ho.symm.trans h))
  unfold callData
  rcases hs : (f.mark m).marks e with _ | text
  · -- only the mark of a body can be missing, and then the callback has nothing to report
    cases m with
    | some e₁ =>
      obtain rfl : e₁ = e := by simpa using he
      simp [mark_marks] at hs
    | none =>
      have ho : o = some e := he
      have hbody : e = .body := by
        by_contra hne
        exact ht.set e ho hne hs
      subst hbody
      have hs' : f.marks .body = none := hs
      refine ⟨rfl, fun e' => ?_, ?_⟩
      · rcases eq_or_ne e' .body with rfl | hne
        · exact hs
        · exact hother e' hne
      · simp [ho, seen, hs', hl rfl rfl, ha.body_nil]
  · refine ⟨by simp [hr.data_settle], fun e' => ?_, ?_⟩
    · rcases eq_or_ne e' e with rfl | hne
      · simp
      · simp [hne, hother e' hne]
    · simp only [mark_user, hr.data_user]
      cases m with
      | none =>
        have ho : o = some e := he
        have hs' : f.marks e = some text := hs
        simp [ho, seen, hs', ha.append]
      | some e₁ =>
        obtain rfl : e₁ = e := by simpa using he
        rw [mark_marks, if_pos rfl] at hs
        obtain rfl : (f.marks e₁).getD [] = text := by simpa using hs
        rcases hm e₁ rfl with rfl | rfl
        · simp [seen, ht.marks_none]
        · rcases hs₂ : f.marks e₁ with _ | text₂ <;> simp [seen, hs₂, ha.append]

/-- The loop and the eager reader at the same point: the same parser, and the marks hold what the
eager reader has taken already.  After an error of the parser the text behind a mark is lost. -/
def Follows (rd : Reader τ) (view : σ → τ) : Outcome σ → Option Nat × HttpParser × τ → Prop
  | .next f, r =>
    r.1 = none ∧ f.parser = r.2.1 ∧ f.Tidy (owner f.parser.state) ∧
      f.seen rd view (owner f.parser.state) = r.2.2
  | .stop used f, r =>
    r.1 = some used ∧ f.parser = r.2.1 ∧ (∀ c, rd.Ignores c → c (view f.user) = c r.2.2) ∧
      (f.parser.httpErrno = .ok ∨ f.parser.httpErrno = .paused → view f.user = r.2.2)

/-- A callback of the source is the callback of the eager reader, and afterwards nothing is left
behind a mark. -/
theorem runCall_follows (hr : Reads cfg rd view) (ha : rd.Additive) (ch : UInt8)
    {o m : Option Elem} {f : Locals σ} {c : Call} (ht : f.Tidy o)
    (hm : ∀ e, m = some e → o = none ∨ o = some e) (hc : c ≠ .none)
    (hdata : ∀ e w k, c = .data e w k → (m <|> o) = some e ∧ (e = .body → m = none → w = false))
    (hother : (∀ e w k, c ≠ .data e w k) → m = none ∧ o = none) :
    let r := runCall cfg ch (f.mark m) c
    let s := rd.call ch f.parser (f.seen rd view o) c
    r.1.parser = s.1.1 ∧ r.2 = s.2 ∧ (∀ e, r.1.marks e = none) ∧ view r.1.user = s.1.2 := by
  cases c with
  | none => exact absurd rfl hc
  | data e w k =>
    obtain ⟨he, hw⟩ := hdata e w k rfl
    have hl : e = .body → m = none → (if w then [ch] else []) = ([] : Str) := by
      intro hb hn
      simp [hw hb hn]
    obtain ⟨hp, hmarks, huser⟩ := callData_seen hr ha ht hm he hl
    exact ⟨hp, by simp [runCall, Reader.call, hp], hmarks, huser⟩
  | notify n =>
    obtain ⟨rfl, rfl⟩ := hother (by simp)
    have hrep := hr.notify n f.parser f.user
    refine ⟨?_, ?_, ht.marks_none, ?_⟩
    · simp only [runCall, callNotify, Reader.call, mark, seen, ← hrep, settle_map]
    · simp only [runCall, callNotify, Reader.call, mark, seen, ← hrep, settle_map]
    · simp only [runCall, callNotify, Reader.call, mark, seen, ← hrep, Reply.map]
  | headersComplete =>
    obtain ⟨rfl, rfl⟩ := hother (by simp)
    have hrep := hr.headersComplete f.parser f.user
    refine ⟨?_, ?_, ht.marks_none, ?_⟩
    · simp only [runCall, callHeadersComplete, Reader.call, mark, seen, ← hrep, settleHeaders_map]
    · simp only [runCall, callHeadersComplete, Reader.call, mark, seen, ← hrep, settleHeaders_map]
    · simp only [runCall, callHeadersComplete, Reader.call, mark, seen, ← hrep, Reply.map]

/-- One byte of the source is one byte of the eager reader. -/
theorem byte_follows (hr : Reads cfg rd view) (ha : rd.Additive) (ch : UInt8) (n : Nat)
    (f : Locals σ) (ht : f.Tidy (owner f.parser.state)) :
    Follows rd view (byte cfg n ch f)
      (rd.byte n ch f.parser (f.seen rd view (owner f.parser.state))) := by
  induction n generalizing f with
  | zero =>
    exact ⟨rfl, rfl, fun c hc => ignores_seen hc view _ f, fun h => by simp at h⟩
  | succ n ih =>
    have hd := switch_disciplined f.parser ch
    rw [byte, Reader.byte]
    generalize ho : owner f.parser.state = o at ht
    cases hs : switch f.parser ch with
    | error p e =>
      rw [hs] at hd
      exact ⟨rfl, rfl, fun c hc => ignores_seen hc view _ f, fun h => absurd h (not_or.mpr hd)⟩
    | go m p c after =>
      rw [hs] at hd
      obtain ⟨-, hm, -, hd⟩ := hd
      rw [ho] at hm hd
      have ht' : ({ f with parser := p } : Locals σ).Tidy o := ⟨ht.only, ht.set⟩
      have hseen : ({ f with parser := p } : Locals σ).seen rd view o = f.seen rd view o := rfl
      by_cases hc : c = .none
      · subst hc
        cases after with
        | next =>
          obtain ⟨hb, hcase⟩ := hd
          obtain ⟨htidy, hadv⟩ := @seen_advance _ _ rd view ha _ _ _ ch ht' hm hb
          refine ⟨rfl, by simp [advance, Reader.call], ?_⟩
          have hp : (((({ f with parser := p } : Locals σ).mark m).advance ch).parser) = p := by
            simp [advance]
          simp only [Reader.call, hp]
          rcases hcase with heq | ⟨hnone, hbody⟩
          · rw [heq]
            exact ⟨htidy, hadv⟩
          · rw [hnone] at htidy hadv ⊢
            rw [hbody]
            refine ⟨tidy_unmarked htidy.marks_none (.inr rfl), ?_⟩
            rw [seen_unmarked rd view _ htidy.marks_none, ← hseen]
            rwa [seen_unmarked rd view _ htidy.marks_none] at hadv
        | again =>
          obtain ⟨rfl, rfl, hnone⟩ := hd
          have hnext := ih { f with parser := p } (by rw [hnone]; exact ht')
          rwa [hnone] at hnext
        | ret =>
          obtain ⟨rfl, rfl, hnone⟩ := hd
          exact ⟨rfl, rfl, fun _ _ => rfl, fun _ => rfl⟩
      · have hstate := runCall_state cfg ch (({ f with parser := p } : Locals σ).mark m) c
        have hnone : owner p.state = none := by
          cases c with
          | none => exact absurd rfl hc
          | data e w k => exact hd.2.1
          | notify n => exact hd.2.2
          | headersComplete => exact hd.2.2
        obtain ⟨hp, hstop, hmarks, huser⟩ := runCall_follows hr ha ch ht' hm hc
          (by rintro e w k rfl; exact ⟨hd.1, hd.2.2⟩)
          (by
            intro hdata
            cases c with
            | none => exact absurd rfl hc
            | data e w k => exact absurd rfl (hdata e w k)
            | notify n => exact ⟨hd.1, hd.2.1⟩
            | headersComplete => exact ⟨hd.1, hd.2.1⟩)
        rw [hseen] at hp hstop huser
        rcases hf : runCall cfg ch (({ f with parser := p } : Locals σ).mark m) c with ⟨f', k⟩
        rcases hg : rd.call ch p (f.seen rd view o) c with ⟨⟨p', u'⟩, k'⟩
        simp only [hf, hg]
        rw [hf] at hp hstop huser hmarks hstate
        rw [hg] at hp hstop huser
        obtain rfl : f'.parser = p' := hp
        obtain rfl : k = k' := hstop
        obtain rfl : view f'.user = u' := huser
        have ho' : owner f'.parser.state = none := by
          rw [show f'.parser.state = p.state from hstate.trans (by simp), hnone]
        cases k with
        | some used => exact ⟨rfl, rfl, fun _ _ => rfl, fun _ => rfl⟩
        | none =>
          cases after with
          | next =>
            have hadv : ∀ e, (f'.advance ch).marks e = none := by
              intro e
              simpa [advance] using hmarks e
            refine ⟨rfl, rfl, ?_, ?_⟩
            · exact tidy_unmarked hadv (.inl ho')
            · simp only [if_neg hc]
              exact seen_unmarked rd view _ hadv
          | again =>
            have hnext := ih f' (tidy_unmarked hmarks (.inl ho'))
            rwa [seen_unmarked rd view _ hmarks] at hnext
          | ret => exact ⟨rfl, rfl, fun _ _ => rfl, fun _ => rfl⟩

theorem countByte_state (p : HttpParser) : (countByte p).state = p.state := by
  unfold countByte
  split_ifs <;> rfl

theorem stepByte_follows (hr : Reads cfg rd view) (ha : rd.Additive) (ch : UInt8)
    (f : Locals σ) (ht : f.Tidy (owner f.parser.state)) :
    Follows rd view (stepByte cfg ch f)
      (rd.stepByte ch f.parser (f.seen rd view (owner f.parser.state))) := by
  unfold stepByte Reader.stepByte
  simp only []
  split_ifs
  · exact ⟨rfl, rfl, fun c hc => ignores_seen hc view _ f, fun h => by simp at h⟩
  · have h := byte_follows hr ha ch passes { f with parser := countByte f.parser }
      (by rw [countByte_state]; exact ⟨ht.only, ht.set⟩)
    rwa [countByte_state] at h

/-- The whole loop of the source is a run of the eager reader. -/
theorem loop_follows (hr : Reads cfg rd view) (ha : rd.Additive) (bytes : Str) (f : Locals σ)
    (ht : f.Tidy (owner f.parser.state)) :
    let r := loop cfg bytes f
    let s := rd.run bytes f.parser (f.seen rd view (owner f.parser.state))
    r.1 = s.1 ∧ r.2.parser = s.2.1 ∧
      (r.1 = none → r.2.Tidy (owner r.2.parser.state) ∧
        r.2.seen rd view (owner r.2.parser.state) = s.2.2) ∧
      (r.1 ≠ none → (∀ c, rd.Ignores c → c (view r.2.user) = c s.2.2) ∧
        (r.2.parser.httpErrno = .ok ∨ r.2.parser.httpErrno = .paused →
          view r.2.user = s.2.2)) := by
  induction bytes generalizing f with
  | nil => exact ⟨rfl, rfl, fun _ => ⟨ht, rfl⟩, fun h => absurd rfl h⟩
  | cons ch rest ih =>
    have hstep := stepByte_follows hr ha ch f ht
    rw [loop, Reader.run]
    generalize rd.stepByte ch f.parser (f.seen rd view (owner f.parser.state)) = s at hstep
    cases hs : stepByte cfg ch f with
    | next f' =>
      rw [hs] at hstep
      obtain ⟨k, p, u⟩ := s
      obtain ⟨hk, hp, htidy, hseen⟩ := hstep
      simp only [] at hk hp hseen
      subst hk hp hseen
      obtain ⟨h1, h2, h3, h4⟩ := ih f' htidy
      refine ⟨by simp [h1], h2, fun h => h3 (by simpa using h), fun h => h4 (by simpa using h)⟩
    | stop used f' =>
      rw [hs] at hstep
      obtain ⟨k, p, u⟩ := s
      obtain ⟨hk, hp, hignored, huser⟩ := hstep
      simp only [] at hk hp hignored huser
      subst hk hp
      exact ⟨rfl, rfl, fun h => by simp at h, fun _ => ⟨hignored, huser⟩⟩

/-- The callbacks for the left-over marks deliver what the eager reader has taken. -/
theorem flushMarks_follows (hr : Reads cfg rd view) (es : List Elem) {o : Option Elem}
    {f : Locals σ} (ht : f.Tidy o) (hmem : ∀ e, o = some e → f.marks e ≠ none → e ∈ es) :
    (flushMarks cfg es f).parser = f.parser ∧
      view (flushMarks cfg es f).user = f.seen rd view o := by
  induction es generalizing f o with
  | nil =>
    have hnone : ∀ e, f.marks e = none := by
      intro e
      by_contra hne
      exact absurd (hmem e (ht.only e hne) hne) (by simp)
    exact ⟨rfl, (seen_unmarked rd view o hnone).symm⟩
  | cons e es ih =>
    rw [flushMarks]
    cases hs : f.marks e with
    | none =>
      refine ih ht fun e' he' hset => ?_
      rcases List.mem_cons.mp (hmem e' he' hset) with rfl | h
      · exact absurd hs hset
      · exact h
    | some text =>
      have ho : o = some e := ht.only e (by simp [hs])
      have hparser : (f.callData cfg e []).parser = f.parser := by
        simp [callData, hs, hr.data_settle]
      have huser : view (f.callData cfg e []).user = f.seen rd view o := by
        simp [callData, hs, ho, seen, hr.data_user]
      have hnone : ∀ e', (f.callData cfg e []).marks e' = none := by
        intro e'
        rcases eq_or_ne e' e with rfl | hne
        · simp [callData, hs]
        · by_contra hset
          simp only [callData, hs, Function.update_of_ne hne] at hset
          exact hne (Option.some.inj ((ht.only e' hset).symm.trans ho))
      simp only []
      split
      · exact ⟨hparser, huser⟩
      · obtain ⟨hp, hu⟩ := ih (tidy_unmarked hnone (.inl rfl)) (fun _ h => nomatch h)
        exact ⟨hp.trans hparser, hu.trans ((seen_unmarked rd view _ hnone).trans huser)⟩

theorem mem_flushOrder (e : Elem) : e ∈ flushOrder := by
  cases e <;> decide

theorem initialMarks_tidy (p : HttpParser) (u : σ) :
    (⟨p, u, initialMarks p.state⟩ : Locals σ).Tidy (owner p.state) where
  only e he := by
    simp only at he
    cases hs : p.state <;> cases e <;> simp [hs, initialMarks, owner, State.inUrl] at he ⊢
  set e he hb := by
    simp only
    cases hs : p.state <;> cases e <;> simp [hs, initialMarks, owner, State.inUrl] at he hb ⊢

theorem initialMarks_seen (p : HttpParser) (u : σ) (hs : rd.Settled p (view u)) :
    (⟨p, u, initialMarks p.state⟩ : Locals σ).seen rd view (owner p.state) = view u := by
  unfold seen
  cases ho : owner p.state with
  | none => rfl
  | some e =>
    rcases hm : initialMarks p.state e with _ | text
    · simp [hm]
    · have htext : text = [] := by
        cases e <;> simp only [initialMarks] at hm <;> first
          | contradiction
          | (split at hm <;> simp_all)
      simp only [hm, htext]
      exact hs e ho

/-- **`http_parser_execute` is the eager reader.**  Where the parser fails, the text behind a mark
was not delivered. -/
theorem execute_eager (hr : Reads cfg rd view) (ha : rd.Additive) (p : HttpParser) (u : σ)
    (bytes : Str) (hok : p.httpErrno = .ok) (hb : bytes ≠ []) (hs : rd.Settled p (view u)) :
    let r := execute cfg p u bytes
    let s := rd.run bytes p (view u)
    r.1 = s.1.getD bytes.length ∧ r.2.1 = s.2.1 ∧
      (∀ c, rd.Ignores c → c (view r.2.2) = c s.2.2) ∧
      (r.2.1.httpErrno = .ok ∨ r.2.1.httpErrno = .paused → view r.2.2 = s.2.2) := by
  have h := loop_follows hr ha bytes ⟨p, u, initialMarks p.state⟩ (initialMarks_tidy p u)
  rw [initialMarks_seen p u hs] at h
  obtain ⟨h1, h2, h3, h4⟩ := h
  simp only [execute, hok, hb, ne_eq, not_true_eq_false, if_false]
  rcases hl : loop cfg bytes ⟨p, u, initialMarks p.state⟩ with ⟨_ | used, f⟩
  · rw [hl] at h1 h2 h3
    obtain ⟨htidy, hseen⟩ := h3 rfl
    obtain ⟨hp, hu⟩ := flushMarks_follows hr flushOrder htidy (fun e _ _ => mem_flushOrder e)
    have huser := hu.trans hseen
    exact ⟨by simp [← h1], hp.trans h2, fun c _ => congrArg c huser, fun _ => huser⟩
  · rw [hl] at h1 h2 h4
    obtain ⟨hignored, huser⟩ := h4 (by simp)
    exact ⟨by simp [← h1], h2, hignored, huser⟩

end Refinement

end Wsrv.Http
