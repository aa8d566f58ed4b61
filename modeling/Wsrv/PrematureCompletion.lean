import Wsrv.CallbackRules
import Wsrv.ResponseParser

/-!
# Completion of a message

`parse` returns `HTTP_PARSER_OK` where `is_complete_` is set.  Only
`on_message_complete` sets it, `on_message_begin` clears it, and the
constructors leave it as it is in memory.  The first byte of a response begins
the message, also where it is a line break.  Before a request line breaks are
skipped without a callback, so that a first read of line breaks is answered with
what the memory held (`premature_completion_iff`).
-/

namespace Wsrv

open Http

variable {σ τ : Type}

/-! ## `parse` with any callbacks -/

namespace Http

/-- An error number other than `HPE_OK` and `HPE_PAUSED`. -/
def Errno.isError (e : Errno) : Prop := e ≠ .ok ∧ e ≠ .paused

instance (e : Errno) : Decidable e.isError := inferInstanceAs (Decidable (_ ∧ _))

end Http

open RequestParser (Result)

/-- The body of `RequestParser::parse` and of `ResponseParser::parse`. -/
def parseWith (cfg : Settings σ) (isComplete : σ → Bool) (s : HttpParser × σ) (data : Str) :
    Result × HttpParser × σ :=
  let result (u : σ) : Result := if isComplete u then .ok else .indeterminate
  let (used, parser, u) := execute cfg s.1 s.2 data
  let error := parser.httpErrno
  let parser := if error = .paused then parserPause parser false else parser
  if used < data.length then
    if error = .paused then
      if isComplete u then (result u, parser, u)
      else
        let (_, parser, u) := execute cfg parser u (data.drop used)
        (result u, parser, u)
    else (.error, parser, u)
  else (result u, parser, u)

theorem RequestParser.parse_eq (rp : RequestParser) (data : Str) :
    rp.parse data =
      let r := parseWith settings RequestFields.isComplete (rp.parser, rp.fields) data
      (r.1, ⟨r.2.1, r.2.2⟩) := by
  unfold parse parseWith resultOf
  simp only
  split_ifs <;> rfl

theorem ResponseParser.parse_eq (rp : ResponseParser) (data : Str) :
    rp.parse data =
      let r := parseWith settings ResponseFields.isComplete (rp.parser, rp.fields) data
      (r.1, ⟨r.2.1, r.2.2⟩) := by
  unfold parse parseWith resultOf
  simp only
  split_ifs <;> rfl

/-- Related callbacks come to the same results. -/
theorem parseWith_related {R : σ → τ → Prop} {cfg : Settings σ} {cfg' : Settings τ}
    {isComplete : σ → Bool} {isComplete' : τ → Bool} (hr : cfg.Related R cfg')
    (hc : ∀ u v, R u v → isComplete' v = isComplete u) (p : HttpParser) {u : σ} {v : τ} (h : R u v)
    (data : Str) :
    (parseWith cfg' isComplete' (p, v) data).1 = (parseWith cfg isComplete (p, u) data).1 ∧
      (parseWith cfg' isComplete' (p, v) data).2.1 = (parseWith cfg isComplete (p, u) data).2.1 ∧
      R (parseWith cfg isComplete (p, u) data).2.2 (parseWith cfg' isComplete' (p, v) data).2.2 := by
  obtain ⟨hused, hparser, huser⟩ := execute_related hr p h data
  unfold parseWith
  rcases hf : execute cfg p u data with ⟨used, q, u'⟩
  rcases hg : execute cfg' p v data with ⟨used', q', v'⟩
  rw [hf, hg] at hused hparser huser
  obtain rfl : used' = used := hused
  obtain rfl : q' = q := hparser
  have hcomplete : isComplete' v' = isComplete u' := hc u' v' huser
  simp only [hcomplete]
  split
  · split
    · split
      · exact ⟨rfl, rfl, huser⟩
      · obtain ⟨-, hparser₂, huser₂⟩ :=
          execute_related hr (parserPause q' false) huser (data.drop used')
        exact ⟨by rw [hc _ _ huser₂], hparser₂, huser₂⟩
    · exact ⟨rfl, rfl, huser⟩
  · exact ⟨rfl, rfl, huser⟩

/-! ## The call with a memory -/

/-- The callbacks of a parser: `on_message_begin` clears the flag and lets the parser go on, and
none but `on_message_complete` sets it. -/
structure Flagged (cfg : Settings σ) (isComplete : σ → Bool) : Prop where
  data : ∀ e p text u, isComplete (cfg.data e p text u).user = isComplete u
  begins : ∀ p u, (cfg.notify .messageBegin p u).code = 0 ∧
    (cfg.notify .messageBegin p u).pause = false ∧
    isComplete (cfg.notify .messageBegin p u).user = false
  completes : cfg.onMessageComplete.isSome = true
  headersComplete : ∀ p u, isComplete (cfg.headersComplete p u).user = isComplete u

/-- The flag is set only where `on_message_complete` has been called. -/
def Honest (isComplete : σ → Bool) (u : σ × Bool) : Prop := isComplete u.1 = true → u.2 = true

variable {cfg : Settings σ} {isComplete : σ → Bool}

theorem Flagged.keeps (h : Flagged cfg isComplete) : cfg.traced.Keeps (Honest isComplete) where
  data e p text u hu := by
    rw [traced_data]
    exact fun hc => hu ((h.data e p text u.1).symm.trans hc)
  notify n p u hu := by
    cases n with
    | messageBegin =>
      rw [traced_begin]
      exact fun hc => absurd ((h.begins p u.1).2.2.symm.trans hc) (by decide)
    | messageComplete =>
      rw [traced_complete, h.completes]
      exact fun _ => rfl
  headersComplete p u hu := by
    rw [traced_headersComplete]
    exact fun hc => hu ((h.headersComplete p u.1).symm.trans hc)

/-- `parse` of the object with the memory. -/
abbrev parseTraced (cfg : Settings σ) (isComplete : σ → Bool) (s : HttpParser × σ × Bool)
    (data : Str) : Result × HttpParser × σ × Bool :=
  parseWith cfg.traced (fun u => isComplete u.1) s data

theorem execute_error (cfg : Settings σ) {p : HttpParser} (h : p.httpErrno ≠ .ok) (u : σ)
    (bytes : Str) : execute cfg p u bytes = (0, p, u) := if_pos h

/-- The flag is honest, or the parser is in an error state. -/
def Sound (isComplete : σ → Bool) (s : HttpParser × σ × Bool) : Prop :=
  Honest isComplete s.2 ∨ s.1.httpErrno.isError

/-- Where the first run of a call leaves an honest flag or fails, the call is sound. -/
theorem parseTraced_sound (h : Flagged cfg isComplete) {s : HttpParser × σ × Bool} {data : Str}
    (hrun : let r := execute cfg.traced s.1 s.2 data
      Honest isComplete r.2.2 ∨ r.2.1.httpErrno.isError ∧ r.1 < data.length) :
    Sound isComplete (parseTraced cfg isComplete s data).2 ∧
      ((parseTraced cfg isComplete s data).1 = .ok →
        (parseTraced cfg isComplete s data).2.2.2 = true) := by
  have hresult : ∀ (q : HttpParser) (u : σ × Bool), Honest isComplete u →
      Sound isComplete (q, u) ∧
        ((if isComplete u.1 then Result.ok else Result.indeterminate) = .ok → u.2 = true) := by
    intro q u hu
    refine ⟨.inl hu, fun hok => hu ?_⟩
    by_contra hc
    rw [if_neg hc] at hok
    cases hok
  unfold parseTraced parseWith
  rcases hx : execute cfg.traced s.1 s.2 data with ⟨used, q, u⟩
  rw [hx] at hrun
  rcases hrun with hu | ⟨herror, hused⟩
  · simp only
    split
    · split
      · split
        · rename_i hcomplete
          exact ⟨.inl hu, fun _ => hu hcomplete⟩
        · exact hresult _ _ (h.keeps.execute _ hu _)
      · exact ⟨.inl hu, fun hok => nomatch hok⟩
    · exact hresult _ _ hu
  · simp only [if_pos hused, if_neg herror.2]
    exact ⟨.inr herror, fun hok => nomatch hok⟩

/-- **One call.** -/
theorem parseTraced_step (h : Flagged cfg isComplete) {s : HttpParser × σ × Bool}
    (hs : Sound isComplete s) {data : Str} (hne : data ≠ []) :
    Sound isComplete (parseTraced cfg isComplete s data).2 ∧
      ((parseTraced cfg isComplete s data).1 = .ok →
        (parseTraced cfg isComplete s data).2.2.2 = true) := by
  apply parseTraced_sound h
  rcases hs with hs | herror
  · exact .inl (h.keeps.execute s.1 hs data)
  · rw [execute_error cfg.traced herror.1]
    exact .inr ⟨herror, List.length_pos_of_ne_nil hne⟩

/-- The state after some calls. -/
def afterCalls (cfg : Settings σ) (isComplete : σ → Bool) (s : HttpParser × σ)
    (reads : List Str) : HttpParser × σ :=
  reads.foldl (fun s data => (parseWith cfg isComplete s data).2) s

theorem afterCalls_sound (h : Flagged cfg isComplete) {reads : List Str}
    (hne : ∀ data ∈ reads, data ≠ []) {s : HttpParser × σ × Bool} (hs : Sound isComplete s) :
    Sound isComplete (afterCalls cfg.traced (fun u => isComplete u.1) s reads) := by
  induction reads generalizing s with
  | nil => exact hs
  | cons data reads ih =>
    exact ih (fun d hd => hne d (List.mem_cons_of_mem _ hd))
      (parseTraced_step h hs (hne data List.mem_cons_self)).1

/-! ## The first read -/

theorem stepByte_blank (cfg : Settings σ) {ch : UInt8} {f : Locals σ}
    (hs : f.parser.state = .startReq) (hch : ch = CR ∨ ch = LF)
    (hn : f.parser.nread < HTTP_MAX_HEADER_SIZE) :
    stepByte cfg ch f =
      .next (({ f with parser := { f.parser with nread := f.parser.nread + 1 } } : Locals σ).advance
        ch) := by
  have hcount : countByte f.parser = { f.parser with nread := f.parser.nread + 1 } := by
    simp [countByte, hs, parsingHeader]
  have hmax : ¬ HTTP_MAX_HEADER_SIZE < f.parser.nread + 1 := by omega
  simp [stepByte, hcount, hmax, passes, byte, switch, switchRequestTarget, hs, hch, Step.next,
    Locals.mark, runCall]

/-- The step fails, or tells of the begin of the message. -/
def Begins (errno : Errno) (step : Step) : Prop :=
  (∃ q e, step = .error q e ∧ e.isError) ∨
    ∃ q, step = .go none q (.notify .messageBegin) .next ∧ q.httpErrno = errno

theorem begins_startReq {p : HttpParser} {ch : UInt8} (hs : p.state = .startReq)
    (hch : ¬ (ch = CR ∨ ch = LF)) : Begins p.httpErrno (switch p ch) := by
  simp only [switch, switchRequestTarget, hs, hch, if_false]
  split
  · exact .inl ⟨_, _, rfl, by decide⟩
  · cases firstMethod ch with
    | none => exact .inl ⟨_, _, rfl, by decide⟩
    | some m => exact .inr ⟨_, rfl, rfl⟩

theorem begins_startRes {p : HttpParser} {ch : UInt8} (hs : p.state = .startRes) :
    Begins p.httpErrno (switch p ch) := by
  simp only [switch, switchResponseLine, hs]
  split
  · exact .inr ⟨_, rfl, rfl⟩
  · split
    · exact .inr ⟨_, rfl, rfl⟩
    · exact .inl ⟨_, _, rfl, by decide⟩

/-- A byte that begins the message or fails, or is one too many. -/
theorem stepByte_begins (h : Flagged cfg isComplete) {ch : UInt8} {f : Locals (σ × Bool)}
    (hok : f.parser.httpErrno = .ok)
    (hch : parsingHeader f.parser.state = true ∧ HTTP_MAX_HEADER_SIZE < (countByte f.parser).nread ∨
      Begins (countByte f.parser).httpErrno (switch (countByte f.parser) ch)) :
    (∃ g, stepByte cfg.traced ch f = .stop 0 g ∧ g.parser.httpErrno.isError) ∨
      ∃ g, stepByte cfg.traced ch f = .next g ∧ Honest isComplete g.user := by
  have hcount : (countByte f.parser).httpErrno = .ok := by
    unfold countByte
    split <;> exact hok
  unfold stepByte
  simp only
  split
  · exact .inl ⟨_, rfl, (by decide : Errno.headerOverflow.isError)⟩
  · rename_i hmax
    rw [passes, byte]
    rcases hch.resolve_left hmax with ⟨q, e, hstep, he⟩ | ⟨q, hstep, hq⟩
    · rw [hstep]
      exact .inl ⟨_, rfl, he⟩
    · obtain ⟨hcode, hpause, hclear⟩ := h.begins q f.user.1
      have hsettle : ((cfg.notify .messageBegin q f.user.1).pair f.user.2).settle
          Notify.messageBegin.errno q = q := by
        simp [Reply.settle, Reply.pair, hcode, hpause]
      have hgoes : checkErrno 1 q = none := by simp [checkErrno, hq, hcount]
      rw [hstep]
      simp only [runCall, Locals.callNotify, Locals.mark, traced_begin, hsettle, hgoes]
      exact .inr ⟨_, rfl, fun hc => absurd (hclear.symm.trans hc) (by decide)⟩

/-- The rest of the bytes does not spoil a flag that is honest. -/
theorem loop_begins (h : Flagged cfg isComplete) {ch : UInt8} {rest : Str} {f : Locals (σ × Bool)}
    (hstep : (∃ g, stepByte cfg.traced ch f = .stop 0 g ∧ g.parser.httpErrno.isError) ∨
      ∃ g, stepByte cfg.traced ch f = .next g ∧ Honest isComplete g.user) :
    Honest isComplete (loop cfg.traced (ch :: rest) f).2.user ∨
      (loop cfg.traced (ch :: rest) f).1 = some 0 ∧
        (loop cfg.traced (ch :: rest) f).2.parser.httpErrno.isError := by
  rw [loop]
  rcases hstep with ⟨g, hg, herror⟩ | ⟨g, hg, hu⟩
  · rw [hg]
    exact .inr ⟨rfl, herror⟩
  · rw [hg]
    exact .inl (h.keeps.loop hu rest)

/-- A read of line breaks, before the message, that does not exceed the header limit. -/
def Blank (nread : Nat) (data : Str) : Prop :=
  (∀ c ∈ data, c = CR ∨ c = LF) ∧ nread + data.length ≤ HTTP_MAX_HEADER_SIZE

instance (nread : Nat) (data : Str) : Decidable (Blank nread data) :=
  inferInstanceAs (Decidable (_ ∧ _))

/-- Before a request line breaks are skipped, and anything else begins the message or fails. -/
theorem loop_startReq (h : Flagged cfg isComplete) {bytes : Str} {f : Locals (σ × Bool)}
    (hs : f.parser.state = .startReq) (hok : f.parser.httpErrno = .ok)
    (hmarks : f.marks = fun _ => none) (hn : f.parser.nread ≤ HTTP_MAX_HEADER_SIZE) :
    (Blank f.parser.nread bytes →
      loop cfg.traced bytes f =
        (none, { f with
          parser := { f.parser with nread := f.parser.nread + bytes.length } })) ∧
      (¬ Blank f.parser.nread bytes →
        Honest isComplete (loop cfg.traced bytes f).2.user ∨
          ∃ k < bytes.length, (loop cfg.traced bytes f).1 = some k ∧
            (loop cfg.traced bytes f).2.parser.httpErrno.isError) := by
  induction bytes generalizing f with
  | nil => exact ⟨fun _ => rfl, fun hb => absurd ⟨by simp, hn⟩ hb⟩
  | cons ch rest ih =>
    by_cases hch : (ch = CR ∨ ch = LF) ∧ f.parser.nread < HTTP_MAX_HEADER_SIZE
    · obtain ⟨hblank, hlt⟩ := hch
      have hstep : stepByte cfg.traced ch f =
          .next { f with parser := { f.parser with nread := f.parser.nread + 1 } } := by
        rw [stepByte_blank _ hs hblank hlt]
        simp only [Locals.advance, hmarks]
        rfl
      have hiff : Blank f.parser.nread (ch :: rest) ↔ Blank (f.parser.nread + 1) rest := by
        simp only [Blank, List.forall_mem_cons, hblank, true_and, List.length_cons]
        rw [Nat.add_assoc, Nat.add_comm 1]
      obtain ⟨hskip, hbegin⟩ := @ih { f with
        parser := { f.parser with nread := f.parser.nread + 1 } } hs hok hmarks hlt
      rw [loop, hstep, hiff]
      simp only at hskip hbegin ⊢
      refine ⟨fun hb => ?_, fun hb => ?_⟩
      · rw [hskip hb, List.length_cons, Nat.add_assoc, Nat.add_comm 1]
        rfl
      · rcases hbegin hb with hu | ⟨k, hk, hstop, herror⟩
        · exact .inl hu
        · exact .inr ⟨k + 1, by simpa using hk, by simp [hstop], herror⟩
    · have hcount : countByte f.parser = { f.parser with nread := f.parser.nread + 1 } := by
        simp [countByte, hs, parsingHeader]
      refine ⟨fun hb => ?_, fun _ => ?_⟩
      · have hlen := hb.2
        rw [List.length_cons] at hlen
        exact absurd ⟨hb.1 ch List.mem_cons_self, by omega⟩ hch
      · have hstep : parsingHeader f.parser.state = true ∧
            HTTP_MAX_HEADER_SIZE < (countByte f.parser).nread ∨
            Begins (countByte f.parser).httpErrno (switch (countByte f.parser) ch) := by
          rw [hcount]
          by_cases hblank : ch = CR ∨ ch = LF
          · exact .inl ⟨by rw [hs]; rfl, Nat.lt_succ_of_le (not_lt.mp fun hlt => hch ⟨hblank, hlt⟩)⟩
          · exact .inr (begins_startReq hs hblank)
        rcases @loop_begins _ _ _ h ch rest _ (stepByte_begins h hok hstep) with hu | ⟨hstop, herror⟩
        · exact .inl hu
        · exact .inr ⟨0, by simp, hstop, herror⟩

/-- From the loop to `http_parser_execute`. -/
theorem execute_of_loop (h : Flagged cfg isComplete) {p : HttpParser} {u : σ × Bool} {data : Str}
    (hok : p.httpErrno = .ok) (hne : data ≠ [])
    (hloop : let r := loop cfg.traced data ⟨p, u, initialMarks p.state⟩
      Honest isComplete r.2.user ∨
        ∃ k < data.length, r.1 = some k ∧ r.2.parser.httpErrno.isError) :
    let r := execute cfg.traced p u data
    Honest isComplete r.2.2 ∨ r.2.1.httpErrno.isError ∧ r.1 < data.length := by
  unfold execute
  rw [if_neg (not_not.mpr hok), if_neg hne]
  rcases hl : loop cfg.traced data ⟨p, u, initialMarks p.state⟩ with ⟨_ | used, f⟩
  · rw [hl] at hloop
    rcases hloop with hu | ⟨k, -, hstop, -⟩
    · exact .inl (h.keeps.flushMarks hu flushOrder)
    · cases hstop
  · rw [hl] at hloop
    rcases hloop with hu | ⟨k, hk, hstop, herror⟩
    · exact .inl hu
    · obtain rfl := Option.some.inj hstop
      exact .inr ⟨herror, hk⟩

/-- The first read of a request parser. -/
theorem execute_startReq (h : Flagged cfg isComplete) {p : HttpParser} {u : σ × Bool} {data : Str}
    (hs : p.state = .startReq) (hok : p.httpErrno = .ok) (hn : p.nread = 0) (hne : data ≠ []) :
    (Blank 0 data → execute cfg.traced p u data = (data.length, { p with nread := data.length }, u)) ∧
      (¬ Blank 0 data → let r := execute cfg.traced p u data
        Honest isComplete r.2.2 ∨ r.2.1.httpErrno.isError ∧ r.1 < data.length) := by
  have hmarks : initialMarks p.state = fun _ => none := by
    rw [hs]
    funext e
    cases e <;> rfl
  obtain ⟨hskip, hbegin⟩ := @loop_startReq _ _ _ h data ⟨p, u, initialMarks p.state⟩ hs hok hmarks
    (by simp [hn])
  simp only [hn] at hskip hbegin
  refine ⟨fun hb => ?_, fun hb => execute_of_loop h hok hne (hbegin hb)⟩
  unfold execute
  rw [if_neg (not_not.mpr hok), if_neg hne, hskip hb]
  simp [flushMarks, flushOrder, hmarks]

/-- The first read of a response parser. -/
theorem execute_startRes (h : Flagged cfg isComplete) {p : HttpParser} {u : σ × Bool} {data : Str}
    (hs : p.state = .startRes) (hok : p.httpErrno = .ok) (hne : data ≠ []) :
    let r := execute cfg.traced p u data
    Honest isComplete r.2.2 ∨ r.2.1.httpErrno.isError ∧ r.1 < data.length := by
  apply execute_of_loop h hok hne
  cases data with
  | nil => exact absurd rfl hne
  | cons ch rest =>
    have hcount : (countByte p).state = .startRes := by
      unfold countByte
      split <;> exact hs
    have hstep := @stepByte_begins _ _ _ h ch ⟨p, u, initialMarks p.state⟩ hok
      (.inr (begins_startRes hcount))
    rcases @loop_begins _ _ _ h ch rest _ hstep with hu | ⟨hstop, herror⟩
    · exact .inl hu
    · exact .inr ⟨0, by simp, hstop, herror⟩

/-! ## Every call -/

/-- `on_message_complete` has been called in one of the calls. -/
def completed (cfg : Settings σ) (isComplete : σ → Bool) (s : HttpParser × σ) (reads : List Str) :
    Bool :=
  (afterCalls cfg.traced (fun u => isComplete u.1) (s.1, s.2, false) reads).2.2

/-- No call returns `HTTP_PARSER_OK` before `on_message_complete` has been called. -/
def CompleteOnly (cfg : Settings σ) (isComplete : σ → Bool) (s : HttpParser × σ)
    (reads : List Str) : Prop :=
  ∀ pre data post, reads = pre ++ data :: post →
    (parseWith cfg isComplete (afterCalls cfg isComplete s pre) data).1 = .ok →
      completed cfg isComplete s (pre ++ [data]) = true

/-- The memory changes nothing of a call. -/
theorem parseWith_traced (cfg : Settings σ) (isComplete : σ → Bool) (s : HttpParser × σ)
    (called : Bool) (data : Str) :
    ∃ called', parseTraced cfg isComplete (s.1, s.2, called) data =
      ((parseWith cfg isComplete s data).1, (parseWith cfg isComplete s data).2.1,
        (parseWith cfg isComplete s data).2.2, called') := by
  obtain ⟨hresult, hp, hu⟩ := @parseWith_related _ _ _ _ _ isComplete (fun u => isComplete u.1)
    (traced_related cfg) (fun u v h => congrArg isComplete h) s.1 s.2 (s.2, called) rfl data
  exact ⟨_, Prod.ext hresult (Prod.ext hp (Prod.ext hu rfl))⟩

theorem afterCalls_traced (cfg : Settings σ) (isComplete : σ → Bool) (s : HttpParser × σ)
    (called : Bool) (reads : List Str) :
    ∃ called', afterCalls cfg.traced (fun u => isComplete u.1) (s.1, s.2, called) reads =
      ((afterCalls cfg isComplete s reads).1, (afterCalls cfg isComplete s reads).2, called') := by
  induction reads generalizing s called with
  | nil => exact ⟨called, rfl⟩
  | cons data reads ih =>
    obtain ⟨called', hcall⟩ := parseWith_traced cfg isComplete s called data
    unfold parseTraced at hcall
    unfold afterCalls
    rw [List.foldl_cons, List.foldl_cons, hcall]
    exact ih _ called'

/-- What a call after others says, and whether a message had been completed by then. -/
theorem completeOnly_iff (cfg : Settings σ) (isComplete : σ → Bool) (s : HttpParser × σ)
    (reads : List Str) :
    CompleteOnly cfg isComplete s reads ↔ ∀ pre data post, reads = pre ++ data :: post →
      let r := parseTraced cfg isComplete
        (afterCalls cfg.traced (fun u => isComplete u.1) (s.1, s.2, false) pre) data
      r.1 = .ok → r.2.2.2 = true := by
  refine forall₃_congr fun pre data post => forall_congr' fun _ => ?_
  obtain ⟨called, hpre⟩ := afterCalls_traced cfg isComplete s false pre
  obtain ⟨called', hcall⟩ :=
    parseWith_traced cfg isComplete (afterCalls cfg isComplete s pre) called data
  have hlast : completed cfg isComplete s (pre ++ [data]) = called' := by
    unfold completed afterCalls
    rw [List.foldl_append, List.foldl_cons, List.foldl_nil]
    exact congrArg (fun r => r.2.2.2) ((congrArg
      (fun t => parseTraced cfg isComplete t data) hpre).trans hcall)
  rw [hlast]
  simp only [hpre, hcall]

/-- If the first call is sound, all are. -/
theorem completeOnly_of_first (h : Flagged cfg isComplete) {s : HttpParser × σ} {reads : List Str}
    (hne : ∀ data ∈ reads, data ≠ [])
    (hfirst : ∀ first, reads.head? = some first →
      let r := parseTraced cfg isComplete (s.1, s.2, false) first
      Sound isComplete r.2 ∧ (r.1 = .ok → r.2.2.2 = true)) : CompleteOnly cfg isComplete s reads := by
  rw [completeOnly_iff]
  rintro pre data post rfl
  cases pre with
  | nil => exact (hfirst data rfl).2
  | cons first pre =>
    have hsound := (hfirst first rfl).1
    have hafter := @afterCalls_sound _ _ _ h pre (fun d hd => hne d (by simp [hd])) _ hsound
    exact (parseTraced_step h hafter (hne data (by simp))).2

/-! ## The two parsers -/

theorem RequestParser.settings_flagged : Flagged settings RequestFields.isComplete where
  data e p text u := by
    cases e with
    | headerField =>
      simp only [Settings.data, settings, RequestFields.onHeaderField, RequestFields.flushHeader]
      split <;> rfl
    | url | status | headerValue | body => rfl
  begins p u := ⟨rfl, rfl, rfl⟩
  completes := rfl
  headersComplete p u := by
    simp only [Settings.headersComplete, settings, RequestFields.onHeadersComplete,
      RequestFields.flushHeader]
    split <;> rfl

theorem ResponseParser.settings_flagged : Flagged settings ResponseFields.isComplete where
  data e p text u := by
    cases e with
    | headerField =>
      simp only [Settings.data, settings, ResponseFields.onHeaderField, ResponseFields.flushHeader]
      split <;> rfl
    | url | status | headerValue | body => rfl
  begins p u := ⟨rfl, rfl, rfl⟩
  completes := rfl
  headersComplete p u := by
    simp only [Settings.headersComplete, settings, ResponseFields.onHeadersComplete,
      ResponseFields.flushHeader]
    split <;> rfl

/-- The parser after some calls. -/
def RequestParser.after (rp : RequestParser) (reads : List Str) : RequestParser :=
  reads.foldl (fun rp data => (rp.parse data).2) rp

def ResponseParser.after (rp : ResponseParser) (reads : List Str) : ResponseParser :=
  reads.foldl (fun rp data => (rp.parse data).2) rp

theorem RequestParser.after_eq (rp : RequestParser) (reads : List Str) :
    rp.after reads =
      let s := afterCalls settings RequestFields.isComplete (rp.parser, rp.fields) reads
      ⟨s.1, s.2⟩ := by
  induction reads generalizing rp with
  | nil => rfl
  | cons data reads ih =>
    rw [after, List.foldl_cons, ← after, ih, parse_eq]
    rfl

theorem ResponseParser.after_eq (rp : ResponseParser) (reads : List Str) :
    rp.after reads =
      let s := afterCalls settings ResponseFields.isComplete (rp.parser, rp.fields) reads
      ⟨s.1, s.2⟩ := by
  induction reads generalizing rp with
  | nil => rfl
  | cons data reads ih =>
    rw [after, List.foldl_cons, ← after, ih, parse_eq]
    rfl

/-- `on_message_complete` has been called since construction. -/
def RequestParser.completedBy (junk : Bool) (reads : List Str) : Bool :=
  completed settings RequestFields.isComplete ((new junk).parser, (new junk).fields) reads

def ResponseParser.completedBy (junk : Bool) (reads : List Str) : Bool :=
  completed settings ResponseFields.isComplete ((new junk).parser, (new junk).fields) reads

/-- No call of `parse` on the reads returns `HTTP_PARSER_OK` before a message was completed. -/
def RequestParser.CompleteOnly (junk : Bool) (reads : List Str) : Prop :=
  ∀ pre data post, reads = pre ++ data :: post →
    (((new junk).after pre).parse data).1 = .ok → completedBy junk (pre ++ [data]) = true

def ResponseParser.CompleteOnly (junk : Bool) (reads : List Str) : Prop :=
  ∀ pre data post, reads = pre ++ data :: post →
    (((new junk).after pre).parse data).1 = .ok → completedBy junk (pre ++ [data]) = true

theorem RequestParser.completeOnly_eq (junk : Bool) (reads : List Str) :
    CompleteOnly junk reads ↔ Wsrv.CompleteOnly settings RequestFields.isComplete
      ((new junk).parser, (new junk).fields) reads := by
  simp only [CompleteOnly, after_eq, parse_eq]
  rfl

theorem ResponseParser.completeOnly_eq (junk : Bool) (reads : List Str) :
    CompleteOnly junk reads ↔ Wsrv.CompleteOnly settings ResponseFields.isComplete
      ((new junk).parser, (new junk).fields) reads := by
  simp only [CompleteOnly, after_eq, parse_eq]
  rfl

/-- A response parser never reports a message too early. -/
theorem ResponseParser.completeOnly (junk : Bool) {reads : List Str}
    (hne : ∀ data ∈ reads, data ≠ []) : CompleteOnly junk reads := by
  rw [completeOnly_eq]
  refine completeOnly_of_first settings_flagged hne fun first hfirst => ?_
  exact parseTraced_sound settings_flagged
    (execute_startRes settings_flagged rfl rfl (hne first (List.mem_of_head? hfirst)))

/-- **Premature completion.**  A fresh request parser and a fresh response parser return
`HTTP_PARSER_OK` for complete messages only, if and only if the memory of `is_complete_` held false
or the first read of the request is not a read of line breaks within the header limit. -/
theorem premature_completion_iff (junk : Bool) (reads : List Str) (hne : ∀ data ∈ reads, data ≠ []) :
    (RequestParser.CompleteOnly junk reads ∧ ResponseParser.CompleteOnly junk reads) ↔
      (junk = true → ∀ first, reads.head? = some first → ¬ Blank 0 first) := by
  rw [and_iff_left (ResponseParser.completeOnly junk hne), RequestParser.completeOnly_eq]
  constructor
  · rintro h rfl first hfirst hblank
    obtain ⟨rest, rfl⟩ := List.head?_eq_some_iff.mp hfirst
    rw [completeOnly_iff] at h
    have hcall := h [] first rest rfl
    simp only [afterCalls, List.foldl_nil, parseTraced, parseWith] at hcall
    rw [(execute_startReq RequestParser.settings_flagged rfl rfl rfl (hne first
      List.mem_cons_self)).1 hblank] at hcall
    -- the call says what the memory held
    exact absurd (hcall (by simp [RequestParser.new, init])) (by simp [RequestParser.new, init])
  · intro h
    refine completeOnly_of_first RequestParser.settings_flagged hne fun first hfirst => ?_
    apply parseTraced_sound RequestParser.settings_flagged
    have hfirst_ne := hne first (List.mem_of_head? hfirst)
    cases junk with
    | false =>
      have hstart : Honest RequestFields.isComplete ((RequestParser.new false).fields, false) :=
        fun hc => absurd hc (by decide)
      exact .inl (RequestParser.settings_flagged.keeps.execute _ hstart _)
    | true =>
      exact (execute_startReq RequestParser.settings_flagged rfl rfl rfl hfirst_ne).2
        (h rfl first hfirst)

/-- A request that comes in two reads, over memory that held true. -/
theorem request_not_premature :
    RequestParser.CompleteOnly true [str "GET / HT", str "TP/1.1"] ∧
      ResponseParser.CompleteOnly true [str "GET / HT", str "TP/1.1"] :=
  (premature_completion_iff true [str "GET / HT", str "TP/1.1"] (by decide)).mpr fun _ first h => by
    obtain rfl := Option.some.inj h
    decide

/-- Before the request comes a line break, and the parser calls it complete. -/
theorem lineBreak_premature :
    ((RequestParser.new true).parse [CR, LF]).1 = .ok ∧
      RequestParser.completedBy true [[CR, LF]] = false := by
  decide +kernel

end Wsrv
