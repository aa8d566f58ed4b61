import Wsrv.RequestReading

/-!
# The target of a request over its reads

`on_url` assigns where the other callbacks append, so that `url_` is the part of
the target in the last read that has some of it, or its end.  `TargetScan` finds
that part in the bytes alone; `parse_url_scan` says that `parse` leaves it in
`url_`.
-/

namespace Wsrv

open Http

namespace RequestParser

/-! ## The scan -/

/-- Where the next byte of a request stands, as far as the target goes. -/
inductive ScanStage
  | blank | method | spaces | target | done
  deriving DecidableEq

def ScanStage.next (st : ScanStage) (ch : UInt8) : ScanStage :=
  match st with
  | .blank => if ch = CR ∨ ch = LF then .blank else .method
  | .method => if ch = ' '.toUInt8 then .spaces else .method
  | .spaces => if ch = ' '.toUInt8 then .spaces else .target
  | .target => if ch = ' '.toUInt8 ∨ ch = CR ∨ ch = LF then .done else .target
  | .done => .done

/-- The stage, and the target as far as the read at hand has it. -/
structure TargetScan where
  stage : ScanStage
  text : Str

namespace TargetScan

def byte (sc : TargetScan) (ch : UInt8) : TargetScan where
  stage := sc.stage.next ch
  text := if sc.stage.next ch = .target then sc.text ++ [ch] else sc.text

/-- A read that goes on with the target starts it anew. -/
def read (sc : TargetScan) (data : Str) : TargetScan :=
  data.foldl byte (if sc.stage = .target then { sc with text := [] } else sc)

def start : TargetScan := ⟨.blank, []⟩

end TargetScan

/-- The part of the target in the read in which it ends. -/
def targetTail (reads : List Str) : Str := (reads.foldl TargetScan.read .start).text

/-! ## The stages of the parser -/

/-- The stage of a state, in a request. -/
def stageOf (s : State) : Option ScanStage :=
  if s.inUrl then some .target
  else match s with
  | .startReq => some .blank
  | .reqMethod => some .method
  | .reqSpacesBeforeUrl => some .spaces
  | .dead | .startReqOrRes | .resOrRespH | .startRes | .resH | .resHT | .resHTT | .resHTTP
  | .resFirstHttpMajor | .resHttpMajor | .resFirstHttpMinor | .resHttpMinor | .resFirstStatusCode
  | .resStatusCode | .resStatusStart | .resStatus | .resLineAlmostDone => none
  | _ => some .done

/-- The message ends, or the step stays behind the target and has nothing to do with it. -/
def Behind : Step → Prop
  | .error _ _ => True
  | .go m q c after => c = .notify .messageComplete ∨
      stageOf q.state = some .done ∧ after ≠ .ret ∧ m ≠ some .url ∧ ∀ w k, c ≠ .data .url w k

theorem behind_next {p : HttpParser} (h : stageOf p.state = some .done) :
    Behind (Step.next p) := .inr ⟨h, by simp, by simp, by simp⟩

theorem behind_again {p : HttpParser} (h : stageOf p.state = some .done) :
    Behind (Step.again p) := .inr ⟨h, by simp, by simp, by simp⟩

theorem behind_expect {p : HttpParser} {ch want : UInt8} {t : State} {e : Errno}
    (h : stageOf t = some .done) : Behind (Step.expect p ch want t e) := by
  unfold Step.expect
  split_ifs
  · trivial
  · exact behind_next h

theorem behind_requestVersion (p : HttpParser) (ch : UInt8) : Behind (switchRequestVersion p ch) := by
  unfold switchRequestVersion
  split <;> rename_i hp
  case h_1 =>
    split_ifs
    · exact behind_next rfl
    · exact behind_next (by rw [hp]; rfl)
    · trivial
  case h_6 =>
    unfold firstMajor
    split_ifs
    · trivial
    · exact behind_next rfl
  case h_7 =>
    unfold moreMajor
    simp only
    split_ifs
    · exact behind_next rfl
    · trivial
    · trivial
    · exact behind_next (by simp only [hp]; rfl)
  case h_8 =>
    unfold firstMinor
    split_ifs
    · trivial
    · exact behind_next rfl
  case h_9 =>
    unfold moreMinor
    simp only
    split_ifs
    · exact behind_next rfl
    · exact behind_next rfl
    · trivial
    · trivial
    · exact behind_next (by simp only [hp]; rfl)
  case h_11 => trivial
  all_goals exact behind_expect rfl

theorem behind_headerField (p : HttpParser) (ch : UInt8) : Behind (switchHeaderField p ch) := by
  unfold switchHeaderField
  split <;> rename_i hp
  · simp only
    split_ifs
    · exact behind_next rfl
    · exact behind_again rfl
    · trivial
    · exact .inr ⟨rfl, by simp, by simp, by simp⟩
  · simp only
    split_ifs
    · exact behind_next (by rw [headerFieldChar_state, hp]; rfl)
    · exact .inr ⟨rfl, by simp, by simp, by simp⟩
    · exact .inr ⟨rfl, by simp, by simp, by simp⟩
    · exact .inr ⟨rfl, by simp, by simp, by simp⟩
    · trivial
  · trivial

theorem behind_valueStart (p : HttpParser) (ch : UInt8) : Behind (headerValueStart p ch) := by
  unfold headerValueStart
  simp only
  split
  case h_3 =>
    split_ifs
    · trivial
    · exact .inr ⟨rfl, by simp, by simp, by simp⟩
  all_goals exact .inr ⟨rfl, by simp, by simp, by simp⟩

theorem behind_headerValueStart (p : HttpParser) (ch : UInt8) :
    Behind (switchHeaderValueStart p ch) := by
  unfold switchHeaderValueStart
  split <;> rename_i hp
  · split_ifs
    · exact behind_next (by rw [hp]; rfl)
    · exact behind_next rfl
    · exact behind_next rfl
    · exact behind_valueStart p ch
  · exact behind_valueStart p ch
  · exact behind_expect rfl
  · split_ifs
    · exact behind_next rfl
    · exact .inr ⟨rfl, by simp, by simp, by simp⟩
  · trivial

theorem behind_valueChar {p : HttpParser} (ch : UInt8) (hp : p.state = .headerValue) :
    Behind (headerValueChar p ch) := by
  have hstay : stageOf p.state = some .done := by rw [hp]; rfl
  unfold headerValueChar
  simp only
  split
  case h_4 =>
    split_ifs
    · exact behind_next hstay
    · trivial
    · split
      · trivial
      · exact behind_next hstay
  case h_5 | h_6 | h_7 => exact behind_next (by rw [matchWord_state]; exact hstay)
  case h_8 | h_9 | h_10 => split_ifs <;> exact behind_next hstay
  all_goals exact behind_next hstay

theorem behind_headerValue (p : HttpParser) (ch : UInt8) : Behind (switchHeaderValue p ch) := by
  unfold switchHeaderValue
  split <;> rename_i hp
  · split_ifs
    · exact .inr ⟨rfl, by simp, by simp, by simp⟩
    · exact .inr ⟨rfl, by simp, by simp, by simp⟩
    · exact behind_valueChar ch hp
  · exact behind_expect rfl
  · split_ifs
    · exact behind_again rfl
    · exact behind_again rfl
  · trivial

theorem behind_headersEnd (p : HttpParser) (ch : UInt8) : Behind (switchHeadersEnd p ch) := by
  unfold switchHeadersEnd
  split <;> rename_i hp
  · split_ifs
    · trivial
    · exact .inl rfl
    · exact .inr ⟨rfl, by simp, by simp, by simp⟩
  · simp only
    split_ifs <;> first
      | trivial
      | exact .inl rfl
      | exact behind_next rfl
  · trivial

theorem behind_chunk (p : HttpParser) (ch : UInt8) : Behind (switchChunk p ch) := by
  unfold switchChunk
  split <;> rename_i hp
  · split
    · trivial
    · exact behind_next rfl
  · split
    · exact behind_next rfl
    · split
      · split_ifs
        · exact behind_next rfl
        · trivial
      · split
        · trivial
        · exact behind_next (by simp only [hp]; rfl)
  · split_ifs
    · exact behind_next rfl
    · exact behind_next (by rw [hp]; rfl)
  · simp only
    split_ifs
    · trivial
    · exact behind_next rfl
    · exact behind_next rfl
  · split_ifs
    · trivial
    · exact .inr ⟨rfl, by simp, by simp, by simp⟩
  · split_ifs
    · trivial
    · exact behind_next rfl
  · trivial

theorem behind_body (p : HttpParser) : Behind (switchBody p) := by
  unfold switchBody
  split <;> rename_i hp
  · simp only
    split_ifs
    · exact .inr ⟨rfl, by simp, by simp, by simp⟩
    · exact .inr ⟨by simp only [hp]; rfl, by simp, by simp, by simp⟩
  · exact .inr ⟨by simp only [hp]; rfl, by simp, by simp, by simp⟩
  · simp only
    split_ifs
    · exact .inr ⟨rfl, by simp, by simp, by simp⟩
    · exact .inr ⟨by simp only [hp]; rfl, by simp, by simp, by simp⟩
  · exact .inl rfl
  · trivial

/-- What a step does about the target: it sets the mark at its first byte, reports it at the byte
after its last, and leaves it alone elsewhere. -/
def Onward (st : ScanStage) (ch : UInt8) : Step → Prop
  | .error _ _ => True
  | .go m q c after =>
    st = .done ∧ c = .notify .messageComplete ∨
      stageOf q.state = some (st.next ch) ∧
        (st = .done ∧ after ≠ .ret ∨
          after = .next ∧ c ≠ .headersComplete ∧ c ≠ .notify .messageComplete) ∧
        (m = some .url ∧ c = .none ∧ st = .spaces ∧ st.next ch = .target ∨
          m = none ∧ c = .data .url false true ∧ st = .target ∧ st.next ch = .done ∨
          m ≠ some .url ∧ (∀ w k, c ≠ .data .url w k) ∧ (st = .target ↔ st.next ch = .target))

theorem onward_urlChar {st : ScanStage} {p : HttpParser} {ch : UInt8} {m : Option Elem}
    (hch : st.next ch = .target)
    (h : m = some .url ∧ st = .spaces ∨ m = none ∧ st = .target) : Onward st ch (urlChar m p ch) := by
  unfold urlChar
  simp only
  split_ifs with hd
  · trivial
  · have hu : stageOf (parseUrlChar p.state ch) = some .target :=
      if_pos ((parseUrlChar_inUrl p.state ch).resolve_left hd)
    refine .inr ⟨hch ▸ hu, .inr ⟨rfl, by simp, by simp⟩, ?_⟩
    rcases h with ⟨rfl, rfl⟩ | ⟨rfl, rfl⟩
    · exact .inl ⟨rfl, rfl, rfl, hch⟩
    · exact .inr (.inr ⟨by decide, by simp, by simp [hch]⟩)

theorem onward_next {st : ScanStage} {p : HttpParser} {ch : UInt8}
    (h : stageOf p.state = some (st.next ch)) (ht : st = .target ↔ st.next ch = .target) :
    Onward st ch (Step.next p) :=
  .inr ⟨h, .inr ⟨rfl, by simp, by simp⟩, .inr (.inr ⟨by decide, by simp, ht⟩)⟩

theorem methodString_noSpace (m : Method) (i : Nat) : (methodString m).getD i 0 ≠ ' '.toUInt8 := by
  have hall : ∀ ch ∈ methodString m, ch ≠ ' '.toUInt8 := by
    cases m <;> decide +kernel
  rcases lt_or_ge i (methodString m).length with hi | hi
  · rw [List.getD_eq_getElem _ _ hi]
    exact hall _ (List.getElem_mem hi)
  · rw [List.getD_eq_default _ _ hi]
    decide

theorem otherMethod_space (m : Method) (i : Nat) : otherMethod m i ' '.toUInt8 = none := by
  have hH : ' '.toUInt8 ≠ 'H'.toUInt8 := by decide
  have hP : ' '.toUInt8 ≠ 'P'.toUInt8 := by decide
  have hO : ' '.toUInt8 ≠ 'O'.toUInt8 := by decide
  have hE : ' '.toUInt8 ≠ 'E'.toUInt8 := by decide
  have hM : ' '.toUInt8 ≠ '-'.toUInt8 := by decide
  have hA : ' '.toUInt8 ≠ 'A'.toUInt8 := by decide
  have hR : ' '.toUInt8 ≠ 'R'.toUInt8 := by decide
  have hU : ' '.toUInt8 ≠ 'U'.toUInt8 := by decide
  have hS : ' '.toUInt8 ≠ 'S'.toUInt8 := by decide
  simp only [otherMethod, hH, hP, hO, hE, hM, hA, hR, hU, hS, and_false, if_false, ite_self]

theorem onward_method {p : HttpParser} {ch : UInt8} (hp : p.state = .reqMethod) :
    Onward .method ch (switchMethod p ch) := by
  have hstay : ∀ q : HttpParser, q.state = .reqMethod → ch ≠ ' '.toUInt8 →
      Onward .method ch (Step.next q) := by
    intro q hq hch
    exact onward_next (by simp [ScanStage.next, hch, hq, stageOf, State.inUrl])
      (by simp [ScanStage.next, hch])
  unfold switchMethod
  simp only
  split_ifs with h0 hspace hexpected
  · trivial
  · exact onward_next (by simp [ScanStage.next, hspace.1, stageOf, State.inUrl])
      (by simp [ScanStage.next, hspace.1])
  · exact hstay _ hp (by rw [hexpected]; exact methodString_noSpace _ _)
  · split
    · rename_i m hm
      refine hstay _ hp ?_
      rintro rfl
      rw [otherMethod_space] at hm
      cases hm
    · trivial

theorem onward_requestTarget {st : ScanStage} {p : HttpParser} {ch : UInt8}
    (h : stageOf p.state = some st) : Onward st ch (switchRequestTarget p ch) := by
  unfold switchRequestTarget
  split <;> rename_i hp <;> try rw [hp] at h
  case h_1 =>
    obtain rfl : ScanStage.blank = st := Option.some.inj h
    split_ifs with hb
    · exact onward_next (by simp [ScanStage.next, hb, hp, stageOf, State.inUrl])
        (by simp [ScanStage.next, hb])
    · trivial
    · split
      · exact .inr ⟨by simp [ScanStage.next, hb, stageOf, State.inUrl], .inr ⟨rfl, by simp, by simp⟩,
          .inr (.inr ⟨by decide, by simp, by simp [ScanStage.next, hb]⟩)⟩
      · trivial
  case h_2 =>
    obtain rfl : ScanStage.method = st := Option.some.inj h
    exact onward_method hp
  case h_3 =>
    obtain rfl : ScanStage.spaces = st := Option.some.inj h
    split_ifs with hch
    · exact onward_next (by simp [ScanStage.next, hch, hp, stageOf, State.inUrl])
        (by simp [ScanStage.next, hch])
    · exact onward_urlChar (by simp [ScanStage.next, hch]) (.inl ⟨rfl, rfl⟩)
    · exact onward_urlChar (by simp [ScanStage.next, hch]) (.inl ⟨rfl, rfl⟩)
  case h_15 => trivial
  case h_4 | h_5 | h_6 | h_7 =>
    obtain rfl : ScanStage.target = st := Option.some.inj h
    split_ifs with hch
    · trivial
    · exact onward_urlChar (if_neg hch) (.inr ⟨rfl, rfl⟩)
  all_goals
    obtain rfl : ScanStage.target = st := Option.some.inj h
    split
    · rename_i h1
      exact .inr ⟨by simp [ScanStage.next, h1, stageOf, State.inUrl], .inr ⟨rfl, by simp, by simp⟩,
        .inr (.inl ⟨rfl, rfl, rfl, by simp [ScanStage.next, h1]⟩)⟩
    rename_i h1
    split
    · rename_i h2
      refine .inr ⟨?_, .inr ⟨rfl, by simp, by simp⟩, .inr (.inl ⟨rfl, rfl, rfl, ?_⟩)⟩
      · rcases h2 with rfl | rfl <;> rfl
      · rcases h2 with h2 | h2 <;> simp [ScanStage.next, h2]
    · rename_i h2
      exact onward_urlChar (by simp [ScanStage.next, h1, h2]) (.inr ⟨rfl, rfl⟩)

theorem onward_behind {ch : UInt8} {step : Step} (h : Behind step) : Onward .done ch step := by
  cases step with
  | error p e => trivial
  | go m q c after =>
    rcases h with h | ⟨hq, hafter, hm, hc⟩
    · exact .inl ⟨rfl, h⟩
    · exact .inr ⟨hq, .inl ⟨rfl, hafter⟩, .inr (.inr ⟨hm, hc, Iff.rfl⟩)⟩

/-- **Every step of the switch goes on as the scan says.** -/
theorem onward_switch {st : ScanStage} {p : HttpParser} (ch : UInt8)
    (h : stageOf p.state = some st) : Onward st ch (switch p ch) := by
  unfold switch
  split <;> rename_i hp
  all_goals first
    | exact onward_requestTarget h
    | (rw [hp] at h; cases h)
  all_goals first
    | exact onward_behind (behind_requestVersion p ch)
    | exact onward_behind (behind_headerField p ch)
    | exact onward_behind (behind_headerValueStart p ch)
    | exact onward_behind (behind_headerValue p ch)
    | exact onward_behind (behind_headersEnd p ch)
    | exact onward_behind (behind_chunk p ch)
    | exact onward_behind (behind_body p)

/-! ## The marks of a read -/

theorem TargetScan.byte_done {sc : TargetScan} (h : sc.stage = .done) (ch : UInt8) :
    sc.byte ch = sc := by
  cases sc
  cases h
  rfl

/-- The loop as far as the scan: the mark of the target has its text, or `url_` does. -/
structure Stands (sc : TargetScan) (f : Locals RequestFields) : Prop where
  errno : f.parser.httpErrno = .ok
  stage : stageOf f.parser.state = some sc.stage
  early : sc.stage ≠ .target → sc.stage ≠ .done → sc.text = []
  inside : sc.stage = .target → f.marks .url = some sc.text
  outside : sc.stage ≠ .target → f.marks .url = none ∧ f.user.url = sc.text

/-- A parser that is paused goes on behind the target. -/
def Resumes (p : HttpParser) : Prop := p.httpErrno = .paused → stageOf p.state = some .done

/-- Where a byte stops the loop, the target is behind, or it was not and nothing has paused the
parser. -/
def Scanned (st : ScanStage) (sc : TargetScan) : Outcome RequestFields → Prop
  | .next f => Stands sc f
  | .stop used f => f.parser.httpErrno ≠ .ok ∧
      (sc.stage = .done ∧ f.user.url = sc.text ∧
          (used = 0 ∧ Resumes f.parser ∨ f.user.isComplete = true) ∨
        st ≠ .done ∧ used = 0 ∧ f.parser.httpErrno ≠ .paused)

theorem data_url {e : Elem} (h : e ≠ .url) (p : HttpParser) (text : Str) (u : RequestFields) :
    (settings.data e p text u).user.url = u.url := by
  cases e with
  | url => exact absurd rfl h
  | headerField =>
    simp only [Settings.data, settings, RequestFields.onHeaderField, RequestFields.flushHeader]
    split_ifs <;> rfl
  | status | headerValue | body => rfl

/-- A callback that is not `on_url` leaves the target alone. -/
theorem runCall_url (ch : UInt8) (f : Locals RequestFields) {c : Call}
    (h : ∀ w k, c ≠ .data .url w k) :
    (runCall settings ch f c).1.user.url = f.user.url ∧
      (runCall settings ch f c).1.marks .url = f.marks .url := by
  cases c with
  | none => exact ⟨rfl, rfl⟩
  | data e w k =>
    have hne : e ≠ .url := by
      rintro rfl
      exact h w k rfl
    simp only [runCall, Locals.callData]
    split
    · exact ⟨rfl, rfl⟩
    · exact ⟨data_url hne _ _ _, Function.update_of_ne hne.symm _ _⟩
  | notify n => cases n <;> exact ⟨rfl, rfl⟩
  | headersComplete =>
    refine ⟨?_, rfl⟩
    simp only [runCall, Locals.callHeadersComplete, Settings.headersComplete, settings,
      RequestFields.onHeadersComplete, RequestFields.flushHeader]
    split_ifs <;> rfl

theorem data_settle (e : Elem) (p : HttpParser) (text : Str) (u : RequestFields) (failed : Errno) :
    (settings.data e p text u).settle failed p = p := settings_reads.data_settle e p text u failed

/-- Only the two callbacks that pause the parser stop the loop. -/
theorem runCall_stops (ch : UInt8) (f : Locals RequestFields) (c : Call)
    (hok : f.parser.httpErrno = .ok) :
    (c ≠ .headersComplete → c ≠ .notify .messageComplete →
      (runCall settings ch f c).2 = none ∧ (runCall settings ch f c).1.parser = f.parser) ∧
    (c = .headersComplete ∨ c = .notify .messageComplete →
      (runCall settings ch f c).1.parser.httpErrno = .paused ∧
        ∃ used, (runCall settings ch f c).2 = some used ∧
          (used = 0 ∧ c = .headersComplete ∨
            (runCall settings ch f c).1.user.isComplete = true)) := by
  have hpause : (parserPause f.parser true).httpErrno = .paused := by simp [parserPause, hok]
  cases c with
  | none => exact ⟨fun _ _ => ⟨rfl, rfl⟩, by simp⟩
  | data e w k =>
    refine ⟨fun _ _ => ?_, by simp⟩
    have hp : (f.callData settings e (if w then [ch] else [])).parser = f.parser := by
      unfold Locals.callData
      split
      · rfl
      · exact data_settle _ _ _ _ _
    simp only [runCall, hp, checkErrno, hok, ne_eq, not_true_eq_false, if_false, and_self]
  | notify n =>
    cases n with
    | messageBegin =>
      refine ⟨fun _ _ => ?_, by simp⟩
      simp [runCall, Locals.callNotify, Settings.notify, settings, Reply.settle, checkErrno, hok]
    | messageComplete =>
      refine ⟨by simp, fun _ => ⟨hpause, 1, ?_, .inr rfl⟩⟩
      simp [runCall, Locals.callNotify, Settings.notify, settings, Reply.settle, checkErrno, hpause]
  | headersComplete =>
    refine ⟨by simp, fun _ => ⟨hpause, 0, ?_, .inl ⟨rfl, rfl⟩⟩⟩
    simp [runCall, Locals.callHeadersComplete, Settings.headersComplete, settings,
      Reply.settleHeaders, checkErrno, hpause]

/-- A step that is not about the target. -/
theorem stands_aside {sc : TargetScan} {ch : UInt8} {f g : Locals RequestFields} (h : Stands sc f)
    (herrno : g.parser.httpErrno = .ok) (hstage : stageOf g.parser.state = some (sc.stage.next ch))
    (hmarks : g.marks .url = f.marks .url) (huser : g.user.url = f.user.url)
    (ht : sc.stage = .target ↔ sc.stage.next ch = .target) :
    Stands (sc.byte ch) (g.advance ch) where
  errno := herrno
  stage := hstage
  early h1 h2 := by
    have h1' : sc.stage.next ch ≠ .target := h1
    have h3 : sc.stage ≠ .done := by
      intro hd
      rw [TargetScan.byte_done hd] at h2
      exact h2 hd
    simp only [TargetScan.byte, if_neg h1', h.early (fun hs => h1' (ht.mp hs)) h3]
  inside h1 := by
    have h1' : sc.stage.next ch = .target := h1
    simp only [Locals.advance, hmarks, h.inside (ht.mpr h1'), TargetScan.byte, if_pos h1',
      Option.map_some]
  outside h1 := by
    have h1' : sc.stage.next ch ≠ .target := h1
    obtain ⟨hm, hu⟩ := h.outside fun hs => h1' (ht.mp hs)
    simp only [Locals.advance, hmarks, hm, huser, hu, TargetScan.byte, if_neg h1', Option.map_none,
      and_self]

/-- One byte of the loop is one byte of the scan. -/
theorem byte_scanned {n : Nat} {ch : UInt8} {f : Locals RequestFields} {sc : TargetScan}
    (hn : rank f.parser.state < n) (h : Stands sc f) :
    Scanned sc.stage (sc.byte ch) (Http.byte settings n ch f) := by
  induction n generalizing f with
  | zero => omega
  | succ n ih =>
    have hd := switch_disciplined f.parser ch
    have ho := onward_switch ch h.stage
    rw [Http.byte]
    cases hs : switch f.parser ch with
    | error p e =>
      rw [hs] at hd
      refine ⟨hd.1, ?_⟩
      by_cases hdone : sc.stage = .done
      · rw [TargetScan.byte_done hdone]
        exact .inl ⟨hdone, (h.outside (by rw [hdone]; decide)).2,
          .inl ⟨rfl, fun hp => absurd hp hd.2⟩⟩
      · exact .inr ⟨hdone, rfl, hd.2⟩
    | go m q c after =>
      rw [hs] at hd ho
      have hq : q.httpErrno = .ok := hd.1.trans h.errno
      simp only
      generalize hg : (({ f with parser := q } : Locals RequestFields).mark m) = g
      have hgp : g.parser = q := by rw [← hg, parser_mark]
      have hgu : g.user = f.user := by rw [← hg, mark_user]
      have hgm : m ≠ some .url → g.marks .url = f.marks .url := by
        intro hm
        rw [← hg]
        cases m with
        | none => rfl
        | some e =>
          have hne : Elem.url ≠ e := fun h => hm (by rw [h])
          rw [Locals.mark_marks, if_neg hne]
      obtain ⟨hgoes, hstops⟩ := runCall_stops ch g c (by rw [hgp]; exact hq)
      have hurl := @runCall_url ch g c
      by_cases hc : c = .headersComplete ∨ c = .notify .messageComplete
      · -- the parser pauses
        obtain ⟨hpaused, used, hr, hused⟩ := hstops hc
        have hdone : sc.stage = .done := by
          rcases ho with ⟨hdone, -⟩ | ⟨-, ⟨hdone, -⟩ | ⟨-, h1, h2⟩, -⟩
          · exact hdone
          · exact hdone
          · rcases hc with hc | hc
            · exact absurd hc h1
            · exact absurd hc h2
        have hnot : ∀ w k, c ≠ .data .url w k := by
          rcases hc with rfl | rfl <;> simp
        rcases hcall : runCall settings ch g c with ⟨g', r⟩
        have hstate := runCall_state settings ch g c
        rw [hcall] at hpaused hr hused hurl hstate
        simp only at hr hpaused hused
        subst hr
        rw [TargetScan.byte_done hdone]
        refine ⟨by rw [hpaused]; decide, .inl ⟨hdone, ?_, hused.imp ?_ id⟩⟩
        · rw [(hurl hnot).1, hgu, (h.outside (by rw [hdone]; decide)).2]
        · rintro ⟨hused, hc⟩
          refine ⟨hused, fun _ => ?_⟩
          obtain ⟨hstage, -⟩ := ho.resolve_left fun h => by simp [hc] at h
          rw [hstate, hgp, hstage, hdone]
          rfl
      · obtain ⟨hc1, hc2⟩ := not_or.mp hc
        obtain ⟨hr, hp⟩ := hgoes hc1 hc2
        obtain ⟨hstage, hafter, hcase⟩ := ho.resolve_left fun h => hc2 h.2
        rcases hcall : runCall settings ch g c with ⟨g', r⟩
        rw [hcall] at hr hp hurl
        simp only at hr hp
        subst hr
        rw [hgp] at hp
        cases hafter' : after with
        | ret =>
          rcases hafter with ⟨-, hne⟩ | ⟨heq, -⟩
          · exact absurd hafter' hne
          · rw [hafter'] at heq
            cases heq
        | again =>
          have hdone : sc.stage = .done := by
            rcases hafter with ⟨hdone, -⟩ | ⟨heq, -⟩
            · exact hdone
            · rw [hafter'] at heq
              cases heq
          have hrank : rank q.state < rank f.parser.state := hd.2.2.1 hafter'
          obtain ⟨hm, hnot, -⟩ : m ≠ some .url ∧ (∀ w k, c ≠ .data .url w k) ∧ _ := by
            rcases hcase with ⟨-, -, hs, -⟩ | ⟨-, -, hs, -⟩ | h
            · rw [hdone] at hs
              cases hs
            · rw [hdone] at hs
              cases hs
            · exact h
          obtain ⟨hu, hk⟩ := h.outside (by rw [hdone]; decide)
          refine ih (by rw [hp]; omega) ⟨by rw [hp]; exact hq, ?_, h.early, fun ht => ?_, fun _ => ?_⟩
          · rw [hp, hstage, hdone]
            rfl
          · rw [hdone] at ht
            cases ht
          · exact ⟨by rw [(hurl hnot).2, hgm hm, hu], by rw [(hurl hnot).1, hgu, hk]⟩
        | next =>
          have herrno : g'.parser.httpErrno = .ok := by rw [hp]; exact hq
          have hstage' : stageOf g'.parser.state = some (sc.stage.next ch) := by rw [hp]; exact hstage
          rcases hcase with ⟨rfl, rfl, hspaces, htarget⟩ | ⟨rfl, rfl, htarget, hdone⟩ | ⟨hm, hnot, ht⟩
          · -- the first byte of the target sets the mark
            obtain rfl : g = g' := congrArg Prod.fst hcall
            obtain ⟨hu, -⟩ := h.outside (by rw [hspaces]; decide)
            have htext : sc.text = [] :=
              h.early (by rw [hspaces]; decide) (by rw [hspaces]; decide)
            refine ⟨herrno, hstage', fun h1 => absurd htarget h1, fun _ => ?_,
              fun h1 => absurd htarget h1⟩
            simp only [Locals.advance, ← hg, Locals.mark_marks, if_true, hu, TargetScan.byte,
              if_pos htarget, htext]
            rfl
          · -- the byte after its last reports it
            have hmark : g.marks .url = some sc.text := by
              rw [hgm (by decide)]
              exact h.inside htarget
            obtain rfl : g.callData settings .url [] = g' := congrArg Prod.fst hcall
            have hne : sc.stage.next ch ≠ .target := by rw [hdone]; decide
            refine ⟨herrno, hstage', fun _ h2 => absurd hdone h2, fun h1 => absurd h1 hne,
              fun _ => ?_⟩
            simp only [Locals.advance, Locals.callData, hmark, Function.update_self,
              Option.map_none, TargetScan.byte, if_neg hne, List.append_nil]
            exact ⟨trivial, rfl⟩
          · exact stands_aside h herrno hstage' (by rw [(hurl hnot).2, hgm hm])
              (by rw [(hurl hnot).1, hgu]) ht

theorem countByte_stands {sc : TargetScan} {f : Locals RequestFields} (h : Stands sc f) :
    Stands sc { f with parser := countByte f.parser } where
  errno := (Reading.countByte_errno f.parser).trans h.errno
  stage := by rw [countByte_state]; exact h.stage
  early := h.early
  inside := h.inside
  outside := h.outside

theorem stepByte_scanned {ch : UInt8} {f : Locals RequestFields} {sc : TargetScan}
    (h : Stands sc f) : Scanned sc.stage (sc.byte ch) (Http.stepByte settings ch f) := by
  unfold Http.stepByte
  simp only
  split
  · refine ⟨by simp, ?_⟩
    by_cases hdone : sc.stage = .done
    · rw [TargetScan.byte_done hdone]
      exact .inl ⟨hdone, (h.outside (by rw [hdone]; decide)).2,
        .inl ⟨rfl, fun hp => nomatch hp⟩⟩
    · exact .inr ⟨hdone, rfl, by simp⟩
  · exact byte_scanned (by rw [countByte_state]; exact rank_lt_passes _) (countByte_stands h)

theorem TargetScan.foldl_done {sc : TargetScan} (h : sc.stage = .done) (bytes : Str) :
    bytes.foldl TargetScan.byte sc = sc := by
  induction bytes with
  | nil => rfl
  | cons ch rest ih => rw [List.foldl_cons, byte_done h, ih]

/-- The bytes of a read; where they stop the loop, the scan of the rest is the scan so far. -/
theorem loop_scanned {bytes : Str} {f f' : Locals RequestFields} {sc : TargetScan}
    {r : Option Nat} (h : Stands sc f) (hl : loop settings bytes f = (r, f')) :
    let sc' := bytes.foldl TargetScan.byte sc
    (r = none → Stands sc' f') ∧
      ∀ k, r = some k → f'.parser.httpErrno ≠ .ok ∧
        (sc'.stage = .done ∧ f'.user.url = sc'.text ∧
            (k < bytes.length ∧ Resumes f'.parser ∨ f'.user.isComplete = true) ∨
          sc.stage ≠ .done ∧ k < bytes.length ∧ f'.parser.httpErrno ≠ .paused) := by
  induction bytes generalizing f sc r with
  | nil =>
    cases hl
    exact ⟨fun _ => h, fun k hk => absurd hk (Option.some_ne_none k).symm⟩
  | cons ch rest ih =>
    have hstep := @stepByte_scanned ch _ _ h
    rw [loop] at hl
    rw [List.foldl_cons]
    rcases hs : Http.stepByte settings ch f with f₁ | ⟨used, f₁⟩
    · rw [hs] at hstep hl
      rcases hr : loop settings rest f₁ with ⟨r', f₂⟩
      simp only [hr] at hl
      cases hl
      obtain ⟨hnext, hstop⟩ := ih hstep hr
      refine ⟨fun hn => hnext (by simpa using hn), fun k hk => ?_⟩
      obtain ⟨j, hj, rfl⟩ : ∃ j, r' = some j ∧ j + 1 = k := by simpa using hk
      obtain ⟨herr, hcase⟩ := hstop j hj
      refine ⟨herr, hcase.imp (fun hdone => ⟨hdone.1, hdone.2.1, by simpa using hdone.2.2⟩)
        fun hearly => ⟨fun hd => hearly.1 ?_, by simpa using hearly.2.1, hearly.2.2⟩⟩
      rw [TargetScan.byte_done hd]
      exact hd
    · rw [hs] at hstep hl
      cases hl
      refine ⟨fun hn => absurd hn (Option.some_ne_none used), fun k hk => ?_⟩
      obtain rfl : used = k := Option.some.inj hk
      obtain ⟨herr, hcase⟩ := hstep
      refine ⟨herr, ?_⟩
      rcases hcase with ⟨hdone, htext, hused⟩ | ⟨hnot, hused, hpaused⟩
      · have hrest := TargetScan.foldl_done hdone rest
        rw [hrest]
        refine .inl ⟨hdone, htext, hused.imp (fun h => ⟨?_, h.2⟩) id⟩
        simp [h.1]
      · exact .inr ⟨hnot, by simp [hused], hpaused⟩

/-- The left-over marks report the target as far as the read has it. -/
theorem flushMarks_url (es : List Elem) {f : Locals RequestFields} (hok : f.parser.httpErrno = .ok) :
    (flushMarks settings es f).parser = f.parser ∧
      (flushMarks settings es f).user.url =
        if .url ∈ es then (f.marks .url).getD f.user.url else f.user.url := by
  induction es generalizing f with
  | nil => exact ⟨rfl, rfl⟩
  | cons e es ih =>
    rw [flushMarks]
    cases hs : f.marks e with
    | none =>
      obtain ⟨hp, hu⟩ := ih hok
      refine ⟨hp, hu.trans ?_⟩
      rcases eq_or_ne e .url with rfl | hne
      · simp [hs]
      · simp [hne.symm]
    | some text =>
      have hp : (f.callData settings e []).parser = f.parser := by
        simp only [Locals.callData, hs, data_settle]
      have hstop : ¬(f.callData settings e []).parser.httpErrno ≠ .ok := by
        rw [hp, hok]
        simp
      obtain ⟨hp', hu⟩ := @ih (f.callData settings e []) (by rw [hp]; exact hok)
      simp only [if_neg hstop]
      refine ⟨hp'.trans hp, hu.trans ?_⟩
      rcases eq_or_ne e .url with rfl | hne
      · have hu' : (f.callData settings .url []).user.url = text := by
          simp only [Locals.callData, hs, List.append_nil]
          rfl
        have hm : (f.callData settings .url []).marks .url = none := by
          simp only [Locals.callData, hs, Function.update_self]
        simp [hu', hm, hs]
      · have hu' : (f.callData settings e []).user.url = f.user.url := by
          simp only [Locals.callData, hs, data_url hne]
        have hm : (f.callData settings e []).marks .url = f.marks .url := by
          simp only [Locals.callData, hs, Function.update_of_ne hne.symm]
        simp [hu', hm, hne.symm]

/-! ## `parse` -/

/-- The request parser between two reads, as far as the scan. -/
structure UrlAt (rp : RequestParser) (sc : TargetScan) : Prop where
  errno : rp.parser.httpErrno = .ok
  stage : stageOf rp.parser.state = some sc.stage
  early : sc.stage ≠ .target → sc.stage ≠ .done → sc.text = []
  url : rp.fields.url = sc.text

theorem stageOf_inUrl {s : State} {st : ScanStage} (h : stageOf s = some st) :
    s.inUrl = true ↔ st = .target := by
  unfold stageOf at h
  split_ifs at h with hu
  · exact ⟨fun _ => (Option.some.inj h).symm, fun _ => hu⟩
  · refine ⟨fun h' => absurd h' hu, ?_⟩
    rintro rfl
    split at h <;> cases h

theorem UrlAt.stands {rp : RequestParser} {sc : TargetScan} (h : UrlAt rp sc) :
    Stands (if sc.stage = .target then { sc with text := [] } else sc)
      ⟨rp.parser, rp.fields, initialMarks rp.parser.state⟩ := by
  have hin := stageOf_inUrl h.stage
  split_ifs with ht
  · exact ⟨h.errno, h.stage, fun h1 => absurd ht h1, fun _ => if_pos (hin.mpr ht),
      fun h1 => absurd ht h1⟩
  · exact ⟨h.errno, h.stage, h.early, fun h1 => absurd h1 ht,
      fun _ => ⟨if_neg fun h1 => ht (hin.mp h1), h.url⟩⟩

/-- One run of the parser on the bytes of a read. -/
theorem execute_scanned {rp : RequestParser} {sc : TargetScan} {data : Str} (h : UrlAt rp sc)
    (hne : data ≠ []) {k : Nat} {p : HttpParser} {u : RequestFields}
    (he : execute settings rp.parser rp.fields data = (k, p, u)) :
    k = data.length ∧ UrlAt ⟨p, u⟩ (sc.read data) ∨
      p.httpErrno ≠ .ok ∧
        ((sc.read data).stage = .done ∧ u.url = (sc.read data).text ∧
            (k < data.length ∧ Resumes p ∨ u.isComplete = true) ∨
          sc.stage ≠ .done ∧ k < data.length ∧ p.httpErrno ≠ .paused) := by
  have hok : ¬rp.parser.httpErrno ≠ .ok := by simp [h.errno]
  rw [execute, if_neg hok, if_neg hne] at he
  rcases hl : loop settings data ⟨rp.parser, rp.fields, initialMarks rp.parser.state⟩ with ⟨_ | j, f⟩
  · rw [hl] at he
    cases he
    have hf : Stands (sc.read data) f := (loop_scanned h.stands hl).1 rfl
    obtain ⟨hp, hu⟩ := flushMarks_url flushOrder hf.errno
    refine .inl ⟨rfl, ⟨hp ▸ hf.errno, hp ▸ hf.stage, hf.early, hu.trans ?_⟩⟩
    rw [if_pos (mem_flushOrder .url)]
    by_cases ht : (sc.read data).stage = .target
    · rw [hf.inside ht, Option.getD_some]
    · rw [(hf.outside ht).1, Option.getD_none, (hf.outside ht).2]
  · rw [hl] at he
    cases he
    obtain ⟨herr, hcase⟩ := (loop_scanned h.stands hl).2 k rfl
    refine .inr ⟨herr, hcase.imp id fun h => ⟨fun hd => h.1 ?_, h.2⟩⟩
    rw [if_neg (by rw [hd]; decide)]
    exact hd

theorem TargetScan.read_done {sc : TargetScan} (h : sc.stage = .done) (data : Str) :
    sc.read data = sc := by
  have hne : sc.stage ≠ .target := by
    rw [h]
    decide
  rw [read, if_neg hne, foldl_done h]

/-- **`parse` leaves the target as far as the read has it**, unless it finds an error. -/
theorem parse_scanned {rp : RequestParser} {sc : TargetScan} {data : Str} (h : UrlAt rp sc)
    (hne : data ≠ []) (hr : (rp.parse data).1 ≠ .error) :
    (rp.parse data).2.fields.url = (sc.read data).text ∧
      ((rp.parse data).1 = .indeterminate → (rp.parse data).2.parser.httpErrno = .ok →
        UrlAt (rp.parse data).2 (sc.read data)) := by
  unfold parse at hr ⊢
  rcases he : execute settings rp.parser rp.fields data with ⟨k, p, u⟩
  simp only [he] at hr ⊢
  rcases execute_scanned h hne he with ⟨rfl, hat⟩ | ⟨herr, hcase⟩
  · have hp : p.httpErrno ≠ .paused := by
      rw [hat.errno]
      decide
    simp only [lt_irrefl, if_false, if_neg hp]
    exact ⟨hat.url, fun _ _ => hat⟩
  by_cases hk : k < data.length
  · by_cases hp : p.httpErrno = .paused
    · obtain ⟨hdone, hurl, hstop⟩ := hcase.resolve_right fun h => h.2.2 hp
      simp only [hk, if_true, hp] at hr ⊢
      cases hc : u.isComplete with
      | true =>
        simp only [if_true]
        refine ⟨hurl, fun hi => ?_⟩
        simp [resultOf, hc] at hi
      | false =>
        -- the rest of the read goes on behind the target
        have hpause : parserPause p false = { p with httpErrno := .ok } := by
          simp [parserPause, hp]
        have hat : UrlAt ⟨parserPause p false, u⟩ (sc.read data) := by
          rw [hpause]
          exact ⟨rfl, hdone ▸ (hstop.resolve_right (by simp [hc])).2 hp,
            fun _ h2 => absurd hdone h2, hurl⟩
        have hdrop : data.drop k ≠ [] := by
          rw [ne_eq, List.drop_eq_nil_iff]
          omega
        rcases he' : execute settings (parserPause p false) u (data.drop k) with ⟨k', p', u'⟩
        have hrest := execute_scanned hat hdrop he'
        rw [TargetScan.read_done hdone] at hrest
        simp only [Bool.false_eq_true, if_false]
        rcases hrest with ⟨-, hat'⟩ | ⟨herr', hcase'⟩
        · exact ⟨hat'.url, fun _ _ => hat'⟩
        · refine ⟨?_, fun _ h => absurd h herr'⟩
          exact (hcase'.resolve_right fun h => h.1 hdone).2.1
    · simp [hk, hp] at hr
  · obtain ⟨-, hurl, hc⟩ := hcase.resolve_right fun h => hk h.2.1
    simp only [if_neg hk]
    refine ⟨hurl, fun hi => ?_⟩
    simp [resultOf, hc.resolve_left fun h => hk h.1] at hi

end RequestParser

end Wsrv
