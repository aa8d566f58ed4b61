import Wsrv.CallbackRules
import Wsrv.HttpElements
import Wsrv.PrematureCompletion
import Wsrv.ServerSafety

/-!
# What a parser keeps of the headers

`HTTP_MAX_HEADER_SIZE` bounds a counter that is set back with the end of the
headers and with every chunk.  Whatever bytes arrive, in whatever reads, the url
and the headers that a parser keeps are within twice the limit: once for the
headers, and once for those behind the last chunk (`execute_bounded`), and so it is
in every connection of a running server (`heads_bounded`).
-/

namespace Wsrv.Http

/-! ## The budget of a state -/

/-- The states of a start line and of the header lines. -/
def State.inHead : State → Bool
  | .dead | .chunkSizeStart | .chunkSize | .chunkParameters | .chunkSizeAlmostDone
  | .chunkData | .chunkDataAlmostDone | .chunkDataDone | .bodyIdentity | .bodyIdentityEof
  | .messageDone => false
  | _ => true

/-- The states of the header lines, up to the carriage return of the empty one. -/
def State.inFields : State → Bool
  | .headerFieldStart | .headerField | .headerValueDiscardWs | .headerValueDiscardWsAlmostDone
  | .headerValueDiscardLws | .headerValueStart | .headerValue | .headerValueLws
  | .headerAlmostDone | .headersAlmostDone => true
  | _ => false

/-- What the parser may have reported of the url and the headers. -/
def budget (p : HttpParser) : Nat :=
  if p.flags.trailing then HTTP_MAX_HEADER_SIZE + p.nread
  else if p.state.inHead then p.nread
  else HTTP_MAX_HEADER_SIZE

/-- The counter is within the limit, and behind the last chunk come header lines. -/
structure Counted (p : HttpParser) : Prop where
  nread : p.nread ≤ HTTP_MAX_HEADER_SIZE
  trailing : p.flags.trailing = true → p.state.inFields = true

theorem Counted.budget_le {p : HttpParser} (h : Counted p) : budget p ≤ 2 * HTTP_MAX_HEADER_SIZE := by
  have hn := h.nread
  unfold budget
  split_ifs <;> omega

/-- The states outside of the head belong to no element but the body. -/
theorem owner_outside {s : State} {e : Elem} (h : owner s = some e) (he : e ≠ .body) : s.inHead = true := by
  unfold owner at h
  cases s <;> simp_all [State.inUrl, State.inHead]

/-- A step from `p` keeps to the budget, unless it is the one that ends the message. -/
def Step.Budgeted (p : HttpParser) : Step → Prop
  | .error _ _ => True
  | .go _ p' call after =>
    (∀ e k, call = .data e true k → e = .body) ∧
    (call = .notify .messageComplete ∨ Counted p' ∧ budget p ≤ budget p' ∧
      (p.state.inHead = false → p'.state.inHead = true → owner p'.state = none ∧ after = .next))

/-- A move that leaves the counter as it is may leave the head, and not the header lines. -/
def State.leads (s t : State) : Bool := (s.inHead || !t.inHead) && (t.inFields || !s.inFields)

theorem budgeted_move {p p' : HttpParser} {s : State} {m : Option Elem} {call : Call} {after : After}
    (h : Counted p) (hp : p.state = s) (hleads : s.leads p'.state = true)
    (hcall : ∀ e k, call = .data e true k → e = .body) (hn : p'.nread = p.nread)
    (ht : p'.flags.trailing = p.flags.trailing) : (Step.go m p' call after).Budgeted p := by
  simp only [State.leads, Bool.and_eq_true, Bool.or_eq_true, Bool.not_eq_true'] at hleads
  obtain ⟨hhead, hfields⟩ := hleads
  rw [← hp] at hhead hfields
  refine ⟨hcall, .inr ⟨⟨hn ▸ h.nread, fun htrue => ?_⟩, ?_, fun hout hin => ?_⟩⟩
  · have hbefore := h.trailing (ht ▸ htrue)
    simpa [hbefore] using hfields
  · have hle := h.nread
    unfold budget
    rw [ht, hn]
    split_ifs <;> first | omega | simp_all
  · simp [hout, hin] at hhead

theorem budgeted_stay {p p' : HttpParser} {m : Option Elem} (h : Counted p) (hs : p'.state = p.state)
    (hn : p'.nread = p.nread) (ht : p'.flags.trailing = p.flags.trailing) :
    (Step.go m p' .none .next).Budgeted p := by
  refine budgeted_move h rfl ?_ (by simp) hn ht
  rw [hs]
  cases p.state <;> rfl

theorem budgeted_expect {p : HttpParser} {ch want : UInt8} {s t : State} {e : Errno} (h : Counted p)
    (hp : p.state = s) (hleads : s.leads t = true) : (Step.expect p ch want t e).Budgeted p := by
  unfold Step.expect
  split_ifs
  · exact trivial
  · exact budgeted_move h hp hleads (by simp) rfl rfl

theorem budgeted_finish {p q : HttpParser} (after : After) : (finish q after).Budgeted p :=
  ⟨by simp, .inl rfl⟩

/-- A start line begins without flags. -/
theorem budgeted_begin {p p' : HttpParser} {s : State} {call : Call} {after : After} (h : Counted p)
    (hp : p.state = s) (hleads : s.leads p'.state = true) (hcall : ∀ e k, call = .data e true k → e = .body)
    (hn : p'.nread = p.nread) (hflags : p'.flags = {}) (hout : s.inFields = false) :
    (Step.go none p' call after).Budgeted p := by
  refine budgeted_move h hp hleads hcall hn ?_
  rw [hflags]
  cases ht : p.flags.trailing with
  | false => rfl
  | true => exact absurd (h.trailing ht) (by simp [hp, hout])

/-! ## Every state keeps to the budget -/

theorem budgeted_firstMajor {p : HttpParser} {ch lo : UInt8} {s t : State} (h : Counted p)
    (hp : p.state = s) (hleads : s.leads t = true) : (firstMajor p ch lo t).Budgeted p := by
  unfold firstMajor
  split_ifs
  · exact trivial
  · exact budgeted_move h hp hleads (by simp) rfl rfl

theorem budgeted_moreMajor {p : HttpParser} {ch : UInt8} {s t : State} (h : Counted p)
    (hp : p.state = s) (hleads : s.leads t = true) : (moreMajor p ch t).Budgeted p := by
  unfold moreMajor
  simp only []
  split_ifs
  · exact budgeted_move h hp hleads (by simp) rfl rfl
  · exact trivial
  · exact trivial
  · exact budgeted_stay h rfl rfl rfl

theorem budgeted_firstMinor {p : HttpParser} {ch : UInt8} {s t : State} (h : Counted p)
    (hp : p.state = s) (hleads : s.leads t = true) : (firstMinor p ch t).Budgeted p := by
  unfold firstMinor
  split_ifs
  · exact trivial
  · exact budgeted_move h hp hleads (by simp) rfl rfl

theorem budgeted_moreMinor {p : HttpParser} {ch : UInt8} (h : Counted p) :
    (moreMinor p ch).Budgeted p := by
  unfold moreMinor
  simp only []
  split_ifs
  · exact trivial
  · exact trivial
  · exact budgeted_stay h rfl rfl rfl

theorem budgeted_method {p : HttpParser} {ch : UInt8} (h : Counted p) (hp : p.state = .reqMethod) :
    (switchMethod p ch).Budgeted p := by
  unfold switchMethod
  simp only []
  split_ifs
  · exact trivial
  · exact budgeted_move h hp rfl (by simp) rfl rfl
  · exact budgeted_stay h rfl rfl rfl
  · split
    · exact budgeted_stay h rfl rfl rfl
    · exact trivial

theorem budgeted_urlChar {p q : HttpParser} {s : State} {m : Option Elem} {ch : UInt8} (h : Counted p)
    (hp : p.state = s) (hin : s.inHead = true) (hout : s.inFields = false) (hn : q.nread = p.nread)
    (ht : q.flags = p.flags) : (urlChar m q ch).Budgeted p := by
  unfold urlChar
  simp only []
  split_ifs
  · exact trivial
  · exact budgeted_move h hp (by simp [State.leads, hin, hout]) (by simp) hn (congrArg Flags.trailing ht)

theorem budgeted_start {p : HttpParser} (ch : UInt8) (h : Counted p) : (switchStart p ch).Budgeted p := by
  unfold switchStart
  split <;> rename_i hp
  · split_ifs
    · exact budgeted_stay h rfl rfl rfl
    · exact trivial
  · split_ifs
    · exact budgeted_stay h rfl rfl rfl
    · exact budgeted_begin h hp rfl (by simp) rfl rfl rfl
    · exact budgeted_begin h hp rfl (by simp) rfl rfl rfl
  · split_ifs
    · exact budgeted_move h hp rfl (by simp) rfl rfl
    · exact trivial
    · exact budgeted_move h hp rfl (by simp) rfl rfl
  · exact trivial

theorem budgeted_responseLine {p : HttpParser} (ch : UInt8) (h : Counted p) :
    (switchResponseLine p ch).Budgeted p := by
  unfold switchResponseLine
  split <;> rename_i hp
  case h_1 =>
    simp only []
    split_ifs
    · exact budgeted_begin h hp rfl (by simp) rfl rfl rfl
    · exact budgeted_begin h hp (by rw [hp]; rfl) (by simp) rfl rfl rfl
    · exact trivial
  case h_6 => exact budgeted_firstMajor h hp rfl
  case h_7 => exact budgeted_moreMajor h hp rfl
  case h_8 => exact budgeted_firstMinor h hp rfl
  case h_9 =>
    split
    · exact budgeted_move h hp rfl (by simp) rfl rfl
    · exact budgeted_moreMinor h
  case h_2 | h_3 | h_4 | h_5 | h_14 => exact budgeted_expect h hp rfl
  case h_15 => exact trivial
  all_goals
    try simp only []
    split_ifs <;> first
      | exact trivial
      | exact budgeted_stay h rfl rfl rfl
      | exact budgeted_move h hp rfl (by simp) rfl rfl

theorem budgeted_requestTarget {p : HttpParser} (ch : UInt8) (h : Counted p) :
    (switchRequestTarget p ch).Budgeted p := by
  unfold switchRequestTarget
  split <;> rename_i hp
  case h_1 =>
    simp only []
    split_ifs
    · exact budgeted_stay h rfl rfl rfl
    · exact trivial
    · split
      · exact budgeted_begin h hp rfl (by simp) rfl rfl rfl
      · exact trivial
  case h_2 => exact budgeted_method h hp
  case h_3 =>
    split_ifs
    · exact budgeted_stay h rfl rfl rfl
    · exact budgeted_urlChar h hp rfl rfl rfl rfl
    · exact budgeted_urlChar h hp rfl rfl rfl rfl
  case h_15 => exact trivial
  case h_4 | h_5 | h_6 | h_7 =>
    split
    · exact trivial
    · exact budgeted_urlChar h hp rfl rfl rfl rfl
  all_goals
    split_ifs <;> first
      | exact budgeted_urlChar h hp rfl rfl rfl rfl
      | exact budgeted_move h hp rfl (by simp) rfl rfl

theorem budgeted_requestVersion {p : HttpParser} (ch : UInt8) (h : Counted p) :
    (switchRequestVersion p ch).Budgeted p := by
  unfold switchRequestVersion
  split <;> rename_i hp
  case h_1 =>
    split_ifs
    · exact budgeted_move h hp rfl (by simp) rfl rfl
    · exact budgeted_stay h rfl rfl rfl
    · exact trivial
  case h_6 => exact budgeted_firstMajor h hp rfl
  case h_7 => exact budgeted_moreMajor h hp rfl
  case h_8 => exact budgeted_firstMinor h hp rfl
  case h_9 =>
    split_ifs
    · exact budgeted_move h hp rfl (by simp) rfl rfl
    · exact budgeted_move h hp rfl (by simp) rfl rfl
    · exact budgeted_moreMinor h
  case h_11 => exact trivial
  all_goals exact budgeted_expect h hp rfl

@[simp] theorem matchWord_counter (p : HttpParser) (c : UInt8) (word : Str) (m : HeaderState) :
    (matchWord p c word m).nread = p.nread ∧ (matchWord p c word m).flags = p.flags := by
  simp only [matchWord]
  split_ifs <;> exact ⟨rfl, rfl⟩

@[simp] theorem headerFieldChar_counter (p : HttpParser) (ch c : UInt8) :
    (headerFieldChar p ch c).nread = p.nread ∧ (headerFieldChar p ch c).flags = p.flags := by
  unfold headerFieldChar
  split <;> first | exact ⟨rfl, rfl⟩ | exact matchWord_counter _ _ _ _ | (split_ifs <;> exact ⟨rfl, rfl⟩)

theorem budgeted_headerField {p : HttpParser} (ch : UInt8) (h : Counted p) :
    (switchHeaderField p ch).Budgeted p := by
  unfold switchHeaderField
  split <;> rename_i hp
  · simp only []
    split_ifs
    · exact budgeted_move h hp rfl (by simp) rfl rfl
    · exact budgeted_move h hp rfl (by simp) rfl rfl
    · exact trivial
    · exact budgeted_move h hp rfl (by simp) rfl rfl
  · simp only []
    split_ifs
    · exact budgeted_stay h (by simp) (by simp) (by simp)
    · exact budgeted_move h hp rfl (by simp) rfl rfl
    · exact budgeted_move h hp rfl (by simp) rfl rfl
    · exact budgeted_move h hp rfl (by simp) rfl rfl
    · exact trivial
  · exact trivial

theorem budgeted_valueStart {p : HttpParser} {s : State} (ch : UInt8) (h : Counted p) (hp : p.state = s)
    (hleads : s.leads .headerValue = true) : (headerValueStart p ch).Budgeted p := by
  unfold headerValueStart
  simp only []
  split
  case h_3 =>
    split
    · exact trivial
    · exact budgeted_move h hp hleads (by simp) rfl rfl
  all_goals exact budgeted_move h hp hleads (by simp) rfl rfl

theorem budgeted_headerValueStart {p : HttpParser} (ch : UInt8) (h : Counted p) :
    (switchHeaderValueStart p ch).Budgeted p := by
  unfold switchHeaderValueStart
  split <;> rename_i hp
  · split_ifs
    · exact budgeted_stay h rfl rfl rfl
    · exact budgeted_move h hp rfl (by simp) rfl rfl
    · exact budgeted_move h hp rfl (by simp) rfl rfl
    · exact budgeted_valueStart ch h hp rfl
  · exact budgeted_valueStart ch h hp rfl
  · exact budgeted_expect h hp rfl
  · split_ifs
    · exact budgeted_move h hp rfl (by simp) rfl rfl
    · exact budgeted_move h hp rfl (by simp) rfl rfl
  · exact trivial

theorem budgeted_valueChar {p : HttpParser} (ch : UInt8) (h : Counted p) :
    (headerValueChar p ch).Budgeted p := by
  unfold headerValueChar
  simp only []
  split
  case h_4 =>
    split_ifs
    · exact budgeted_stay h rfl rfl rfl
    · exact trivial
    · split
      · exact trivial
      · exact budgeted_stay h rfl rfl rfl
  case h_5 | h_6 | h_7 => exact budgeted_stay h (by simp) (by simp) (by simp)
  case h_8 | h_9 | h_10 =>
    exact budgeted_stay h (by split_ifs <;> rfl) (by split_ifs <;> rfl) (by split_ifs <;> rfl)
  all_goals exact budgeted_stay h rfl rfl rfl

theorem headerFlags_trailing (p : HttpParser) : (headerFlags p).trailing = p.flags.trailing := by
  unfold headerFlags
  split <;> rfl

theorem budgeted_headerValue {p : HttpParser} (ch : UInt8) (h : Counted p) :
    (switchHeaderValue p ch).Budgeted p := by
  unfold switchHeaderValue
  split <;> rename_i hp
  · split_ifs
    · exact budgeted_move h hp rfl (by simp) rfl rfl
    · exact budgeted_move h hp rfl (by simp) rfl rfl
    · exact budgeted_valueChar ch h
  · exact budgeted_expect h hp rfl
  · split_ifs
    · exact budgeted_move h hp rfl (by simp) rfl rfl
    · exact budgeted_move h hp rfl (by simp) rfl (headerFlags_trailing p)
  · exact trivial

/-- A move that sets the counter back, out of the head or into the lines behind the last chunk. -/
theorem budgeted_reset {p p' : HttpParser} {m : Option Elem} (h : Counted p) (hn : p'.nread = 0)
    (hbefore : p.flags.trailing = false) (hnow : p'.flags.trailing = true → p'.state = .headerFieldStart)
    (hhead : p'.flags.trailing = false → p'.state.inHead = false) :
    (Step.go m p' .none .next).Budgeted p := by
  refine ⟨by simp, .inr ⟨⟨by omega, fun ht => ?_⟩, ?_, fun _ hin => ?_⟩⟩
  · rw [hnow ht]
    rfl
  · have hle := h.nread
    unfold budget
    rw [hbefore]
    cases ht : p'.flags.trailing with
    | true =>
      simp only [Bool.false_eq_true, if_false, if_true]
      split_ifs <;> omega
    | false =>
      simp only [Bool.false_eq_true, if_false, hhead ht]
      split_ifs <;> omega
  · cases ht : p'.flags.trailing with
    | true =>
      rw [hnow ht]
      exact ⟨rfl, rfl⟩
    | false => exact absurd (hhead ht) (by simp [hin])

theorem Counted.not_trailing {p : HttpParser} (h : Counted p) (hout : p.state.inFields = false) :
    p.flags.trailing = false := by
  cases ht : p.flags.trailing with
  | false => rfl
  | true => exact absurd (h.trailing ht) (by simp [hout])

theorem budgeted_headersEnd {p : HttpParser} (ch : UInt8) (h : Counted p) :
    (switchHeadersEnd p ch).Budgeted p := by
  unfold switchHeadersEnd
  split <;> rename_i hp
  · split_ifs with _ ht
    · exact trivial
    · exact budgeted_finish _
    · -- without trailing lines the head ends here
      have htrailing : p.flags.trailing = false := by simpa using ht
      refine ⟨by simp, .inr ⟨⟨h.nread, fun h' => absurd h' (by simp [htrailing])⟩, ?_, fun hout _ => ?_⟩⟩
      · simp [budget, htrailing, hp, State.inHead]
      · simp [hp, State.inHead] at hout
  · have htrailing := h.not_trailing (by rw [hp]; rfl)
    simp only []
    split_ifs <;> first
      | exact trivial
      | exact budgeted_finish _
      | exact budgeted_reset h rfl htrailing (by simp [htrailing]) (by simp [State.inHead])
  · exact trivial

theorem budgeted_chunk {p : HttpParser} (ch : UInt8) (h : Counted p) : (switchChunk p ch).Budgeted p := by
  unfold switchChunk
  split <;> rename_i hp
  · split
    · exact trivial
    · exact budgeted_move h hp rfl (by simp) rfl rfl
  · split
    · exact budgeted_move h hp rfl (by simp) rfl rfl
    · split
      · split_ifs
        · exact budgeted_move h hp rfl (by simp) rfl rfl
        · exact trivial
      · split
        · exact trivial
        · exact budgeted_stay h rfl rfl rfl
  · split_ifs
    · exact budgeted_move h hp rfl (by simp) rfl rfl
    · exact budgeted_stay h rfl rfl rfl
  · have htrailing := h.not_trailing (by rw [hp]; rfl)
    simp only []
    split_ifs
    · exact trivial
    · exact budgeted_reset h rfl htrailing (by simp) (by simp)
    · exact budgeted_reset h rfl htrailing (by simp [htrailing]) (by simp [State.inHead])
  · split_ifs
    · exact trivial
    · exact budgeted_move h hp rfl (by simp) rfl rfl
  · have htrailing := h.not_trailing (by rw [hp]; rfl)
    split_ifs
    · exact trivial
    · exact budgeted_reset h rfl htrailing (by simp [htrailing]) (by simp [State.inHead])
  · exact trivial

theorem budgeted_body {p : HttpParser} (h : Counted p) : (switchBody p).Budgeted p := by
  unfold switchBody
  split <;> rename_i hp
  · simp only []
    split_ifs
    · exact budgeted_move h hp rfl (by simp) rfl rfl
    · exact budgeted_stay h rfl rfl rfl
  · exact budgeted_stay h rfl rfl rfl
  · simp only []
    split_ifs
    · exact budgeted_move h hp rfl (by simp) rfl rfl
    · exact budgeted_stay h rfl rfl rfl
  · exact budgeted_finish _
  · exact trivial

/-- **Every step of the switch keeps to the budget.** -/
theorem switch_budgeted {p : HttpParser} (ch : UInt8) (h : Counted p) : (switch p ch).Budgeted p :=
  switch_parts (P := fun s => s.Budgeted p) (budgeted_start ch h) (budgeted_responseLine ch h)
    (budgeted_requestTarget ch h) (budgeted_requestVersion ch h) (budgeted_headerField ch h)
    (budgeted_headerValueStart ch h) (budgeted_headerValue ch h) (budgeted_headersEnd ch h)
    (budgeted_chunk ch h) (budgeted_body h)

/-! ## Counting callbacks -/

/-- What has been reported of the url, the status and the headers, and whether the end of the message
has been. -/
structure Tally where
  reported : Nat
  complete : Bool

/-- The size of a text in the tally. -/
def Elem.size (e : Elem) (text : Str) : Nat := if e = .body then 0 else text.length

def Tally.add (e : Elem) (text : Str) (t : Tally) : Tally := { t with reported := t.reported + e.size text }

/-- Callbacks that count, and answer as those of the two parsers do. -/
def counting (pauses : Bool) : Settings Tally where
  onMessageBegin := some fun _ t => ⟨0, false, { t with complete := false }⟩
  onUrl := some fun _ text t => ⟨0, false, t.add .url text⟩
  onStatus := some fun _ text t => ⟨0, false, t.add .status text⟩
  onHeaderField := some fun _ text t => ⟨0, false, t.add .headerField text⟩
  onHeaderValue := some fun _ text t => ⟨0, false, t.add .headerValue text⟩
  onHeadersComplete := some fun _ t => ⟨0, pauses, t⟩
  onBody := some fun _ text t => ⟨0, false, t.add .body text⟩
  onMessageComplete := some fun _ t => ⟨0, true, { t with complete := true }⟩

/-- The same without marks. -/
def counter (pauses : Bool) : Reader Tally where
  deliver e text t := t.add e text
  notify n p t := (counting pauses).notify n p t
  headersComplete p t := (counting pauses).headersComplete p t

theorem counting_data (pauses : Bool) (e : Elem) (p : HttpParser) (text : Str) (t : Tally) :
    (counting pauses).data e p text t = ⟨0, false, t.add e text⟩ := by
  cases e <;> rfl

theorem Elem.size_append (e : Elem) (a b : Str) : e.size (a ++ b) = e.size a + e.size b := by
  unfold Elem.size
  split_ifs
  · rfl
  · exact List.length_append

theorem counting_reads (pauses : Bool) : Reads (counting pauses) (counter pauses) id where
  data e p text t := by
    rw [counting_data]
    rfl
  notify n p t := rfl
  headersComplete p t := rfl

theorem counter_additive (pauses : Bool) : (counter pauses).Additive where
  append e a b t := by
    simp only [counter, Tally.add, Elem.size_append, Nat.add_assoc]
  body_nil t := rfl

/-! ## What is reported and what is still marked -/

namespace Locals

/-- What is behind a mark. -/
def held (f : Locals Tally) (e : Elem) : Nat := ((f.marks e).getD []).length

def weight (f : Locals Tally) : Nat :=
  f.user.reported + (f.held .url + f.held .status + f.held .headerField + f.held .headerValue)

theorem reported_le_weight (f : Locals Tally) : f.user.reported ≤ f.weight := Nat.le_add_right _ _

theorem held_mark (f : Locals Tally) (m : Option Elem) (e : Elem) : (f.mark m).held e = f.held e := by
  cases m with
  | none => rfl
  | some e' =>
    unfold held
    rw [mark_marks]
    split_ifs with h
    · rw [h]
      rfl
    · rfl

theorem weight_mark (f : Locals Tally) (m : Option Elem) : (f.mark m).weight = f.weight := by
  unfold weight
  rw [held_mark, held_mark, held_mark, held_mark]
  cases m <;> rfl

/-- A data callback reports what is behind its mark. -/
theorem weight_callData (pauses : Bool) (f : Locals Tally) (e : Elem) (last : Str) :
    (f.callData (counting pauses) e last).weight ≤ f.weight + e.size last ∧
      (f.callData (counting pauses) e last).parser = f.parser ∧
      (f.callData (counting pauses) e last).user.complete = f.user.complete := by
  unfold callData
  cases hm : f.marks e with
  | none => exact ⟨Nat.le_add_right _ _, rfl, rfl⟩
  | some text =>
    simp only [counting_data]
    refine ⟨?_, rfl, rfl⟩
    cases e <;> simp only [weight, held, Tally.add, Elem.size, hm, Function.update_apply, reduceCtorEq,
      if_true, if_false, Option.getD_none, Option.getD_some, List.length_append, List.length_nil] <;> omega

/-- A byte goes behind the only mark. -/
theorem weight_advance {f : Locals Tally} {o : Option Elem} {ch : UInt8} (h : (f.advance ch).Tidy o) :
    (f.advance ch).weight ≤ f.weight + (if o = none ∨ o = some .body then 0 else 1) := by
  have hheld (e : Elem) : (f.advance ch).held e ≤ f.held e + if o = some e then 1 else 0 := by
    unfold held
    by_cases ho : o = some e
    · rw [if_pos ho]
      cases hm : f.marks e <;> simp [advance, hm]
    · have hnone : (f.advance ch).marks e = none := by
        by_contra hne
        exact ho (h.only e hne)
      rw [hnone, if_neg ho]
      exact Nat.zero_le _
  have hurl := hheld .url
  have hstatus := hheld .status
  have hfield := hheld .headerField
  have hvalue := hheld .headerValue
  have huser : (f.advance ch).user = f.user := rfl
  unfold weight
  rw [huser]
  rcases o with _ | e
  · simp only [reduceCtorEq, if_false, if_true, true_or] at *
    omega
  · cases e <;> simp only [Option.some.injEq, reduceCtorEq, if_false, if_true, or_self, or_true] at * <;> omega

end Locals

/-! ## A byte and a read -/

/-- What has been reported is within the budget of the parser. -/
structure Kept (p : HttpParser) (t : Tally) : Prop where
  counted : Counted p
  reported : t.reported ≤ budget p

/-- The same with what is still marked. -/
structure InBudget (f : Locals Tally) : Prop where
  counted : Counted f.parser
  weight : f.weight ≤ budget f.parser

theorem InBudget.kept {f : Locals Tally} (h : InBudget f) : Kept f.parser f.user :=
  ⟨h.counted, f.reported_le_weight.trans h.weight⟩

theorem InBudget.reported {f : Locals Tally} (h : InBudget f) : f.user.reported ≤ 2 * HTTP_MAX_HEADER_SIZE :=
  h.kept.reported.trans h.counted.budget_le

/-- The parser has stopped with an error of its own. -/
def Failed (p : HttpParser) : Prop := p.httpErrno ≠ .ok ∧ p.httpErrno ≠ .paused

/-- The message has ended, the parser has failed, or the budget is kept. -/
structure Spent (p : HttpParser) (t : Tally) : Prop where
  reported : t.reported ≤ 2 * HTTP_MAX_HEADER_SIZE
  goesOn : t.complete = true ∨ Failed p ∨ Kept p t

theorem Kept.spent {p : HttpParser} {t : Tally} (h : Kept p t) : Spent p t :=
  ⟨h.reported.trans h.counted.budget_le, .inr (.inr h)⟩

/-- An error number changes nothing that is counted. -/
theorem parserPause_counter (p : HttpParser) (paused : Bool) :
    budget (parserPause p paused) = budget p ∧ (Counted p → Counted (parserPause p paused)) := by
  unfold parserPause
  split
  · exact ⟨rfl, fun h => ⟨h.nread, h.trailing⟩⟩
  · exact ⟨rfl, id⟩

theorem Kept.pause {p : HttpParser} {t : Tally} (h : Kept p t) (paused : Bool) :
    Kept (parserPause p paused) t := by
  obtain ⟨hbudget, hcounted⟩ := parserPause_counter p paused
  exact ⟨hcounted h.counted, hbudget ▸ h.reported⟩

/-- Behind a byte: the marks are within the budget, or the read has ended. -/
def Outcome.Spent : Outcome Tally → Prop
  | .next f => f.Tidy (owner f.parser.state) → InBudget f
  | .stop _ f => Http.Spent f.parser f.user

section Run

variable (pauses : Bool)

/-- A callback reports nothing that was not marked, and at most pauses the parser. -/
theorem runCall_weight (ch : UInt8) (f : Locals Tally) {call : Call}
    (hcall : ∀ e k, call = .data e true k → e = .body) :
    let f' := (runCall (counting pauses) ch f call).1
    f'.weight ≤ f.weight ∧ budget f'.parser = budget f.parser ∧
      (Counted f.parser → Counted f'.parser) := by
  cases call with
  | none => exact ⟨Nat.le_refl _, rfl, id⟩
  | data e withByte consume =>
    obtain ⟨hweight, hparser, -⟩ := f.weight_callData pauses e (if withByte then [ch] else [])
    simp only [runCall, hparser]
    refine ⟨hweight.trans ?_, trivial, id⟩
    cases withByte with
    | false => simp [Elem.size]
    | true =>
      rw [hcall e consume rfl]
      exact Nat.le_refl _
  | notify n =>
    cases n with
    | messageBegin => exact ⟨Nat.le_refl _, rfl, id⟩
    | messageComplete => exact ⟨Nat.le_refl _, parserPause_counter _ true⟩
  | headersComplete =>
    refine ⟨Nat.le_refl _, ?_⟩
    cases pauses with
    | false => exact ⟨rfl, id⟩
    | true => exact parserPause_counter _ true

/-- The end of the message stops the parser. -/
theorem runCall_complete (ch : UInt8) (f : Locals Tally) :
    let r := runCall (counting pauses) ch f (.notify .messageComplete)
    r.1.user.complete = true ∧ r.2 = some 1 := by
  refine ⟨rfl, ?_⟩
  change checkErrno 1 (parserPause f.parser true) = some 1
  unfold checkErrno parserPause
  split_ifs <;> simp_all

/-- **A byte keeps to the budget**: one that is part of an element has been counted before. -/
theorem byte_spent (n : Nat) (ch : UInt8) {f : Locals Tally} (h : Counted f.parser)
    (hw : f.weight + (if f.parser.state.inHead then 1 else 0) ≤ budget f.parser) :
    (byte (counting pauses) n ch f).Spent := by
  induction n generalizing f with
  | zero => exact ⟨(f.reported_le_weight.trans (Nat.le_of_add_right_le hw)).trans h.budget_le,
      .inr (.inl ⟨by simp, by simp⟩)⟩
  | succ n ih =>
    have hle : f.weight ≤ 2 * HTTP_MAX_HEADER_SIZE := (Nat.le_of_add_right_le hw).trans h.budget_le
    have hstep := switch_budgeted ch h
    have hd := switch_disciplined f.parser ch
    rw [byte]
    cases hs : switch f.parser ch with
    | error p e =>
      rw [hs] at hd
      exact ⟨f.reported_le_weight.trans hle, .inr (.inl hd)⟩
    | go m p call after =>
      rw [hs] at hstep
      obtain ⟨hcall, hcase⟩ := hstep
      have hmark : (({ f with parser := p } : Locals Tally).mark m).parser = p := by cases m <;> rfl
      have hstate := runCall_state (counting pauses) ch (({ f with parser := p } : Locals Tally).mark m) call
      have hfacts := runCall_weight pauses ch (({ f with parser := p } : Locals Tally).mark m) hcall
      simp only
      rcases hr : runCall (counting pauses) ch (({ f with parser := p } : Locals Tally).mark m) call with
        ⟨f', r⟩
      simp only [hr, hmark, Locals.weight_mark] at hfacts hstate
      obtain ⟨(hweight : f'.weight ≤ f.weight), hbudget, hcounted⟩ := hfacts
      have hreported := (f'.reported_le_weight.trans hweight).trans hle
      rcases hcase with rfl | ⟨hp, hmore, hout⟩
      · obtain ⟨hdone, hstop⟩ := runCall_complete pauses ch (({ f with parser := p } : Locals Tally).mark m)
        simp only [hr] at hdone hstop
        rw [hstop]
        exact ⟨hreported, .inl hdone⟩
      · have hwithin : InBudget f' := ⟨hcounted hp, by omega⟩
        cases r with
        | some used => exact hwithin.kept.spent
        | none =>
          cases after with
          | next =>
            intro htidy
            refine ⟨hwithin.counted, (Locals.weight_advance htidy).trans ?_⟩
            change f'.weight + (if owner f'.parser.state = none ∨ owner f'.parser.state = some .body then 0
              else 1) ≤ budget f'.parser
            split_ifs with ho
            · exact hwithin.weight
            · -- the byte is part of an element of the head, and has been counted
              obtain ⟨e, he⟩ := Option.ne_none_iff_exists'.mp (not_or.mp ho).1
              have hin := owner_outside he fun hbody => (not_or.mp ho).2 (hbody ▸ he)
              have hbefore : f.parser.state.inHead = true := by
                by_contra hno
                obtain ⟨hnone, -⟩ := hout (by simpa using hno) (hstate ▸ hin)
                exact (not_or.mp ho).1 (hstate ▸ hnone)
              rw [if_pos hbefore] at hw
              omega
          | again =>
            refine ih hwithin.counted ?_
            rw [hstate]
            by_cases hbefore : f.parser.state.inHead = true
            · rw [if_pos hbefore] at hw
              split_ifs <;> omega
            · have hafter : ¬p.state.inHead = true := fun hin =>
                absurd (hout (by simpa using hbefore) hin).2 (by simp)
              rw [if_neg hafter]
              exact hwithin.weight
          | ret => exact hwithin.kept.spent

theorem State.inHead_parsing {s : State} (h : s.inHead = true) : parsingHeader s = true := by
  cases s <;> first | rfl | exact absurd h (by decide)

/-- The counter moves on before the byte is looked at. -/
theorem stepByte_spent (ch : UInt8) {f : Locals Tally} (h : InBudget f) :
    (stepByte (counting pauses) ch f).Spent := by
  unfold stepByte
  simp only
  split_ifs with hover
  · exact ⟨h.reported, .inr (.inl ⟨by simp, by simp⟩)⟩
  · have hn := h.counted.nread
    have hw := h.weight
    have hcount : Counted (countByte f.parser) := by
      refine ⟨?_, fun ht => ?_⟩
      · by_cases hparsing : parsingHeader f.parser.state = true
        · exact Nat.not_lt.mp fun hlt => hover ⟨hparsing, hlt⟩
        · rw [countByte, if_neg hparsing]
          exact hn
      · rw [countByte_state]
        exact h.counted.trailing (by unfold countByte at ht; split_ifs at ht <;> exact ht)
    refine byte_spent pauses passes ch hcount ?_
    change f.weight + (if (countByte f.parser).state.inHead = true then 1 else 0) ≤ _
    rw [countByte_state]
    by_cases hin : f.parser.state.inHead = true
    · rw [if_pos hin, countByte, if_pos (State.inHead_parsing hin)]
      unfold budget at hw ⊢
      simp only [hin, if_true] at hw ⊢
      split_ifs at hw ⊢ <;> omega
    · rw [if_neg hin]
      have hle : budget f.parser ≤ budget (countByte f.parser) := by
        unfold countByte budget
        split_ifs <;> simp_all
      exact hw.trans hle

/-- **A whole read keeps to the budget.** -/
theorem loop_spent (bytes : Str) {f : Locals Tally} (h : InBudget f) (ht : f.Tidy (owner f.parser.state)) :
    let r := loop (counting pauses) bytes f
    (r.1 = none → InBudget r.2) ∧ (r.1 ≠ none → Spent r.2.parser r.2.user) := by
  induction bytes generalizing f with
  | nil => exact ⟨fun _ => h, fun hne => absurd rfl hne⟩
  | cons ch rest ih =>
    have hstep := stepByte_spent pauses ch h
    have hfollows := stepByte_follows (counting_reads pauses) (counter_additive pauses) ch f ht
    rw [loop]
    cases hs : stepByte (counting pauses) ch f with
    | next f' =>
      rw [hs] at hstep hfollows
      obtain ⟨-, -, htidy, -⟩ := hfollows
      obtain ⟨hnone, hsome⟩ := ih (hstep htidy) htidy
      exact ⟨fun hr => hnone (by simpa using hr), fun hr => hsome (by simpa using hr)⟩
    | stop used f' =>
      rw [hs] at hstep
      exact ⟨fun hr => by simp at hr, fun _ => hstep⟩

/-- What is left behind the marks is reported at the end of the read. -/
theorem flushMarks_within (es : List Elem) {f : Locals Tally} (h : InBudget f) :
    InBudget (flushMarks (counting pauses) es f) := by
  induction es generalizing f with
  | nil => exact h
  | cons e es ih =>
    have hcall : InBudget (f.callData (counting pauses) e []) := by
      obtain ⟨hweight, hparser, -⟩ := f.weight_callData pauses e []
      have hnil : e.size [] = 0 := by unfold Elem.size; split_ifs <;> rfl
      rw [hnil] at hweight
      exact ⟨hparser ▸ h.counted, hparser ▸ hweight.trans h.weight⟩
    rw [flushMarks]
    split
    · exact ih h
    · simp only
      split_ifs
      · exact hcall
      · exact ih hcall

theorem initialMarks_nil {s : State} {e : Elem} {text : Str} (h : initialMarks s e = some text) : text = [] := by
  cases e <;> simp only [initialMarks] at h <;> first
    | contradiction
    | (split_ifs at h; simp_all)

theorem initialMarks_weight (p : HttpParser) (t : Tally) :
    (⟨p, t, initialMarks p.state⟩ : Locals Tally).weight = t.reported := by
  have hheld (e : Elem) : (⟨p, t, initialMarks p.state⟩ : Locals Tally).held e = 0 := by
    change ((initialMarks p.state e).getD []).length = 0
    cases hm : initialMarks p.state e with
    | none => rfl
    | some text => rw [initialMarks_nil hm]; rfl
  unfold Locals.weight
  rw [hheld, hheld, hheld, hheld]
  rfl

/-- **`http_parser_execute` keeps to the budget**, on whatever bytes. -/
theorem execute_spent {p : HttpParser} {t : Tally} (h : Kept p t) (bytes : Str) :
    let r := execute (counting pauses) p t bytes
    Spent r.2.1 r.2.2 := by
  unfold execute
  split
  · exact h.spent
  split
  · unfold executeEof
    split
    · exact ⟨h.spent.reported, .inl rfl⟩
    all_goals first
      | exact h.spent
      | exact ⟨h.spent.reported, .inr (.inl ⟨by simp, by simp⟩)⟩
  · have hstart : InBudget (⟨p, t, initialMarks p.state⟩ : Locals Tally) :=
      ⟨h.counted, (initialMarks_weight p t).trans_le h.reported⟩
    obtain ⟨hnone, hsome⟩ := loop_spent pauses bytes hstart (initialMarks_tidy p t)
    rcases hl : loop (counting pauses) bytes ⟨p, t, initialMarks p.state⟩ with ⟨_ | used, f⟩
    · rw [hl] at hnone
      exact (flushMarks_within pauses flushOrder (hnone rfl)).kept.spent
    · rw [hl] at hsome
      exact hsome (by simp)

end Run

/-! ## Callbacks that keep what they are given -/

section Keeping

variable {σ : Type} {cfg : Settings σ} {weigh : σ → Nat} {ended : σ → Bool} {pauses : Bool}

/-- The callbacks keep no more than they are given, and know of the end of a message. -/
def Settings.Keeping (cfg : Settings σ) (weigh : σ → Nat) (ended : σ → Bool) (pauses : Bool) : Prop :=
  cfg.Related (fun u t => weigh u ≤ t.reported ∧ (t.complete = true → ended u = true)) (counting pauses)

/-- A parser that can be given more bytes, with what it keeps. -/
structure Bounded (weigh : σ → Nat) (ended : σ → Bool) (p : HttpParser) (u : σ) : Prop where
  weight : weigh u ≤ 2 * HTTP_MAX_HEADER_SIZE
  tally : Failed p ∨ ∃ t, weigh u ≤ t.reported ∧ (t.complete = true → ended u = true) ∧ Kept p t

theorem Bounded.pause {p : HttpParser} {u : σ} (h : Bounded weigh ended p u) :
    Bounded weigh ended (parserPause p false) u := by
  refine ⟨h.weight, ?_⟩
  rcases h.tally with hfailed | ⟨t, hle, hended, hkept⟩
  · left
    rw [parserPause, if_neg (not_or.mpr hfailed)]
    exact hfailed
  · exact .inr ⟨t, hle, hended, hkept.pause false⟩

theorem Bounded.released {p : HttpParser} {u : σ} (h : Bounded weigh ended p u) :
    Bounded weigh ended (if p.httpErrno = .paused then parserPause p false else p) u := by
  split_ifs
  · exact h.pause
  · exact h

/-- **Whatever bytes arrive**, what the callbacks keep is within twice the limit. -/
theorem execute_bounded (hcfg : cfg.Keeping weigh ended pauses) {p : HttpParser} {u : σ}
    (h : Bounded weigh ended p u) (bytes : Str) :
    let r := execute cfg p u bytes
    weigh r.2.2 ≤ 2 * HTTP_MAX_HEADER_SIZE ∧ (ended r.2.2 = true ∨ Bounded weigh ended r.2.1 r.2.2) := by
  rcases h.tally with hfailed | ⟨t, hle, hended, hkept⟩
  · rw [execute, if_pos hfailed.1]
    exact ⟨h.weight, .inr h⟩
  · obtain ⟨-, hparser, hle', hended'⟩ := execute_related hcfg p ⟨hle, hended⟩ bytes
    obtain ⟨hreported, hopen⟩ := execute_spent pauses hkept bytes
    have hbound := hle'.trans hreported
    refine ⟨hbound, ?_⟩
    rcases hopen with hdone | hfailed | hkept'
    · exact .inl (hended' hdone)
    · exact .inr ⟨hbound, .inl (hparser ▸ hfailed)⟩
    · exact .inr ⟨hbound, .inr ⟨_, hle', hended', hparser ▸ hkept'⟩⟩

/-- A parser that has been given nothing. -/
theorem bounded_init {u : σ} (type : ParserType) (hu : weigh u = 0) :
    Bounded weigh ended (init type) u := by
  have hle : weigh u ≤ 0 := Nat.le_of_eq hu
  exact ⟨hle.trans (Nat.zero_le _),
    .inr ⟨⟨0, false⟩, hle, by simp, ⟨⟨Nat.zero_le _, by simp [init]⟩, Nat.zero_le _⟩⟩⟩

end Keeping

end Wsrv.Http

namespace Wsrv

open Http (HTTP_MAX_HEADER_SIZE)

/-! ## A call of `parse` -/

section Parse

variable {σ : Type} {cfg : Http.Settings σ} {weigh : σ → Nat} {ended : σ → Bool} {pauses : Bool}

/-- **A call of `parse`** of either parser keeps to the bound, and where it waits for more the parser
can be given more. -/
theorem parseWith_bounded (hcfg : cfg.Keeping weigh ended pauses) {p : Http.HttpParser} {u : σ}
    (h : Http.Bounded weigh ended p u) (data : Str) :
    let r := parseWith cfg ended (p, u) data
    weigh r.2.2 ≤ 2 * HTTP_MAX_HEADER_SIZE ∧
      (r.1 = .indeterminate → Http.Bounded weigh ended r.2.1 r.2.2) := by
  have hwaits {u : σ} (hr : (if ended u then RequestParser.Result.ok else .indeterminate) = .indeterminate) :
      ended u ≠ true := by
    intro hended
    rw [if_pos hended] at hr
    cases hr
  obtain ⟨hle, hopen⟩ := Http.execute_bounded hcfg h data
  unfold parseWith
  rcases he : Http.execute cfg p u data with ⟨used, parser, u'⟩
  rw [he] at hle hopen
  simp only at hle hopen ⊢
  by_cases hused : used < data.length
  · rw [if_pos hused]
    by_cases hpaused : parser.httpErrno = .paused
    · rw [if_pos hpaused]
      by_cases hended : ended u' = true
      · rw [if_pos hended, if_pos hended]
        exact ⟨hle, by simp⟩
      · -- the pause at the end of the headers, and the rest of the read behind it
        have hbounded := hopen.resolve_left hended
        obtain ⟨hle', hopen'⟩ := Http.execute_bounded hcfg hbounded.pause (data.drop used)
        rw [if_neg hended]
        simp only [if_pos hpaused]
        exact ⟨hle', fun hr => hopen'.resolve_left (hwaits hr)⟩
    · rw [if_neg hpaused]
      exact ⟨hle, by simp⟩
  · rw [if_neg hused]
    exact ⟨hle, fun hr => (hopen.resolve_left (hwaits hr)).released⟩

end Parse

/-! ## What `RequestParser` keeps -/

/-- The text of the names and values. -/
def dictionarySize (d : Dictionary) : Nat := (d.toList.map fun e => e.1.length + e.2.length).sum

theorem nodup_toList (d : Dictionary) : d.toList.Nodup := by
  have hdistinct : d.toList.Pairwise fun a b => ¬compare a.1 b.1 = .eq := Std.ExtTreeMap.distinct_keys_toList
  refine hdistinct.imp fun hne heq => ?_
  rw [heq] at hne
  exact hne Std.ReflCmp.compare_self

theorem dictionarySize_insert (d : Dictionary) (k v : Str) :
    dictionarySize (d.insert k v) ≤ k.length + v.length + dictionarySize d := by
  have hsub : (d.insert k v).toList.Subperm ((k, v) :: d.toList) := by
    refine (nodup_toList _).subperm fun e he => ?_
    obtain ⟨k', v'⟩ := e
    rw [Std.ExtTreeMap.mem_toList_iff_getElem?_eq_some, Std.ExtTreeMap.getElem?_insert] at he
    split_ifs at he with heq
    · obtain rfl := Std.LawfulEqCmp.eq_of_compare heq
      cases he
      exact List.mem_cons_self
    · exact List.mem_cons_of_mem _ (Std.ExtTreeMap.mem_toList_iff_getElem?_eq_some.mpr he)
  obtain ⟨l, hperm, hsublist⟩ := hsub
  have hsum := (hsublist.map fun e : Str × Str => e.1.length + e.2.length).sum_le_sum (by simp)
  rw [(hperm.map _).sum_eq] at hsum
  exact hsum

namespace RequestFields

/-- The url and the headers, with the one that is being read. -/
def headSize (rp : RequestFields) : Nat :=
  rp.url.length + (rp.currentHeaderField.length + rp.currentHeaderValue.length) + dictionarySize rp.headers

theorem flushHeader_headSize (rp : RequestFields) : rp.flushHeader.headSize ≤ rp.headSize := by
  have hinsert := dictionarySize_insert rp.headers rp.currentHeaderField rp.currentHeaderValue
  unfold flushHeader
  split_ifs
  · exact Nat.le_refl _
  · simp only [headSize, List.length_nil]
    omega

theorem flushHeader_isComplete (rp : RequestFields) : rp.flushHeader.isComplete = rp.isComplete := by
  unfold flushHeader
  split_ifs <;> rfl

theorem onHeaderField_headSize (data : Str) (rp : RequestFields) :
    (rp.onHeaderField data).headSize ≤ rp.headSize + data.length := by
  have hflush := rp.flushHeader_headSize
  simp only [onHeaderField, headSize, List.length_append] at hflush ⊢
  omega

end RequestFields

namespace RequestParser

theorem settings_keeping : settings.Keeping RequestFields.headSize RequestFields.isComplete true where
  data e p text u t h := by
    obtain ⟨hle, hended⟩ := h
    rw [Http.counting_data]
    cases e with
    | headerField =>
      refine ⟨rfl, rfl, (u.onHeaderField_headSize text).trans (Nat.add_le_add_right hle _), fun ht => ?_⟩
      exact u.flushHeader_isComplete.trans (hended ht)
    | url =>
      refine ⟨rfl, rfl, ?_, hended⟩
      simp only [settings, Http.Settings.data, RequestFields.onUrl, RequestFields.headSize, Http.Tally.add,
        Http.Elem.size, reduceCtorEq, if_false] at hle ⊢
      omega
    | headerValue =>
      refine ⟨rfl, rfl, ?_, hended⟩
      simp only [settings, Http.Settings.data, RequestFields.onHeaderValue, RequestFields.headSize,
        Http.Tally.add, Http.Elem.size, reduceCtorEq, if_false, List.length_append] at hle ⊢
      omega
    | status => exact ⟨rfl, rfl, hle.trans (Nat.le_add_right _ _), hended⟩
    | body => exact ⟨rfl, rfl, hle.trans (Nat.le_add_right _ _), hended⟩
  notify n p u t h := by
    cases n with
    | messageBegin => exact ⟨rfl, rfl, h.1, by simp [Http.counting, Http.Settings.notify]⟩
    | messageComplete => exact ⟨rfl, rfl, h.1, fun _ => rfl⟩
  headersComplete p u t h := by
    refine ⟨rfl, rfl, ?_, fun ht => ?_⟩
    · exact u.flushHeader_headSize.trans h.1
    · exact u.flushHeader_isComplete.trans (h.2 ht)

/-- A parser that can be given more bytes. -/
def Bounded (rp : RequestParser) : Prop :=
  Http.Bounded RequestFields.headSize RequestFields.isComplete rp.parser rp.fields

theorem bounded_new (junk : Bool) : (new junk).Bounded := Http.bounded_init .request rfl

/-- **A call of `parse`** keeps the url and the headers within twice the limit. -/
theorem Bounded.parse {rp : RequestParser} (h : rp.Bounded) (data : Str) :
    (rp.parse data).2.fields.headSize ≤ 2 * HTTP_MAX_HEADER_SIZE ∧
      ((rp.parse data).1 = .indeterminate → (rp.parse data).2.Bounded) := by
  rw [parse_eq]
  exact parseWith_bounded settings_keeping h data

end RequestParser

/-! ## A connection -/

namespace HttpConnection

/-- What the parser of a connection keeps of the url and the headers. -/
def headSize (c : HttpConnection) : Nat := c.requestParser.fields.headSize

/-- The branch of a complete message leaves the parser as it is. -/
theorem complete_keeps {env : Environment} {c c' : HttpConnection} {started : Started}
    (h : complete env c = .ok (started, c')) : c'.requestParser = c.requestParser := by
  unfold complete at h
  split at h
  · cases h
    rfl
  · simp only at h
    split at h
    · cases h
      rfl
    · split_ifs at h
      cases h
      rfl

/-- A callback, and whether it reads on. -/
theorem onRead_bounded {env : Environment} {c c' : HttpConnection} {r : ReadCompletion} {started : Started}
    (hc : c.requestParser.Bounded) (h : c.onRead env r = .ok (started, c')) :
    c'.headSize ≤ 2 * HTTP_MAX_HEADER_SIZE ∧ (started = .read → c'.requestParser.Bounded) := by
  unfold onRead at h
  cases r with
  | aborted =>
    cases h
    exact ⟨hc.weight, by simp⟩
  | failed =>
    cases h
    exact ⟨hc.weight, by simp⟩
  | bytes data =>
    obtain ⟨hle, hbounded⟩ := hc.parse data
    simp only at h
    rcases hp : c.requestParser.parse data with ⟨_ | _ | _, rp⟩ <;> rw [hp] at h hle hbounded
    · obtain ⟨buffers, rfl⟩ := complete_started h
      unfold headSize
      rw [complete_keeps h]
      exact ⟨hle, by simp⟩
    · cases h
      exact ⟨hle, by simp⟩
    · cases h
      exact ⟨hle, fun _ => hbounded rfl⟩

end HttpConnection

/-! ## Every connection of the server -/

namespace ManagedConnection

/-- What every step of a connection keeps, and what is so when it starts. -/
structure Invariant (P : ManagedConnection → Prop) : Prop where
  start : ∀ junk, P (.start junk)
  stop : ∀ c, P c → P c.stop
  readCompletes : ∀ r c c', P c → c.readCompletes r = some c' → P c'
  writeCompletes : ∀ ok c c', P c → c.writeCompletes ok = some c' → P c'
  readBegins : ∀ env c c', P c → c.readBegins env = some c' → P c'
  readEnds : ∀ c c', P c → c.readEnds = some c' → P c'
  writeBegins : ∀ c c', P c → c.writeBegins = some c' → P c'
  writeEnds : ∀ c c', P c → c.writeEnds = some c' → P c'

/-- The parser is within its bound, and can be given more where a read is outstanding. -/
structure Bounded (c : ManagedConnection) : Prop where
  head : c.http.headSize ≤ 2 * HTTP_MAX_HEADER_SIZE
  reads : (c.phase = .reading ∨ ∃ r, c.phase = .readDone r) → c.http.requestParser.Bounded
  result : ∀ started http, c.phase = .inRead (.ok (started, http)) →
    http.headSize ≤ 2 * HTTP_MAX_HEADER_SIZE ∧ (started = .read → http.requestParser.Bounded)

variable {c c' : ManagedConnection}

/-- Closing the socket completes a read that is outstanding, and no other phase becomes one of a read. -/
theorem close_phase (c : ManagedConnection) :
    ((c.close.phase = .reading ∨ ∃ r, c.close.phase = .readDone r) →
      c.phase = .reading ∨ ∃ r, c.phase = .readDone r) ∧
    ∀ result, c.close.phase = .inRead result → c.phase = .inRead result := by
  unfold ManagedConnection.close
  cases hp : c.phase <;> simp

theorem Bounded.close (h : c.Bounded) : c.close.Bounded where
  head := h.head
  reads hphase := h.reads (c.close_phase.1 hphase)
  result started http hphase := h.result started http (c.close_phase.2 _ hphase)

theorem Bounded.stop (h : c.Bounded) : c.stop.Bounded := ⟨h.close.head, h.close.reads, h.close.result⟩

/-- A phase that is not one of a read. -/
theorem Bounded.away (h : c.Bounded) (hhttp : c'.http = c.http)
    (hphase : (∃ w, c'.phase = .writeDone w) ∨ (∃ w, c'.phase = .inWrite w) ∨ c'.phase = .writing ∨
      c'.phase = .idle) : c'.Bounded where
  head := hhttp ▸ h.head
  reads hreads := by
    rcases hphase with ⟨w, hp⟩ | ⟨w, hp⟩ | hp | hp <;> simp [hp] at hreads
  result started http hin := by
    rcases hphase with ⟨w, hp⟩ | ⟨w, hp⟩ | hp | hp <;> simp [hp] at hin

theorem readCompletes_bounded {r : ReadCompletion} (h : c.Bounded) (hs : c.readCompletes r = some c') :
    c'.Bounded := by
  have hdone {r' : ReadCompletion} (hp : c.phase = .reading) :
      ({ c with phase := .readDone r' } : ManagedConnection).Bounded :=
    ⟨h.head, fun _ => h.reads (.inl hp), fun started http hin => by cases hin⟩
  unfold readCompletes at hs
  split at hs
  · split_ifs at hs
    cases hs
    exact hdone ‹_›
  · cases hs
    exact hdone ‹_›
  · cases hs

theorem readBegins_bounded {env : Environment} (h : c.Bounded) (hs : c.readBegins env = some c') :
    c'.Bounded := by
  unfold readBegins at hs
  split at hs
  · rename_i r hp
    cases hs
    refine ⟨h.head, fun hreads => by simp at hreads, fun started http hin => ?_⟩
    exact HttpConnection.onRead_bounded (h.reads (.inr ⟨r, hp⟩)) (CallbackPhase.inRead.inj hin)
  · cases hs

theorem readEnds_bounded (h : c.Bounded) (hs : c.readEnds = some c') : c'.Bounded := by
  unfold readEnds at hs
  split at hs
  · rename_i http hp
    cases hs
    obtain ⟨hle, hbounded⟩ := h.result _ _ hp
    refine ⟨hle, fun _ => hbounded rfl, fun started http' hin => ?_⟩
    simp only at hin
    split_ifs at hin
  · rename_i buffers http hp
    cases hs
    obtain ⟨hle, -⟩ := h.result _ _ hp
    refine ⟨hle, fun hreads => ?_, fun started http' hin => ?_⟩
    · simp only at hreads
      split_ifs at hreads <;> simp at hreads
    · simp only at hin
      split_ifs at hin
  · rename_i http hp
    cases hs
    exact ⟨(h.result _ _ hp).1, fun hreads => by simp at hreads, fun started http' hin => by cases hin⟩
  · rename_i http hp
    cases hs
    exact ⟨(h.result _ _ hp).1, fun hreads => by simp at hreads, fun started http' hin => by cases hin⟩
  · cases hs

theorem writeCompletes_bounded {ok : Bool} (h : c.Bounded) (hs : c.writeCompletes ok = some c') :
    c'.Bounded := by
  unfold writeCompletes at hs
  split at hs
  · cases hs
    exact h.away rfl (.inl ⟨_, rfl⟩)
  · cases hs

theorem writeBegins_bounded (h : c.Bounded) (hs : c.writeBegins = some c') : c'.Bounded := by
  unfold writeBegins at hs
  split at hs
  · cases hs
    exact h.away rfl (.inr (.inl ⟨_, rfl⟩))
  · cases hs

theorem writeEnds_bounded (h : c.Bounded) (hs : c.writeEnds = some c') : c'.Bounded := by
  unfold writeEnds at hs
  split at hs
  · cases hs
    exact h.away rfl (.inr (.inr (.inr rfl)))
  · cases hs
    exact h.away rfl (.inr (.inr (.inr rfl)))
  · cases hs

theorem bounded_invariant : Invariant Bounded where
  start junk := ⟨(RequestParser.bounded_new junk).weight, fun _ => RequestParser.bounded_new junk,
    fun started http hin => by cases hin⟩
  stop c h := h.stop
  readCompletes r c c' h hs := readCompletes_bounded h hs
  writeCompletes ok c c' h hs := writeCompletes_bounded h hs
  readBegins env c c' h hs := readBegins_bounded h hs
  readEnds c c' h hs := readEnds_bounded h hs
  writeBegins c c' h hs := writeBegins_bounded h hs
  writeEnds c c' h hs := writeEnds_bounded h hs

end ManagedConnection

namespace ServerImpl

variable {env : Nat → Environment} {junk : Nat → Bool} {s s' : ServerImpl} {P : ManagedConnection → Prop}

theorem onConnection_invariant {i : Nat} {f : ManagedConnection → Option ManagedConnection}
    (h : ∀ c ∈ s.connections, P c) (hs : s.onConnection i f = some s')
    (hf : ∀ c c', P c → f c = some c' → P c') : ∀ c ∈ s'.connections, P c := by
  obtain ⟨c, c', hc, hstep, rfl⟩ := onConnection_eq hs
  intro d hd
  rcases List.mem_or_eq_of_mem_set hd with hold | rfl
  · exact h d hold
  · exact hf c _ (h c (List.mem_of_getElem? hc)) hstep

theorem begin_connections {t : Task} (hs : s.begin t = some s') : s'.connections = s.connections := by
  obtain ⟨loops, -, rfl⟩ := begin_eq hs
  rfl

theorem stopContinues_invariant (hP : ManagedConnection.Invariant P) {k : Nat} (h : ∀ c ∈ s.connections, P c)
    (hs : s.stopContinues k = some s') : ∀ c ∈ s'.connections, P c := by
  unfold ServerImpl.stopContinues at hs
  split at hs
  case h_2 => cases hs
  rename_i bySignal phase hk
  cases phase with
  | close =>
    cases hs
    exact h
  | stopAll =>
    cases hs
    intro c hc
    obtain ⟨d, hd, rfl⟩ := List.mem_map.mp hc
    split_ifs
    · exact hP.stop d (h d hd)
    · exact h d hd
  | pool i =>
    simp only at hs
    split_ifs at hs <;> cases hs <;> exact h
  | done => cases hs

/-- **An invariant of single connections** is one of the server. -/
theorem step_invariant (hP : ManagedConnection.Invariant P) {e : Event} (h : ∀ c ∈ s.connections, P c)
    (hs : s.step env junk e = some s') : ∀ c ∈ s'.connections, P c := by
  unfold ServerImpl.step at hs
  split at hs
  · cases hs
  cases e with
  | acceptCompletes ok =>
    simp only [ServerImpl.acceptCompletes] at hs
    split_ifs at hs
    cases hs
    exact h
  | acceptBegins =>
    simp only [ServerImpl.acceptBegins] at hs
    split at hs
    · obtain ⟨begun, hbegun, rfl⟩ := Option.map_eq_some_iff.mp hs
      rw [← begin_connections hbegun] at h
      split_ifs <;> exact h
    · cases hs
  | acceptStarts =>
    simp only [ServerImpl.acceptStarts] at hs
    split_ifs at hs
    cases hs
    intro c hc
    rcases List.mem_append.mp hc with hold | hnew
    · exact h c hold
    · rw [List.mem_singleton.mp hnew]
      exact hP.start _
  | acceptAgain =>
    simp only [ServerImpl.acceptAgain] at hs
    split_ifs at hs <;> cases hs <;> exact h
  | readCompletes i r => exact onConnection_invariant h hs (hP.readCompletes r)
  | readBegins i connected =>
    simp only [ServerImpl.readBegins] at hs
    split at hs
    · split at hs
      · obtain ⟨begun, hbegun, hs⟩ := Option.bind_eq_some_iff.mp hs
        split_ifs at hs
        · cases hs
          exact h
        · rw [← begin_connections hbegun] at h
          exact onConnection_invariant h hs (hP.readBegins (env i))
      · cases hs
    · cases hs
  | readEnds i =>
    simp only [ServerImpl.readEnds] at hs
    split at hs
    · split at hs
      · cases hs
        exact h
      · exact onConnection_invariant (s := s.finish (.connection i)) h hs hP.readEnds
    · cases hs
  | writeCompletes i ok => exact onConnection_invariant h hs (hP.writeCompletes ok)
  | writeBegins i =>
    obtain ⟨begun, hbegun, hs⟩ := Option.bind_eq_some_iff.mp hs
    rw [← begin_connections hbegun] at h
    exact onConnection_invariant h hs hP.writeBegins
  | writeEnds i =>
    obtain ⟨ended, hended, rfl⟩ := Option.map_eq_some_iff.mp hs
    change ∀ c ∈ ended.connections, P c
    exact onConnection_invariant h hended hP.writeEnds
  | signal =>
    simp only at hs
    split_ifs at hs
    obtain ⟨begun, hbegun, rfl⟩ := Option.map_eq_some_iff.mp hs
    rw [← begin_connections hbegun] at h
    exact h
  | stop =>
    cases hs
    exact h
  | stopContinues k => exact stopContinues_invariant hP h hs

theorem steps_invariant (hP : ManagedConnection.Invariant P) {es : List Event} (h : ∀ c ∈ s.connections, P c)
    (hs : s.steps env junk es = some s') : ∀ c ∈ s'.connections, P c := by
  induction es generalizing s with
  | nil =>
    cases hs
    exact h
  | cons e es ih =>
    obtain ⟨s₁, hfirst, hrest⟩ := Option.bind_eq_some_iff.mp hs
    exact ih (step_invariant hP h hfirst) hrest

/-! ## Result -/

/-- The server with a request whose header lines go on. -/
def unfinished : List Event :=
  accepted ++ [.readCompletes 0 (.bytes (str "GET / HTTP/1.1\r\nHost: a")), .readBegins 0 true, .readEnds 0]

/-- **Whatever the clients send**, in every run of the server what a connection keeps of the url and
the headers is within twice the limit of the parser, also while a callback works on it. -/
theorem heads_bounded {pool : IoServicePool} {es : List Event} (hs : (run pool).steps env junk es = some s)
    {c : ManagedConnection} (hc : c ∈ s.connections) :
    c.http.headSize ≤ 2 * HTTP_MAX_HEADER_SIZE ∧
      ∀ started http, c.phase = .inRead (.ok (started, http)) → http.headSize ≤ 2 * HTTP_MAX_HEADER_SIZE := by
  have hbounded := steps_invariant ManagedConnection.bounded_invariant (by simp [run]) hs c hc
  exact ⟨hbounded.head, fun started http hin => (hbounded.result started http hin).1⟩

theorem unfinished_bounded :
    ∃ s c, emptyRun 3 unfinished = some s ∧ c ∈ s.connections ∧ c.http.headSize = 6 ∧
      c.http.headSize ≤ 2 * HTTP_MAX_HEADER_SIZE := by
  have hrun : ((emptyRun 3 unfinished).bind (·.connections[0]?)).map (·.http.headSize) = some 6 := by
    decide +kernel
  obtain ⟨c, hrun, hsize⟩ := Option.map_eq_some_iff.mp hrun
  obtain ⟨s, hs, hc⟩ := Option.bind_eq_some_iff.mp hrun
  exact ⟨s, c, hs, List.mem_of_getElem? hc, hsize, (heads_bounded hs (List.mem_of_getElem? hc)).1⟩

end ServerImpl

end Wsrv
