import Wsrv.ClientUrl
import Wsrv.HeadLines

/-!
# The first line of a message

The request line of `HTTPClientImpl::execute` and the status line of
`response_to_buffers`, as `http_parser_execute` takes them.  Literal text only
moves the parser (`Quiet`); the target and the reason are elements.
-/

namespace Wsrv.Http

variable {τ : Type} {R : Reader τ}

/-! ## Literal text -/

/-- Bytes between two elements, which only move the parser. -/
inductive Quiet : Str → HttpParser → HttpParser → Prop
  | nil (p : HttpParser) : Quiet [] p p
  | cons {ch : UInt8} {rest : Str} {p q p' : HttpParser} (howner : owner p.state = none)
      (hhead : parsingHeader p.state = true)
      (hstep : switch { p with nread := p.nread + 1 } ch = .next q)
      (hcount : q.nread = p.nread + 1) (hrest : Quiet rest q p') : Quiet (ch :: rest) p p'

theorem Quiet.takes {bytes : Str} {p p' : HttpParser} (h : Quiet bytes p p') (u : τ)
    (hroom : p.nread + bytes.length ≤ HTTP_MAX_HEADER_SIZE) :
    R.Takes bytes p u p' u ∧ p'.nread = p.nread + bytes.length := by
  induction h with
  | nil p => exact ⟨.nil p u, rfl⟩
  | @cons ch rest p q p' howner hhead hstep hcount _ ih =>
    rw [List.length_cons] at hroom ⊢
    obtain ⟨htakes, hcount'⟩ := ih (by omega)
    have hbyte := (Reader.stepByte_head (R := R) (u := u) hhead (by omega)).trans
      (Reader.byte_element (k := 3) hstep)
    have hfeed : R.feed (none <|> owner p.state) [ch] u = u := by
      rw [howner]
      rfl
    rw [hfeed] at hbyte
    exact ⟨(Reader.Takes.one hbyte).append htakes, by omega⟩

/-! ## Request lines -/

/-- What the callback at the first byte of a message does. -/
def Reader.Begins (R : Reader τ) (begin : τ → τ) : Prop :=
  ∀ p u, R.notify .messageBegin p u = ⟨0, false, begin u⟩

/-- The methods of a client, as the parser names them. -/
def methodOf : ClientMethod → Method
  | .GET => .GET
  | .POST => .POST
  | .PUT => .PUT
  | .DELETE => .DELETE
  | .PATCH => .PATCH
  | .HEAD => .HEAD
  | .OPTIONS => .OPTIONS
  | .TRACE => .TRACE

theorem stepByte_begin {c : UInt8} {p q : HttpParser} {begin : τ → τ} (hb : R.Begins begin) (u : τ)
    (hstep : switch { p with nread := p.nread + 1 } c = .go none q (.notify .messageBegin) .next)
    (hhead : parsingHeader p.state = true) (hok : q.httpErrno = .ok)
    (hroom : p.nread + 1 ≤ HTTP_MAX_HEADER_SIZE) : R.stepByte c p u = (none, q, begin u) := by
  rw [Reader.stepByte_head hhead hroom, passes, Reader.byte, hstep]
  simp [Reader.call, hb _ u, Reply.settle, checkErrno, hok]

/-- The parser behind a method and a space. -/
def behindMethod (m : Method) : HttpParser :=
  { init .request with
    method := m, state := .reqSpacesBeforeUrl, contentLength := ULLONG_MAX
    index := (methodString m).length + 1, nread := (methodString m).length + 1 }

theorem method_quiet (m : ClientMethod) :
    ∃ ch rest q, methodString (methodOf m) ++ str " " = ch :: rest ∧
      switch { init .request with nread := 1 } ch = .go none q (.notify .messageBegin) .next ∧
      q.httpErrno = .ok ∧ q.nread = 1 ∧ Quiet rest q (behindMethod (methodOf m)) := by
  cases m <;>
  · refine ⟨_, _, _, rfl, rfl, rfl, rfl, ?_⟩
    repeat' first | exact .nil _ | refine .cons rfl rfl rfl rfl ?_

/-- A method and the space behind it. -/
theorem takes_method {begin : τ → τ} (hb : R.Begins begin) (m : ClientMethod) (u : τ) :
    R.Takes (methodString (methodOf m) ++ str " ") (init .request) u (behindMethod (methodOf m))
      (begin u) := by
  obtain ⟨ch, rest, q, hsplit, hstep, hok, hcount, hquiet⟩ := method_quiet m
  have hlength : (methodString (methodOf m) ++ str " ").length ≤ 8 := by cases m <;> decide
  rw [hsplit, List.length_cons] at hlength
  have hfirst := stepByte_begin (p := init .request) hb u hstep rfl hok (by decide)
  have hrest := (hquiet.takes (R := R) (begin u) (by rw [hcount, HTTP_MAX_HEADER_SIZE]; omega)).1
  rw [hsplit]
  exact (Reader.Takes.one hfirst).append hrest

/-- A printing character of ASCII. -/
def printing (c : UInt8) : Bool := decide (33 ≤ c) && decide (c ≤ 126)

/-- The states of a target that begins with a slash. -/
def inTarget : State → Bool
  | .reqPath | .reqQueryStringStart | .reqQueryString | .reqFragmentStart | .reqFragment => true
  | _ => false

/-- A printing character is not a blank, and a target goes on with it. -/
theorem printing_target {c : UInt8} (h : printing c = true) :
    (c ≠ ' '.toUInt8 ∧ c ≠ CR ∧ c ≠ LF) ∧ ∀ s, inTarget s = true → inTarget (parseUrlChar s c) = true := by
  have hbytes : ∀ c : UInt8, printing c = true → (c ≠ ' '.toUInt8 ∧ c ≠ CR ∧ c ≠ LF ∧ c ≠ 9 ∧ c ≠ 12) ∧
      (isUrlChar c = true ∨ c = '?'.toUInt8 ∨ c = '#'.toUInt8) := by
    apply forall_byte
    decide +kernel
  obtain ⟨⟨hspace, hcr, hlf, htab, hff⟩, hurl⟩ := hbytes c h
  refine ⟨⟨hspace, hcr, hlf⟩, fun s hs => ?_⟩
  unfold parseUrlChar
  simp only [hspace, hcr, hlf, htab, hff, or_self, if_false]
  cases s <;> first | exact absurd hs (by decide) | skip
  all_goals
    simp only
    split_ifs <;> first | rfl | exact absurd hurl (by simp_all)

/-- The target of a request line as the server can read it. -/
structure Target (target : Str) : Prop where
  slash : target.head? = some '/'.toUInt8
  printing : ∀ c ∈ target, printing c = true

instance (target : Str) : Decidable (Target target) :=
  decidable_of_iff (target.head? = some '/'.toUInt8 ∧ ∀ c ∈ target, Http.printing c = true)
    ⟨fun h => ⟨h.1, h.2⟩, fun h => ⟨h.1, h.2⟩⟩

theorem owner_inTarget {s : State} (h : inTarget s = true) :
    owner s = some .url ∧ parsingHeader s = true ∧ s ≠ .dead := by
  cases s <;> first | exact absurd h (by decide) | decide

/-- One character of a target. -/
theorem switch_target {p : HttpParser} {ch : UInt8} (hs : inTarget p.state = true)
    (hch : printing ch = true) :
    switch p ch = .next { p with state := parseUrlChar p.state ch } := by
  obtain ⟨⟨hspace, hcr, hlf⟩, hgoes⟩ := printing_target hch
  have hlive := (owner_inTarget (hgoes p.state hs)).2.2
  have hchar : urlChar none p ch = .next { p with state := parseUrlChar p.state ch } := by
    rw [urlChar]
    simp only [hlive, if_false]
    rfl
  rw [← hchar]
  cases hstate : p.state <;> rw [hstate] at hs <;> first | exact absurd hs (by decide) | skip
  all_goals simp only [switch, switchRequestTarget, hstate, hspace, hcr, hlf, or_self, if_false]

/-- The parser behind a request line with the target. -/
def behindRequestLine (m : Method) (target : Str) : HttpParser :=
  { behindMethod m with
    state := .headerFieldStart, httpMajor := 1, httpMinor := 1
    nread := (methodString m).length + 1 + (target.length + 11) }

theorem takes_target (ha : R.Additive) {m : ClientMethod} {target : Str} (ht : Target target) (u : τ)
    (hroom : (methodString (methodOf m)).length + 1 + target.length ≤ HTTP_MAX_HEADER_SIZE) :
    ∃ s, inTarget s = true ∧
      R.Takes target (behindMethod (methodOf m)) u
        { behindMethod (methodOf m) with
          state := s, nread := (methodString (methodOf m)).length + 1 + target.length }
        (R.deliver .url target u) := by
  have hne : target ≠ [] := by
    intro h
    have hslash := ht.slash
    rw [h] at hslash
    cases hslash
  have hconnect : (behindMethod (methodOf m)).method ≠ .CONNECT := by cases m <;> decide
  obtain ⟨q, htakes, -, hI⟩ := Reader.takes_element ha
    (C := fun l ch => printing ch = true ∧ (l = [] → ch = '/'.toUInt8))
    (I := fun l q => ∃ s : State, (if l = [] then s = .reqSpacesBeforeUrl else inTarget s = true) ∧
      q = { behindMethod (methodOf m) with
        state := s, nread := (methodString (methodOf m)).length + 1 + l.length })
    (fun l ch p u hch hI hroom => by
      obtain ⟨s, hs, rfl⟩ := hI
      obtain ⟨hprint, hslash⟩ := hch
      by_cases hl : l = []
      · subst hl
        rw [if_pos rfl] at hs
        subst hs
        obtain rfl := hslash rfl
        have hswitch : switch { behindMethod (methodOf m) with
            state := .reqSpacesBeforeUrl, nread := (methodString (methodOf m)).length + 1 + 0 + 1 }
            '/'.toUInt8 = .go (some .url) { behindMethod (methodOf m) with
              state := .reqPath, nread := (methodString (methodOf m)).length + 1 + 0 + 1 } .none .next := by
          cases m <;> rfl
        exact ⟨_, (Reader.stepByte_head rfl hroom).trans (Reader.byte_element hswitch), rfl,
          .reqPath, rfl, rfl⟩
      · rw [if_neg hl] at hs
        obtain ⟨howner, hhead, -⟩ := owner_inTarget hs
        have hswitch := switch_target (p := { behindMethod (methodOf m) with
          state := s, nread := (methodString (methodOf m)).length + 1 + l.length + 1 }) hs hprint
        have hbyte := (Reader.stepByte_head (R := R) (u := u) (p := { behindMethod (methodOf m) with
          state := s, nread := (methodString (methodOf m)).length + 1 + l.length }) hhead hroom).trans
          (Reader.byte_element (k := 3) hswitch)
        simp only [howner] at hbyte
        refine ⟨_, hbyte, rfl, parseUrlChar s ch, ?_, ?_⟩
        · rw [if_neg (by simp)]
          exact (printing_target hprint).2 s hs
        · rw [List.length_append, List.length_singleton, ← Nat.add_assoc])
    hne
    (fun l ch r h => ⟨ht.printing ch (by rw [h]; simp), fun hl => by
      have hslash := ht.slash
      rw [h, hl] at hslash
      exact Option.some.inj hslash⟩)
    u ⟨.reqSpacesBeforeUrl, (if_pos rfl).mpr rfl, rfl⟩ hroom
  obtain ⟨s, hs, rfl⟩ := hI
  rw [if_neg hne] at hs
  exact ⟨s, hs, htakes⟩

theorem version_quiet (p : HttpParser) :
    Quiet (str "HTTP/1.1\r\n") { p with state := .reqHttpStart }
      { p with state := .headerFieldStart, httpMajor := 1, httpMinor := 1, nread := p.nread + 10 } := by
  repeat' first | exact .nil _ | refine .cons rfl rfl rfl rfl ?_

/-- The request line, as it is written. -/
def requestLine (m : Method) (target : Str) : Str :=
  methodString m ++ str " " ++ target ++ str " HTTP/1.1\r\n"

/-- **The request line.** -/
theorem takes_requestLine (ha : R.Additive) {begin : τ → τ} (hb : R.Begins begin) {m : ClientMethod}
    {target : Str} (ht : Target target) (u : τ)
    (hroom : (requestLine (methodOf m) target).length ≤ HTTP_MAX_HEADER_SIZE) :
    R.Takes (requestLine (methodOf m) target) (init .request) u
      (behindRequestLine (methodOf m) target) (R.deliver .url target (begin u)) := by
  have hsplit : requestLine (methodOf m) target =
      (methodString (methodOf m) ++ str " ") ++ (target ++ (' '.toUInt8 :: str "HTTP/1.1\r\n")) := by
    rw [requestLine]
    simp [str]
  have hlength : (str "HTTP/1.1\r\n").length = 10 := by decide
  have hspaceLength : (str " ").length = 1 := rfl
  rw [hsplit] at hroom ⊢
  simp only [List.length_append, List.length_cons, hlength, hspaceLength] at hroom
  obtain ⟨s, hs, htarget⟩ := takes_target ha (m := m) ht (begin u) (by omega)
  obtain ⟨howner, hhead, -⟩ := owner_inTarget hs
  have hswitch : ∀ p : HttpParser, p.state = s → switch p ' '.toUInt8 =
      .go none { p with state := .reqHttpStart } (.data .url false true) .next := by
    intro p hp
    cases s <;> first | exact absurd hs (by decide) | skip
    all_goals simp only [switch, switchRequestTarget, hp, if_true]
  have hspace := (Reader.stepByte_head (R := R) (u := R.deliver .url target (begin u))
    (p := { behindMethod (methodOf m) with
      state := s, nread := (methodString (methodOf m)).length + 1 + target.length }) hhead
    (by simp only; omega)).trans
    (Reader.byte_endElement (k := 3) (hswitch _ rfl) rfl)
  rw [← ha.append, List.append_nil] at hspace
  have hversion := ((version_quiet { behindMethod (methodOf m) with
      nread := (methodString (methodOf m)).length + 1 + target.length + 1 }).takes (R := R)
    (R.deliver .url target (begin u)) (by simp only [hlength]; omega)).1
  exact (takes_method hb m u).append (htarget.append ((Reader.Takes.one hspace).append hversion))

/-! ## Status lines -/

/-- The codes of `status_strings::to_buffer`. -/
def knownCodes : List Nat :=
  [200, 201, 202, 204, 300, 301, 302, 304, 400, 401, 403, 404, 500, 501, 502, 503]

/-- The code that is written for a status. -/
def sentCode (status : Nat) : Nat := if status ∈ knownCodes then status else 500

/-- The reason that is written for a status. -/
def reason (status : Nat) : Str := ((statusLine status).drop 13).dropLast.dropLast

theorem sentCode_mem (status : Nat) : sentCode status ∈ knownCodes := by
  unfold sentCode
  split_ifs with h
  · exact h
  · decide

theorem statusLine_sentCode (status : Nat) : statusLine (sentCode status) = statusLine status := by
  unfold sentCode
  split_ifs with h
  · rfl
  · conv_rhs => unfold statusLine
    split
    iterate 16 · simp [knownCodes] at h
    rfl

theorem statusLine_parts {code : Nat} (h : code ∈ knownCodes) :
    statusLine code = 'H'.toUInt8 :: (str "TTP/1.0 " ++ ((toString code ++ str " ") ++
        (reason code ++ [CR, LF]))) ∧
      reason code ≠ [] ∧ (CR ∉ reason code ∧ LF ∉ reason code) ∧ (toString code).length = 3 ∧
      (reason code).length ≤ 30 := by
  simp only [knownCodes, List.mem_cons, List.not_mem_nil, or_false] at h
  rcases h with rfl | rfl | rfl | rfl | rfl | rfl | rfl | rfl | rfl | rfl | rfl | rfl | rfl | rfl | rfl | rfl <;>
  · simp only [reason, statusLine]
    simp [str, toString, CR, LF]
    try decide

/-- The parser behind the version of a status line. -/
def behindVersion : HttpParser :=
  { init .response with
    state := .resFirstStatusCode, contentLength := ULLONG_MAX, httpMajor := 1, nread := 9 }

theorem responseVersion_quiet :
    Quiet (str "TTP/1.0 ") { init .response with state := .resH, contentLength := ULLONG_MAX, nread := 1 }
      behindVersion := by
  repeat' first | exact .nil _ | refine .cons rfl rfl rfl rfl ?_

theorem code_quiet {code : Nat} (h : code ∈ knownCodes) :
    Quiet (toString code ++ str " ") behindVersion
      { behindVersion with state := .resStatusStart, statusCode := code, nread := 13 } := by
  simp only [knownCodes, List.mem_cons, List.not_mem_nil, or_false] at h
  rcases h with rfl | rfl | rfl | rfl | rfl | rfl | rfl | rfl | rfl | rfl | rfl | rfl | rfl | rfl | rfl | rfl <;>
  · repeat' first | exact .nil _ | refine .cons rfl rfl rfl rfl ?_

/-- The parser behind a status line. -/
def behindStatusLine (code : Nat) : HttpParser :=
  { behindVersion with
    state := .headerFieldStart, statusCode := code, nread := (statusLine code).length }

theorem takes_reason (ha : R.Additive) (code : Nat) {text : Str} (hne : text ≠ [])
    (htext : ∀ c ∈ text, c ≠ CR ∧ c ≠ LF) (u : τ) (hroom : 13 + text.length ≤ HTTP_MAX_HEADER_SIZE) :
    R.Takes text { behindVersion with state := .resStatusStart, statusCode := code, nread := 13 } u
      { behindVersion with state := .resStatus, statusCode := code, nread := 13 + text.length }
      (R.deliver .status text u) := by
  obtain ⟨q, htakes, -, hI⟩ := Reader.takes_element ha (C := fun _ ch => ch ≠ CR ∧ ch ≠ LF)
    (I := fun l q => q = { behindVersion with
      state := if l = [] then .resStatusStart else .resStatus
      statusCode := code, nread := 13 + l.length })
    (fun l ch p u hch hI hroom => by
      subst hI
      by_cases hl : l = []
      · subst hl
        have hswitch : switch { behindVersion with
            state := .resStatusStart, statusCode := code, nread := 13 + 0 + 1 } ch =
            .go (some .status) { behindVersion with
              state := .resStatus, statusCode := code, nread := 13 + 0 + 1 } .none .next := by
          simp only [switch, switchResponseLine, hch.1, hch.2, if_false]
          rfl
        exact ⟨_, (Reader.stepByte_head rfl hroom).trans (Reader.byte_element hswitch), rfl, rfl⟩
      · have hswitch : switch { behindVersion with
            state := .resStatus, statusCode := code, nread := 13 + l.length + 1 } ch =
            .next { behindVersion with
              state := .resStatus, statusCode := code, nread := 13 + l.length + 1 } := by
          simp only [switch, switchResponseLine, hch.1, hch.2, if_false]
        simp only [if_neg hl] at hroom ⊢
        refine ⟨_, (Reader.stepByte_head (R := R) (u := u) (p := { behindVersion with
          state := .resStatus, statusCode := code, nread := 13 + l.length }) rfl hroom).trans
          (Reader.byte_element hswitch), rfl, ?_⟩
        simp [Nat.add_assoc])
    hne (fun l ch r h => htext ch (by rw [h]; simp)) u (p := { behindVersion with
      state := .resStatusStart, statusCode := code, nread := 13 }) rfl hroom
  subst hI
  rw [if_neg hne] at htakes
  exact htakes

/-- **The status line.** -/
theorem takes_statusLine (ha : R.Additive) {begin : τ → τ} (hb : R.Begins begin) {code : Nat}
    (h : code ∈ knownCodes) (u : τ) :
    R.Takes (statusLine code) (init .response) u (behindStatusLine code)
      (R.deliver .status (reason code) (begin u)) := by
  obtain ⟨hsplit, hne, ⟨hnocr, hnolf⟩, hdigits, hlength⟩ := statusLine_parts h
  have hunbroken : ∀ c ∈ reason code, c ≠ CR ∧ c ≠ LF := fun c hc =>
    ⟨fun he => hnocr (he ▸ hc), fun he => hnolf (he ▸ hc)⟩
  have hfirst := stepByte_begin (p := init .response) hb u (c := 'H'.toUInt8) rfl rfl rfl (by decide)
  have hversion := (responseVersion_quiet.takes (R := R) (begin u) (by decide)).1
  have hspaceLength : (str " ").length = 1 := rfl
  have hcode := ((code_quiet h).takes (R := R) (begin u) (by
    rw [List.length_append, hdigits]
    decide)).1
  have hmax : HTTP_MAX_HEADER_SIZE = 81920 := by decide
  have hreason := takes_reason ha code hne hunbroken (begin u) (by omega)
  have hcr : switch { behindVersion with
      state := .resStatus, statusCode := code, nread := 13 + (reason code).length + 1 } CR =
      .go none { behindVersion with
        state := .resLineAlmostDone, statusCode := code, nread := 13 + (reason code).length + 1 }
        (.data .status false true) .next := by
    simp only [switch, switchResponseLine, if_true]
  have hlf : switch { behindVersion with
      state := .resLineAlmostDone, statusCode := code, nread := 13 + (reason code).length + 1 + 1 } LF =
      .next { behindVersion with
        state := .headerFieldStart, statusCode := code, nread := 13 + (reason code).length + 1 + 1 } := by
    simp only [switch, switchResponseLine, Step.expect, ne_eq, not_true_eq_false, if_false]
  have hend := (Reader.stepByte_head (R := R) (u := R.deliver .status (reason code) (begin u))
    (p := { behindVersion with
      state := .resStatus, statusCode := code, nread := 13 + (reason code).length }) rfl
    (by simp only; omega)).trans (Reader.byte_endElement (k := 3) hcr rfl)
  rw [← ha.append, List.append_nil] at hend
  have hend' := (Reader.stepByte_head (R := R) (u := R.deliver .status (reason code) (begin u))
    (p := { behindVersion with
      state := .resLineAlmostDone, statusCode := code, nread := 13 + (reason code).length + 1 }) rfl
    (by simp only; omega)).trans (Reader.byte_element (k := 3) hlf)
  have hall := (Reader.Takes.one hfirst).append (hversion.append (hcode.append (hreason.append
    ((Reader.Takes.one hend).append (Reader.Takes.one hend')))))
  have htotal : (statusLine code).length = 13 + (reason code).length + 1 + 1 := by
    have hversionLength : (str "TTP/1.0 ").length = 8 := by decide
    rw [hsplit]
    simp only [List.length_cons, List.length_append, List.length_nil, hdigits, hversionLength,
      hspaceLength]
    omega
  rw [behindStatusLine, htotal, hsplit]
  exact hall

end Wsrv.Http
