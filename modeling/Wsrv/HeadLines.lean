import Wsrv.HttpElements
import Wsrv.Util

/-!
# The lines of a head

What `http_parser_execute` makes of header lines that a sender writes one by one:
`name:value`, with a space behind the colon or without.  A reader is given the
name and the value, and the parser keeps of the line only what concerns the
framing of the body (`takes_lines`).
-/

namespace Wsrv.Http

variable {τ : Type}

/-! ## Bytes that a reader takes -/

namespace Reader

variable {R : Reader τ}

/-- The reader uses all the bytes and goes on. -/
def Takes (R : Reader τ) (bytes : Str) (p : HttpParser) (u : τ) (p' : HttpParser) (u' : τ) : Prop :=
  R.run bytes p u = (none, p', u')

theorem Takes.nil (p : HttpParser) (u : τ) : R.Takes [] p u p u := rfl

theorem Takes.append {a b : Str} {p q p' : HttpParser} {u v u' : τ} (ha : R.Takes a p u q v)
    (hb : R.Takes b q v p' u') : R.Takes (a ++ b) p u p' u' := by
  unfold Takes at ha hb ⊢
  rw [run_append, ha]
  simp only [hb, Option.map_none]

theorem Takes.one {ch : UInt8} {p p' : HttpParser} {u u' : τ}
    (h : R.stepByte ch p u = (none, p', u')) : R.Takes [ch] p u p' u' := by
  simp only [Takes, run, h, Option.map_none]

/-- A byte of a head is counted, as long as there is room for it. -/
theorem stepByte_head {c : UInt8} {p : HttpParser} {u : τ} (hh : parsingHeader p.state = true)
    (hroom : p.nread + 1 ≤ HTTP_MAX_HEADER_SIZE) :
    R.stepByte c p u = R.byte passes c { p with nread := p.nread + 1 } u := by
  have hcount : countByte p = { p with nread := p.nread + 1 } := by simp [countByte, hh]
  have hfits : ¬(parsingHeader p.state = true ∧ HTTP_MAX_HEADER_SIZE < p.nread + 1) :=
    fun h => absurd h.2 (Nat.not_lt.mpr hroom)
  rw [stepByte, hcount, if_neg hfits]

theorem byte_element {k : Nat} {ch : UInt8} {p q : HttpParser} {u : τ} {m : Option Elem}
    (h : switch p ch = .go m q .none .next) :
    R.byte (k + 1) ch p u = (none, q, R.feed (m <|> owner p.state) [ch] u) := by
  simp only [byte, h, call, if_true]

theorem byte_endElement {k : Nat} {ch : UInt8} {p q : HttpParser} {u : τ} {m : Option Elem} {e : Elem}
    {consume : Bool} (h : switch p ch = .go m q (.data e false consume) .next)
    (hok : q.httpErrno = .ok) : R.byte (k + 1) ch p u = (none, q, R.deliver e [] u) := by
  simp [byte, h, call, checkErrno, hok]

theorem byte_again {k : Nat} {ch : UInt8} {p q : HttpParser} {u : τ} {m : Option Elem}
    (h : switch p ch = .go m q .none .again) :
    R.byte (k + 1) ch p u = R.byte k ch q u := by
  simp only [byte, h, call]

/-- **The text of an element, byte by byte**: `I` says where the parser stands behind the bytes `l` of
the element, and `C` which byte may follow them. -/
theorem takes_element (ha : R.Additive) {e : Elem} {C : Str → UInt8 → Prop}
    {I : Str → HttpParser → Prop}
    (hstep : ∀ l ch p u, C l ch → I l p → p.nread + 1 ≤ HTTP_MAX_HEADER_SIZE →
      ∃ q, R.stepByte ch p u = (none, q, R.deliver e [ch] u) ∧ q.nread = p.nread + 1 ∧
        I (l ++ [ch]) q)
    {text : Str} (hne : text ≠ []) (htext : ∀ l ch r, text = l ++ ch :: r → C l ch) {p : HttpParser}
    (u : τ) (hI : I [] p) (hroom : p.nread + text.length ≤ HTTP_MAX_HEADER_SIZE) :
    ∃ q, R.Takes text p u q (R.deliver e text u) ∧ q.nread = p.nread + text.length ∧ I text q := by
  have hrest : ∀ (rest l : Str) (p : HttpParser) (v : τ), text = l ++ rest → I l p →
      p.nread + rest.length ≤ HTTP_MAX_HEADER_SIZE → R.deliver e [] v = v →
      ∃ q, R.Takes rest p v q (R.deliver e rest v) ∧ q.nread = p.nread + rest.length ∧
        I (l ++ rest) q := by
    intro rest
    induction rest with
    | nil =>
      intro l p v _ hI _ hv
      exact ⟨p, by rw [hv]; exact .nil p v, rfl, by rwa [List.append_nil]⟩
    | cons ch rest ih =>
      intro l p v hsplit hI hroom _
      rw [List.length_cons] at hroom
      obtain ⟨q, hbyte, hcount, hI'⟩ := hstep l ch p v (htext l ch rest hsplit) hI (by omega)
      obtain ⟨q', htakes, hcount', hI''⟩ := ih (l ++ [ch]) q (R.deliver e [ch] v)
        (by rw [hsplit, List.append_assoc, List.singleton_append]) hI' (by omega)
        (by rw [← ha.append, List.append_nil])
      refine ⟨q', ?_, by rw [hcount', hcount, List.length_cons]; omega, by simpa using hI''⟩
      have hall := (Takes.one hbyte).append htakes
      rwa [← ha.append] at hall
  obtain ⟨ch, rest, rfl⟩ := List.exists_cons_of_ne_nil hne
  rw [List.length_cons] at hroom ⊢
  obtain ⟨q, hbyte, hcount, hI'⟩ := hstep [] ch p u (htext [] ch rest rfl) hI (by omega)
  obtain ⟨q', htakes, hcount', hI''⟩ := hrest rest [ch] q (R.deliver e [ch] u) rfl hI' (by omega)
    (by rw [← ha.append, List.append_nil])
  refine ⟨q', ?_, by omega, hI''⟩
  have hall := (Takes.one hbyte).append htakes
  rwa [← ha.append] at hall

end Reader

/-! ## Header names -/

/-- The text of a header name. -/
structure FieldName (name : Str) : Prop where
  ne_nil : name ≠ []
  tokens : ∀ c ∈ name, token c ≠ 0

instance (name : Str) : Decidable (FieldName name) :=
  decidable_of_iff (name ≠ [] ∧ ∀ c ∈ name, token c ≠ 0) ⟨fun h => ⟨h.1, h.2⟩, fun h => ⟨h.1, h.2⟩⟩

/-- A name as the parser compares it. -/
def lowerName (name : Str) : Str := name.map token

/-- `l` is the part of the word up to `index`, and not all of it. -/
def Within (word l : Str) (index : Nat) : Prop := l = word.take (index + 1) ∧ index + 1 < word.length

/-- What a header state says of the name that has been read so far. -/
def Matches (l : Str) (index : Nat) : HeaderState → Prop
  | .general => True
  | .C => l = str "c" ∧ index = 0
  | .CO => l = str "co" ∧ index = 1
  | .CON => l = str "con" ∧ index = 2
  | .matchingConnection => Within (str "connection") l index
  | .matchingProxyConnection => Within (str "proxy-connection") l index
  | .matchingContentLength => Within (str "content-length") l index
  | .matchingTransferEncoding => Within (str "transfer-encoding") l index
  | .matchingUpgrade => Within (str "upgrade") l index
  | .connection => l = str "connection" ∨ l = str "proxy-connection"
  | .contentLength => l = str "content-length"
  | .transferEncoding => l = str "transfer-encoding"
  | .upgrade => l = str "upgrade"
  | _ => False

theorem matches_first (c : UInt8) : Matches [c] 0 (headerFieldFirst c) := by
  unfold headerFieldFirst
  split_ifs with hc hp ht hu
  · subst hc
    exact ⟨by decide, rfl⟩
  · subst hp
    exact ⟨by decide, by decide⟩
  · subst ht
    exact ⟨by decide, by decide⟩
  · subst hu
    exact ⟨by decide, by decide⟩
  · trivial

/-- One more character of a word. -/
theorem matchWord_within {word l : Str} {p : HttpParser} (c : UInt8) (matched : HeaderState)
    (h : Within word l p.index) :
    ∃ hs, matchWord p c word matched = { p with index := p.index + 1, headerState := hs } ∧
      (hs = .general ∨ hs = matched ∧ l ++ [c] = word ∨
        hs = p.headerState ∧ Within word (l ++ [c]) (p.index + 1)) := by
  obtain ⟨rfl, hlen⟩ := h
  unfold matchWord
  simp only
  split_ifs with hstop hlast
  · exact ⟨.general, rfl, .inl rfl⟩
  all_goals
    obtain ⟨-, hc⟩ := not_or.mp hstop
    have hnext : word.take (p.index + 1) ++ [c] = word.take (p.index + 1 + 1) := by
      rw [not_not.mp hc, List.getD_eq_getElem _ _ hlen, List.take_append_getElem]
  · refine ⟨matched, rfl, .inr (.inl ⟨rfl, ?_⟩)⟩
    rw [hnext, List.take_of_length_le (by omega)]
  · exact ⟨p.headerState, rfl, .inr (.inr ⟨rfl, hnext, by omega⟩)⟩

/-- **The matching of names is sound.** -/
theorem headerFieldChar_matches {l : Str} {p : HttpParser} {ch : UInt8} (hch : token ch ≠ 0)
    (h : Matches l p.index p.headerState) :
    ∃ i hs, headerFieldChar p ch (token ch) = { p with index := i, headerState := hs } ∧
      Matches (l ++ [token ch]) i hs := by
  have hspace : ch ≠ ' '.toUInt8 := by
    rintro rfl
    exact hch (by decide)
  have hmatch : ∀ word matched, Within word l p.index →
      (Within word (l ++ [token ch]) (p.index + 1) → Matches (l ++ [token ch]) (p.index + 1) p.headerState) →
      (l ++ [token ch] = word → Matches (l ++ [token ch]) (p.index + 1) matched) →
      ∃ i hs, matchWord p (token ch) word matched = { p with index := i, headerState := hs } ∧
        Matches (l ++ [token ch]) i hs := by
    intro word matched hin hgoes hend
    obtain ⟨hs, heq, hcase⟩ := matchWord_within (token ch) matched hin
    refine ⟨_, _, heq, ?_⟩
    rcases hcase with rfl | ⟨rfl, hword⟩ | ⟨rfl, hin'⟩
    · trivial
    · exact hend hword
    · exact hgoes hin'
  unfold headerFieldChar
  cases hs : p.headerState <;> rw [hs] at h hmatch <;> simp only [Matches] at h hmatch ⊢
  case general => exact ⟨p.index, .general, by rw [← hs], trivial⟩
  case C =>
    obtain ⟨rfl, hi⟩ := h
    by_cases hc : token ch = 'o'.toUInt8
    · exact ⟨p.index + 1, .CO, by rw [if_pos hc], by rw [hc]; decide, by omega⟩
    · exact ⟨p.index + 1, .general, by rw [if_neg hc], trivial⟩
  case CO =>
    obtain ⟨rfl, hi⟩ := h
    by_cases hc : token ch = 'n'.toUInt8
    · exact ⟨p.index + 1, .CON, by rw [if_pos hc], by rw [hc]; decide, by omega⟩
    · exact ⟨p.index + 1, .general, by rw [if_neg hc], trivial⟩
  case CON =>
    obtain ⟨rfl, hi⟩ := h
    by_cases hn : token ch = 'n'.toUInt8
    · exact ⟨p.index + 1, .matchingConnection, by rw [if_pos hn], by rw [hn, hi]; decide,
        by rw [hi]; decide⟩
    · by_cases ht : token ch = 't'.toUInt8
      · exact ⟨p.index + 1, .matchingContentLength, by rw [if_neg hn, if_pos ht], by rw [ht, hi]; decide,
          by rw [hi]; decide⟩
      · exact ⟨p.index + 1, .general, by rw [if_neg hn, if_neg ht], trivial⟩
  case matchingConnection => exact hmatch _ _ h id .inl
  case matchingProxyConnection => exact hmatch _ _ h id .inr
  case matchingContentLength => exact hmatch _ _ h id id
  case matchingTransferEncoding => exact hmatch _ _ h id id
  case matchingUpgrade => exact hmatch _ _ h id id
  case connection => exact ⟨p.index, .general, by rw [if_pos hspace], trivial⟩
  case contentLength => exact ⟨p.index, .general, by rw [if_pos hspace], trivial⟩
  case transferEncoding => exact ⟨p.index, .general, by rw [if_pos hspace], trivial⟩
  case upgrade => exact ⟨p.index, .general, by rw [if_pos hspace], trivial⟩

/-- The index and the header state behind a name. -/
def trackChar (t : Nat × HeaderState) (c : UInt8) : Nat × HeaderState :=
  let p := headerFieldChar { init .request with index := t.1, headerState := t.2 } c (token c)
  (p.index, p.headerState)

def track : Str → Nat × HeaderState
  | [] => (0, .general)
  | c :: rest => rest.foldl trackChar (0, headerFieldFirst (token c))

theorem headerFieldChar_track (p : HttpParser) (c : UInt8) :
    headerFieldChar p c (token c) =
      { p with
        index := (trackChar (p.index, p.headerState) c).1
        headerState := (trackChar (p.index, p.headerState) c).2 } := by
  unfold trackChar headerFieldChar
  cases hs : p.headerState <;> simp only [matchWord] <;> (try split_ifs) <;> simp [← hs]

theorem track_snoc {l : Str} (hl : l ≠ []) (c : UInt8) : track (l ++ [c]) = trackChar (track l) c := by
  obtain ⟨a, rest, rfl⟩ := List.exists_cons_of_ne_nil hl
  exact List.foldl_append

/-- **What the parser knows of a name is true.** -/
theorem track_matches {name : Str} (hname : FieldName name) :
    Matches (lowerName name) (track name).1 (track name).2 := by
  obtain ⟨hne, htokens⟩ := hname
  induction name using List.reverseRecOn with
  | nil => exact absurd rfl hne
  | append_singleton l c ih =>
    by_cases hl : l = []
    · subst hl
      exact matches_first (token c)
    · have hm := ih hl fun d hd => htokens d (List.mem_append_left [c] hd)
      obtain ⟨i, hs, heq, hm'⟩ := headerFieldChar_matches
        (p := { init .request with index := (track l).1, headerState := (track l).2 })
        (htokens c (by simp)) hm
      have htrack : trackChar (track l) c = (i, hs) := by
        rw [trackChar, heq]
      rw [track_snoc hl, htrack]
      simpa [lowerName] using hm'

/-! ## One line -/

/-- What is left of the parser for the framing of the body: not where it stands in the head, and not
what a `Connection` header asks for. -/
def frame (p : HttpParser) : HttpParser :=
  { p with
    state := .dead, headerState := .general, index := 0, nread := 0
    flags := { p.flags with connectionKeepAlive := false, connectionClose := false } }

/-- The parser stands at the state `s` of a head. -/
structure Placed (s : State) (f p : HttpParser) : Prop where
  state : p.state = s
  ok : p.httpErrno = .ok
  frame : frame p = f

/-- The parser stands where a line of the head begins. -/
structure AtLine (f p : HttpParser) : Prop where
  state : p.state = .headerFieldStart ∨
    p.state = .headerValueLws ∧ p.headerState ≠ .transferEncodingChunked
  ok : p.httpErrno = .ok
  frame : frame p = f

theorem switch_name {p : HttpParser} {ch : UInt8} (hs : p.state = .headerField) (hch : token ch ≠ 0) :
    switch p ch = .next (headerFieldChar p ch (token ch)) := by
  simp only [switch, switchHeaderField, hs, ne_eq, hch, not_false_eq_true, if_true]

theorem switch_nameStart {p : HttpParser} {ch : UInt8} (hs : p.state = .headerFieldStart)
    (hch : token ch ≠ 0) :
    switch p ch = .go (some .headerField)
      { p with index := 0, state := .headerField, headerState := headerFieldFirst (token ch) }
      .none .next := by
  have hcr : ch ≠ CR := by
    rintro rfl
    exact hch (by decide)
  have hlf : ch ≠ LF := by
    rintro rfl
    exact hch (by decide)
  simp only [switch, switchHeaderField, hs, hcr, hlf, hch, if_false]

/-- At the line behind a header the parser first sets the flags of that header. -/
theorem switch_lws {p : HttpParser} {ch : UInt8} (hs : p.state = .headerValueLws)
    (hch : ch ≠ ' '.toUInt8 ∧ ch ≠ 9) :
    switch p ch = .again { p with flags := headerFlags p, state := .headerFieldStart } := by
  simp only [switch, switchHeaderValue, hs, hch.1, hch.2, or_self, if_false]

theorem frame_headerFlags {p : HttpParser} (h : p.headerState ≠ .transferEncodingChunked) :
    frame { p with flags := headerFlags p, state := .headerFieldStart } = frame p := by
  unfold headerFlags
  cases hs : p.headerState <;> first | rfl | exact absurd hs h

/-- The first byte of a line. -/
theorem AtLine.byte {R : Reader τ} {f p : HttpParser} (h : AtLine f p) {ch : UInt8}
    (hch : ch ≠ ' '.toUInt8 ∧ ch ≠ 9) (u : τ) (hroom : p.nread + 1 ≤ HTTP_MAX_HEADER_SIZE) :
    ∃ k q, 2 ≤ k ∧ R.stepByte ch p u = R.byte k ch q u ∧ q.nread = p.nread + 1 ∧
      Placed .headerFieldStart f q := by
  rcases h.state with hs | ⟨hs, hheader⟩
  · exact ⟨passes, { p with nread := p.nread + 1 }, by decide,
      Reader.stepByte_head (by rw [hs]; rfl) hroom, rfl, hs, h.ok, h.frame⟩
  · have hagain := switch_lws (p := { p with nread := p.nread + 1 }) hs hch
    refine ⟨3, { p with nread := p.nread + 1, flags := headerFlags p, state := .headerFieldStart },
      by decide, ?_, rfl, rfl, h.ok, ?_⟩
    · exact (Reader.stepByte_head (by rw [hs]; rfl) hroom).trans (Reader.byte_again hagain)
    · rw [← h.frame]
      exact frame_headerFlags (p := { p with nread := p.nread + 1 }) hheader

/-- **The name of a header.** -/
theorem takes_name {R : Reader τ} (ha : R.Additive) {f p : HttpParser} {name : Str}
    (hname : FieldName name) (hp : AtLine f p) (u : τ)
    (hroom : p.nread + name.length ≤ HTTP_MAX_HEADER_SIZE) :
    ∃ q, R.Takes name p u q (R.deliver .headerField name u) ∧ q.nread = p.nread + name.length ∧
      Placed .headerField f q ∧ q.headerState = (track name).2 := by
  have htext : ∀ l ch r, name = l ++ ch :: r → token ch ≠ 0 := fun l ch r h =>
    hname.tokens ch (by rw [h]; simp)
  obtain ⟨q, htakes, hcount, hI⟩ := Reader.takes_element ha
    (C := fun _ ch => token ch ≠ 0)
    (I := fun l q => if l = [] then AtLine f q else
      Placed .headerField f q ∧ (q.index, q.headerState) = track l)
    (fun l ch p u hch hI hroom => by
      by_cases hl : l = []
      · -- the first character: the line behind a header is left first
        rw [if_pos hl] at hI
        have hblank : ch ≠ ' '.toUInt8 ∧ ch ≠ 9 := by
          constructor <;>
          · rintro rfl
            exact hch (by decide)
        obtain ⟨k, q, hk, hbyte, hcount, hq⟩ := hI.byte (R := R) hblank u hroom
        obtain ⟨k, rfl⟩ : ∃ j, k = j + 1 := ⟨k - 1, by omega⟩
        have hstart := switch_nameStart hq.state hch
        refine ⟨_, hbyte.trans (Reader.byte_element hstart), hcount, ?_⟩
        rw [if_neg (by simp), hl]
        exact ⟨⟨rfl, hq.ok, hq.frame⟩, rfl⟩
      · rw [if_neg hl] at hI
        obtain ⟨⟨hs, hok, hframe⟩, htrack⟩ := hI
        have hchar := headerFieldChar_track { p with nread := p.nread + 1 } ch
        have hswitch := (switch_name (p := { p with nread := p.nread + 1 }) hs hch).trans
          (congrArg Step.next hchar)
        refine ⟨{ p with
            nread := p.nread + 1, index := (trackChar (track l) ch).1
            headerState := (trackChar (track l) ch).2 }, ?_, rfl, ?_⟩
        · rw [Reader.stepByte_head (by rw [hs]; rfl) hroom, passes, Reader.byte_element hswitch, hs,
            htrack]
          rfl
        · rw [if_neg (by simp), track_snoc hl]
          exact ⟨⟨hs, hok, hframe⟩, rfl⟩)
    hname.ne_nil htext u hp hroom
  rw [if_neg hname.ne_nil] at hI
  exact ⟨q, htakes, hcount, hI.1, congrArg Prod.snd hI.2⟩

/-- The text of a header value: it does not begin with a blank, and it is one line. -/
structure FieldValue (value : Str) : Prop where
  ne_nil : value ≠ []
  first : value.head? ≠ some ' '.toUInt8 ∧ value.head? ≠ some 9
  unbroken : ∀ c ∈ value, c ≠ CR ∧ c ≠ LF

instance (value : Str) : Decidable (FieldValue value) :=
  decidable_of_iff (value ≠ [] ∧ (value.head? ≠ some ' '.toUInt8 ∧ value.head? ≠ some 9) ∧
    ∀ c ∈ value, c ≠ CR ∧ c ≠ LF) ⟨fun h => ⟨h.1, h.2.1, h.2.2⟩, fun h => ⟨h.1, h.2, h.3⟩⟩

/-- A header state that calls for a framing of the body. -/
def framing? : HeaderState → Bool
  | .contentLength | .transferEncoding | .upgrade => true
  | _ => false

/-- A header state inside of a value that leaves the framing alone. -/
def calm : HeaderState → Bool
  | .general | .matchingConnectionKeepAlive | .matchingConnectionClose | .connectionKeepAlive
  | .connectionClose => true
  | _ => false

theorem headerValueStart_calm {p : HttpParser} (ch : UInt8) (h : framing? p.headerState = false) :
    ∃ hs, calm hs = true ∧ headerValueStart p ch = .go (some .headerValue)
      { p with state := .headerValue, index := 0, headerState := hs } .none .next := by
  unfold headerValueStart
  cases hs : p.headerState <;> rw [hs] at h <;> try exact ⟨.general, rfl, rfl⟩
  case connection =>
    simp only
    split_ifs
    · exact ⟨.matchingConnectionKeepAlive, rfl, rfl⟩
    · exact ⟨.matchingConnectionClose, rfl, rfl⟩
    · exact ⟨.general, rfl, rfl⟩
  all_goals exact absurd h (by decide)

theorem matchWord_states (p : HttpParser) (c : UInt8) (word : Str) (matched : HeaderState) :
    ∃ hs, matchWord p c word matched = { p with index := p.index + 1, headerState := hs } ∧
      (hs = .general ∨ hs = matched ∨ hs = p.headerState) := by
  unfold matchWord
  simp only
  split_ifs
  · exact ⟨.general, rfl, .inl rfl⟩
  · exact ⟨matched, rfl, .inr (.inl rfl)⟩
  · exact ⟨p.headerState, rfl, .inr (.inr rfl)⟩

theorem headerValueChar_calm {p : HttpParser} (ch : UInt8) (h : calm p.headerState = true) :
    ∃ i hs, calm hs = true ∧ headerValueChar p ch = .next { p with index := i, headerState := hs } := by
  have hword : ∀ word matched, calm matched = true →
      ∃ i hs, calm hs = true ∧ Step.next (matchWord p (lower ch) word matched) =
        .next { p with index := i, headerState := hs } := by
    intro word matched hmatched
    obtain ⟨hs, heq, hcase⟩ := matchWord_states p (lower ch) word matched
    refine ⟨_, hs, ?_, congrArg Step.next heq⟩
    rcases hcase with rfl | rfl | rfl
    · rfl
    · exact hmatched
    · exact h
  have hblank : ∃ i hs, calm hs = true ∧
      Step.next (if ch ≠ ' '.toUInt8 then { p with headerState := .general } else p) =
        .next { p with index := i, headerState := hs } := by
    split_ifs
    · exact ⟨p.index, .general, rfl, rfl⟩
    · exact ⟨p.index, p.headerState, h, rfl⟩
  unfold headerValueChar
  cases hs : p.headerState <;> rw [hs] at h <;> simp only
  case general => exact ⟨p.index, .general, rfl, by rw [← hs]⟩
  case matchingConnectionKeepAlive => exact hword _ _ rfl
  case matchingConnectionClose => exact hword _ _ rfl
  case connectionKeepAlive => exact hblank
  case connectionClose => exact hblank
  all_goals exact absurd h (by decide)

theorem switch_valueStart {p : HttpParser} {ch : UInt8} (hs : p.state = .headerValueDiscardWs)
    (hblank : ch ≠ ' '.toUInt8 ∧ ch ≠ 9) (hline : ch ≠ CR ∧ ch ≠ LF) :
    switch p ch = headerValueStart p ch := by
  simp only [switch, switchHeaderValueStart, hs, hblank.1, hblank.2, hline.1, hline.2, or_self, if_false]

theorem switch_value {p : HttpParser} {ch : UInt8} (hs : p.state = .headerValue)
    (hline : ch ≠ CR ∧ ch ≠ LF) : switch p ch = headerValueChar p ch := by
  simp only [switch, switchHeaderValue, hs, hline.1, hline.2, if_false]

/-- Which byte may come in a value behind `l`. -/
def ValueByte (l : Str) (ch : UInt8) : Prop :=
  (ch ≠ CR ∧ ch ≠ LF) ∧ (l = [] → ch ≠ ' '.toUInt8 ∧ ch ≠ 9)

theorem FieldValue.bytes {value : Str} (h : FieldValue value) (l : Str) (ch : UInt8) (r : Str)
    (hsplit : value = l ++ ch :: r) : ValueByte l ch := by
  refine ⟨h.unbroken ch (by rw [hsplit]; simp), fun hl => ?_⟩
  have hfirst := h.first
  rw [hsplit, hl] at hfirst
  simpa using hfirst

/-- **A value that leaves the framing alone.** -/
theorem takes_value {R : Reader τ} (ha : R.Additive) {f p : HttpParser} {value : Str}
    (hvalue : FieldValue value) (hp : Placed .headerValueDiscardWs f p)
    (hheader : framing? p.headerState = false) (u : τ)
    (hroom : p.nread + value.length ≤ HTTP_MAX_HEADER_SIZE) :
    ∃ q, R.Takes value p u q (R.deliver .headerValue value u) ∧ q.nread = p.nread + value.length ∧
      Placed .headerValue f q ∧ calm q.headerState = true := by
  obtain ⟨q, htakes, hcount, hI⟩ := Reader.takes_element ha (C := ValueByte)
    (I := fun l q => if l = [] then Placed .headerValueDiscardWs f q ∧ framing? q.headerState = false
      else Placed .headerValue f q ∧ calm q.headerState = true)
    (fun l ch p u hch hI hroom => by
      obtain ⟨hline, hblank⟩ := hch
      by_cases hl : l = []
      · rw [if_pos hl] at hI
        obtain ⟨⟨hs, hok, hframe⟩, hheader⟩ := hI
        obtain ⟨hs', hcalm, hstart⟩ :=
          headerValueStart_calm (p := { p with nread := p.nread + 1 }) ch hheader
        have hswitch := (switch_valueStart (p := { p with nread := p.nread + 1 }) hs (hblank hl)
          hline).trans hstart
        refine ⟨{ p with nread := p.nread + 1, state := .headerValue, index := 0, headerState := hs' },
          (Reader.stepByte_head (by rw [hs]; rfl) hroom).trans (Reader.byte_element hswitch), rfl, ?_⟩
        rw [if_neg (by simp)]
        exact ⟨⟨rfl, hok, hframe⟩, hcalm⟩
      · rw [if_neg hl] at hI
        obtain ⟨⟨hs, hok, hframe⟩, hcalm⟩ := hI
        obtain ⟨i, hs', hcalm', hchar⟩ :=
          headerValueChar_calm (p := { p with nread := p.nread + 1 }) ch hcalm
        have hswitch := (switch_value (p := { p with nread := p.nread + 1 }) hs hline).trans hchar
        refine ⟨{ p with nread := p.nread + 1, index := i, headerState := hs' }, ?_, rfl, ?_⟩
        · rw [Reader.stepByte_head (by rw [hs]; rfl) hroom, passes, Reader.byte_element hswitch, hs]
          rfl
        · rw [if_neg (by simp)]
          exact ⟨⟨hs, hok, hframe⟩, hcalm'⟩)
    hvalue.ne_nil hvalue.bytes u ⟨hp, hheader⟩ hroom
  rw [if_neg hvalue.ne_nil] at hI
  exact ⟨q, htakes, hcount, hI⟩

/-! ## The length of a body -/

/-- The number that decimal digits stand for. -/
def decimal (digits : Str) : Nat := digits.foldl (fun n c => n * 10 + digit c) 0

theorem decimal_toString (n : Nat) : decimal (toString n) = n := by
  have hnumber := leadingNumber_toString n
  rwa [leadingNumber, List.takeWhile_eq_self_iff.mpr (toString_isdigit n)] at hnumber

theorem decimal_append (l r : Str) : decimal l ≤ decimal (l ++ r) := by
  have hgrow : ∀ (r : Str) (n : Nat), n ≤ r.foldl (fun n c => n * 10 + digit c) n := by
    intro r
    induction r with
    | nil => exact fun n => Nat.le_refl n
    | cons c r ih =>
      intro n
      have hdigit : n ≤ n * 10 + digit c := by omega
      exact Nat.le_trans hdigit (ih _)
  rw [decimal, decimal, List.foldl_append]
  exact hgrow r _

/-- A length that the parser can hold, and the next digit. -/
theorem accumulate_digit {l : Str} {ch : UInt8} (h : decimal (l ++ [ch]) < 2 ^ 63) :
    accumulate 10 (decimal l) (digit ch) = some (decimal (l ++ [ch])) := by
  have hsnoc : decimal (l ++ [ch]) = decimal l * 10 + digit ch := by
    rw [decimal, List.foldl_append]
    rfl
  have hfits : ¬(ULLONG_MAX - 10) / 10 < decimal l := by
    rw [ULLONG_MAX]
    omega
  rw [accumulate, if_neg hfits, hsnoc]

/-- **The value of a `Content-Length`.** -/
theorem takes_length {R : Reader τ} (ha : R.Additive) {f p : HttpParser} {n : Nat}
    (hn : n < 2 ^ 63) (hp : Placed .headerValueDiscardWs f p)
    (hheader : p.headerState = .contentLength) (u : τ)
    (hroom : p.nread + (toString n).length ≤ HTTP_MAX_HEADER_SIZE) :
    ∃ q, R.Takes (toString n) p u q (R.deliver .headerValue (toString n) u) ∧
      q.nread = p.nread + (toString n).length ∧
      Placed .headerValue { f with contentLength := n } q ∧ q.headerState = .contentLength := by
  have hne : toString n ≠ [] := by simp [toString, Nat.toDigits_ne_nil]
  have htext : ∀ l ch r, toString n = l ++ ch :: r →
      isNum ch = true ∧ decimal (l ++ [ch]) < 2 ^ 63 := by
    intro l ch r h
    refine ⟨toString_isdigit n ch (by rw [h]; simp), ?_⟩
    have hle := decimal_append (l ++ [ch]) r
    rw [List.append_assoc, List.singleton_append, ← h, decimal_toString] at hle
    omega
  obtain ⟨q, htakes, hcount, hI⟩ := Reader.takes_element ha
    (C := fun l ch => isNum ch = true ∧ decimal (l ++ [ch]) < 2 ^ 63)
    (I := fun l q => if l = [] then Placed .headerValueDiscardWs f q ∧ q.headerState = .contentLength
      else Placed .headerValue { f with contentLength := decimal l } q ∧ q.headerState = .contentLength)
    (fun l ch p u hch hI hroom => by
      obtain ⟨hnum, hsmall⟩ := hch
      have hbytes : (ch ≠ ' '.toUInt8 ∧ ch ≠ 9) ∧ ch ≠ CR ∧ ch ≠ LF := by
        refine ⟨⟨?_, ?_⟩, ?_, ?_⟩ <;>
        · rintro rfl
          exact absurd hnum (by decide)
      by_cases hl : l = []
      · rw [if_pos hl] at hI
        obtain ⟨⟨hs, hok, hframe⟩, hheader⟩ := hI
        have hstart : headerValueStart { p with nread := p.nread + 1 } ch = .go (some .headerValue)
            { p with nread := p.nread + 1, state := .headerValue, index := 0, contentLength := digit ch }
            .none .next := by
          simp [headerValueStart, hheader, hnum]
        have hswitch := (switch_valueStart (p := { p with nread := p.nread + 1 }) hs hbytes.1
          hbytes.2).trans hstart
        refine ⟨_, (Reader.stepByte_head (by rw [hs]; rfl) hroom).trans (Reader.byte_element hswitch),
          rfl, ?_⟩
        rw [if_neg (by simp), hl, ← hframe]
        exact ⟨⟨rfl, hok, by simp [frame, decimal]⟩, hheader⟩
      · rw [if_neg hl] at hI
        obtain ⟨⟨hs, hok, hframe⟩, hheader⟩ := hI
        have hlength : p.contentLength = decimal l := congrArg HttpParser.contentLength hframe
        have hchar : headerValueChar { p with nread := p.nread + 1 } ch =
            .next { p with nread := p.nread + 1, contentLength := decimal (l ++ [ch]) } := by
          simp [headerValueChar, hheader, hbytes.1.1, hnum, hlength, accumulate_digit hsmall]
        have hswitch := (switch_value (p := { p with nread := p.nread + 1 }) hs hbytes.2).trans hchar
        refine ⟨{ p with nread := p.nread + 1, contentLength := decimal (l ++ [ch]) }, ?_, rfl, ?_⟩
        · rw [Reader.stepByte_head (by rw [hs]; rfl) hroom, passes, Reader.byte_element hswitch, hs]
          rfl
        · rw [if_neg (by simp)]
          exact ⟨⟨hs, hok, congrArg (fun f => { f with contentLength := decimal (l ++ [ch]) }) hframe⟩,
            hheader⟩)
    hne htext u ⟨hp, hheader⟩ hroom
  rw [if_neg hne, decimal_toString] at hI
  exact ⟨q, htakes, hcount, hI⟩

/-! ## Lines -/

/-- A header line as a sender writes it, with a space behind the colon or without. -/
structure HeaderLine where
  name : Str
  value : Str
  padded : Bool

namespace HeaderLine

def pad (h : HeaderLine) : Str := if h.padded then str " " else []

def text (h : HeaderLine) : Str := h.name ++ ':'.toUInt8 :: (h.pad ++ h.value ++ [CR, LF])

/-- What a reader is given of a line. -/
def deliver (R : Reader τ) (u : τ) (h : HeaderLine) : τ :=
  R.deliver .headerValue h.value (R.deliver .headerField h.name u)

def isLength (h : HeaderLine) : Bool := h.name == str "Content-Length"

/-- A line that the parser takes, where the body is to have the length `n`. -/
structure Sound (n : Nat) (h : HeaderLine) : Prop where
  name : FieldName h.name
  value : FieldValue h.value
  /-- The length is that of the body, and no other header changes the framing. -/
  framing : if h.isLength then h.value = toString n else
    lowerName h.name ∉ [str "content-length", str "transfer-encoding", str "upgrade"]

instance (n : Nat) (h : HeaderLine) : Decidable (h.Sound n) :=
  decidable_of_iff (FieldName h.name ∧ FieldValue h.value ∧ if h.isLength then h.value = toString n else
    lowerName h.name ∉ [str "content-length", str "transfer-encoding", str "upgrade"])
    ⟨fun h => ⟨h.1, h.2.1, h.2.2⟩, fun h => ⟨h.1, h.2, h.3⟩⟩

/-- A line of a name that the parser does not take for one of the framing. -/
theorem sound_of_calm {name value : Str} (hname : FieldName name) (hvalue : FieldValue value)
    (hcalm : lowerName name ∉ [str "content-length", str "transfer-encoding", str "upgrade"])
    (n : Nat) (padded : Bool) : Sound n ⟨name, value, padded⟩ := by
  refine ⟨hname, hvalue, ?_⟩
  have hnot : ¬isLength ⟨name, value, padded⟩ = true := by
    intro hlen
    have hlength : name = str "Content-Length" := eq_of_beq hlen
    rw [hlength] at hcalm
    exact hcalm (by decide)
  rwa [if_neg hnot]

theorem sound_length (n : Nat) (padded : Bool) : Sound n ⟨str "Content-Length", toString n, padded⟩ := by
  refine ⟨(by decide +kernel : FieldName (str "Content-Length")), ⟨by simp [toString, Nat.toDigits_ne_nil], ?_,
    fun c hc => ?_⟩, rfl⟩
  · constructor <;>
    · intro hhead
      have hdigit := toString_isdigit n _ (List.mem_of_mem_head? hhead)
      exact absurd hdigit (by decide)
  · have hdigit := toString_isdigit n c hc
    constructor <;>
    · rintro rfl
      exact absurd hdigit (by decide)

/-- The framing behind a line. -/
def frame (n : Nat) (f : HttpParser) (h : HeaderLine) : HttpParser :=
  if h.isLength then { f with contentLength := n } else f

end HeaderLine

theorem framing?_of_matches {l : Str} {i : Nat} {hs : HeaderState} (h : Matches l i hs)
    (hl : l ∉ [str "content-length", str "transfer-encoding", str "upgrade"]) : framing? hs = false := by
  cases hs <;> first | rfl | exact absurd (by rw [show l = _ from h]; decide) hl

/-- Between the name and the value. -/
theorem takes_colon {R : Reader τ} {f p : HttpParser} (hp : Placed .headerField f p) (padded : Bool)
    (u : τ) (hroom : p.nread + 1 + (if padded then str " " else []).length ≤ HTTP_MAX_HEADER_SIZE) :
    ∃ q, R.Takes (':'.toUInt8 :: if padded then str " " else []) p u q (R.deliver .headerField [] u) ∧
      q.nread = p.nread + 1 + (if padded then str " " else []).length ∧
      Placed .headerValueDiscardWs f q ∧ q.headerState = p.headerState := by
  obtain ⟨hs, hok, hframe⟩ := hp
  have hcolon : switch { p with nread := p.nread + 1 } ':'.toUInt8 =
      .go none { p with nread := p.nread + 1, state := .headerValueDiscardWs }
        (.data .headerField false true) .next := by
    have htoken : token ':'.toUInt8 = 0 := by decide
    simp only [switch, switchHeaderField, hs, htoken, ne_eq, not_true_eq_false, if_false, if_true]
  have hbyte := (Reader.stepByte_head (R := R) (u := u) (by rw [hs]; rfl) (by omega)).trans
    (Reader.byte_endElement (k := 3) hcolon hok)
  have htakes := Reader.Takes.one hbyte
  cases padded with
  | false => exact ⟨_, htakes, rfl, ⟨rfl, hok, hframe⟩, rfl⟩
  | true =>
    have hlength : (str " ").length = 1 := rfl
    simp only [if_true, hlength] at hroom
    have hspace : switch { p with nread := p.nread + 1 + 1, state := .headerValueDiscardWs } ' '.toUInt8 =
        .next { p with nread := p.nread + 1 + 1, state := .headerValueDiscardWs } := by
      simp only [switch, switchHeaderValueStart, true_or, if_true]
    have hbyte' := (Reader.stepByte_head (R := R) (p := { p with
      nread := p.nread + 1, state := .headerValueDiscardWs }) (u := R.deliver .headerField [] u) rfl
      hroom).trans (Reader.byte_element (k := 3) hspace)
    exact ⟨_, htakes.append (Reader.Takes.one hbyte'), rfl, ⟨rfl, hok, hframe⟩, rfl⟩

/-- Behind the value. -/
theorem takes_lineEnd {R : Reader τ} {f p : HttpParser} (hp : Placed .headerValue f p)
    (hheader : p.headerState ≠ .transferEncodingChunked) (u : τ)
    (hroom : p.nread + 2 ≤ HTTP_MAX_HEADER_SIZE) :
    ∃ q, R.Takes [CR, LF] p u q (R.deliver .headerValue [] u) ∧ q.nread = p.nread + 2 ∧
      AtLine f q := by
  obtain ⟨hs, hok, hframe⟩ := hp
  have hcr : switch { p with nread := p.nread + 1 } CR =
      .go none { p with nread := p.nread + 1, state := .headerAlmostDone }
        (.data .headerValue false true) .next := by
    simp only [switch, switchHeaderValue, hs, if_true]
  have hlf : switch { p with nread := p.nread + 1 + 1, state := .headerAlmostDone } LF =
      .next { p with nread := p.nread + 1 + 1, state := .headerValueLws } := by
    simp only [switch, switchHeaderValue, Step.expect, ne_eq, not_true_eq_false, if_false]
  have hbyte := (Reader.stepByte_head (R := R) (u := u) (by rw [hs]; rfl) (by omega)).trans
    (Reader.byte_endElement (k := 3) hcr hok)
  have hbyte' := (Reader.stepByte_head (R := R) (p := { p with
    nread := p.nread + 1, state := .headerAlmostDone }) (u := R.deliver .headerValue [] u) rfl
    hroom).trans (Reader.byte_element (k := 3) hlf)
  exact ⟨_, (Reader.Takes.one hbyte).append (Reader.Takes.one hbyte'), rfl, .inr ⟨rfl, hheader⟩, hok,
    hframe⟩

/-- **One header line.** -/
theorem takes_line {R : Reader τ} (ha : R.Additive) {n : Nat} (hn : n < 2 ^ 63) {h : HeaderLine}
    (hh : h.Sound n) {f p : HttpParser} (hp : AtLine f p) (u : τ)
    (hroom : p.nread + h.text.length ≤ HTTP_MAX_HEADER_SIZE) :
    ∃ q, R.Takes h.text p u q (h.deliver R u) ∧ q.nread = p.nread + h.text.length ∧
      AtLine (h.frame n f) q := by
  have htext : h.text = h.name ++ ((':'.toUInt8 :: h.pad) ++ (h.value ++ [CR, LF])) := by
    simp [HeaderLine.text]
  have hlength : h.text.length = h.name.length + (1 + h.pad.length + (h.value.length + 2)) := by
    rw [htext]
    simp only [List.length_append, List.length_cons, List.length_nil]
    omega
  obtain ⟨q₁, hname, hcount₁, hp₁, hheader₁⟩ := takes_name ha hh.name hp u (by omega)
  obtain ⟨q₂, hcolon, hcount₂, hp₂, hheader₂⟩ :=
    takes_colon hp₁ h.padded (R.deliver .headerField h.name u) (by
      change q₁.nread + 1 + h.pad.length ≤ _
      omega)
  change q₂.nread = q₁.nread + 1 + h.pad.length at hcount₂
  rw [← ha.append, List.append_nil] at hcolon
  -- the value of a length is read by its digits, any other as it comes
  obtain ⟨q₃, hvalue, hcount₃, hp₃, hcalm⟩ : ∃ q, R.Takes h.value q₂ (R.deliver .headerField h.name u) q
      (h.deliver R u) ∧ q.nread = q₂.nread + h.value.length ∧
      Placed .headerValue (h.frame n f) q ∧ q.headerState ≠ .transferEncodingChunked := by
    have hframing := hh.framing
    unfold HeaderLine.frame HeaderLine.deliver
    split_ifs at hframing ⊢ with hlen
    · have hstate : q₂.headerState = .contentLength := by
        rw [hheader₂, hheader₁, eq_of_beq hlen]
        decide
      rw [hframing]
      obtain ⟨q, htakes, hcount, hq, hs⟩ := takes_length ha hn hp₂ hstate
        (R.deliver .headerField h.name u) (by rw [← hframing]; omega)
      exact ⟨q, htakes, hcount, hq, by rw [hs]; decide⟩
    · have hstate : framing? q₂.headerState = false := by
        rw [hheader₂, hheader₁]
        exact framing?_of_matches (track_matches hh.name) hframing
      obtain ⟨q, htakes, hcount, hq, hs⟩ := takes_value ha hh.value hp₂ hstate
        (R.deliver .headerField h.name u) (by omega)
      refine ⟨q, htakes, hcount, hq, ?_⟩
      intro hchunked
      rw [hchunked] at hs
      exact absurd hs (by decide)
  obtain ⟨q₄, hend, hcount₄, hp₄⟩ := takes_lineEnd hp₃ hcalm (h.deliver R u) (by omega)
  have hdelivered : R.deliver .headerValue [] (h.deliver R u) = h.deliver R u := by
    rw [HeaderLine.deliver, ← ha.append, List.append_nil]
  rw [hdelivered] at hend
  refine ⟨q₄, ?_, by omega, hp₄⟩
  rw [htext]
  exact hname.append (hcolon.append (hvalue.append hend))

/-- **The lines of a head**: a reader is given their names and values, and the parser takes the length
of the body from them. -/
theorem takes_lines {R : Reader τ} (ha : R.Additive) {n : Nat} (hn : n < 2 ^ 63) {hs : List HeaderLine}
    (hsound : ∀ h ∈ hs, h.Sound n) {f p : HttpParser} (hp : AtLine f p) (u : τ)
    (hroom : p.nread + (hs.flatMap HeaderLine.text).length ≤ HTTP_MAX_HEADER_SIZE) :
    ∃ q, R.Takes (hs.flatMap HeaderLine.text) p u q (hs.foldl (HeaderLine.deliver R) u) ∧
      q.nread = p.nread + (hs.flatMap HeaderLine.text).length ∧
      AtLine (hs.foldl (HeaderLine.frame n) f) q := by
  induction hs generalizing f p u with
  | nil => exact ⟨p, .nil p u, rfl, hp⟩
  | cons h hs ih =>
    rw [List.flatMap_cons, List.length_append] at hroom ⊢
    obtain ⟨q, htakes, hcount, hq⟩ := takes_line ha hn (hsound h List.mem_cons_self) hp u (by omega)
    obtain ⟨q', htakes', hcount', hq'⟩ := ih (fun h' hh' => hsound h' (List.mem_cons_of_mem h hh')) hq
      (h.deliver R u) (by omega)
    exact ⟨q', htakes.append htakes', by omega, hq'⟩

/-- The framing behind all lines. -/
theorem foldl_frame (n : Nat) (hs : List HeaderLine) (f : HttpParser) :
    hs.foldl (HeaderLine.frame n) f =
      if ∃ h ∈ hs, h.isLength = true then { f with contentLength := n } else f := by
  induction hs generalizing f with
  | nil => simp
  | cons h hs ih =>
    rw [List.foldl_cons, ih]
    by_cases hh : h.isLength = true
    · simp [HeaderLine.frame, hh]
    · simp [HeaderLine.frame, hh]

/-- Lines change nothing of the framing but the length. -/
theorem framed_kept {n : Nat} {hs : List HeaderLine} {f q : HttpParser}
    (hq : frame q = hs.foldl (HeaderLine.frame n) f) {α : Type} (g : HttpParser → α)
    (hframe : ∀ p, g (frame p) = g p) (hlength : ∀ p k, g { p with contentLength := k } = g p) :
    g q = g f := by
  rw [← hframe q, hq, foldl_frame]
  split_ifs
  · exact hlength f n
  · rfl

theorem framed_length {n : Nat} {hs : List HeaderLine} {f q : HttpParser}
    (hq : frame q = hs.foldl (HeaderLine.frame n) f) :
    q.contentLength = if ∃ h ∈ hs, h.isLength = true then n else f.contentLength := by
  have hlength : q.contentLength = (frame q).contentLength := rfl
  rw [hlength, hq, foldl_frame]
  split_ifs <;> rfl

end Wsrv.Http
