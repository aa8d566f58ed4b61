import Wsrv.XmlBalance

/-!
# The stacks of the XML parser

`depth_` is counted by `nextToken`, the two stacks grow in `parseStartElement`
and `parseNameSpaceAttributes`, and all three shrink at an end tag or behind an
empty element.  A start tag without its `>` has been put on the stacks when
`parseStartElement` gives up, and nobody counts it: from then on `depth_` is
one too small.  The stacks themselves stay of one size, and none is empty when
an element is taken from it.  Nor does any call overrun `read_ahead_`
(`putback_bounded`).
-/

namespace Wsrv

open Effect

/-! ## There is always room for what is put back -/

namespace ReadAheadStreamAdapter

def HasRoom (s : ReadAheadStreamAdapter) : Prop := s.readAhead.length ≤ 8

variable {α : Type}

theorem stays_read : Stays HasRoom read := Stays.of_run fun s hs => by
  have hfetch : HasRoom (fetch s).2 := by
    rcases s with ⟨input, eof, fail, line, column, readAhead⟩
    rcases readAhead with _ | ⟨c, readAhead⟩
    · rcases input with _ | ⟨c, input⟩
      · exact hs
      · unfold fetch
        simp only
        split
        · split <;> exact hs
        · exact hs
    · exact Nat.le_of_succ_le hs
  change HasRoom (if (fetch s).1 = _ then _ else _)
  split <;> exact hfetch

theorem stays_next : Stays HasRoom next :=
  Stays.get.bind fun _ => .ite (.pure _) (stays_read.bind fun _ => .pure _)

theorem stays_putback (c : UInt8) : Stays HasRoom (putback c) := Stays.of_run fun s hs => by
  unfold putback
  rw [bind_ok (get_run s)]
  by_cases hfull : 8 ≤ s.readAhead.length
  · rw [bind_error (by rw [throwIf_run, if_pos hfull])]
    exact hs
  · rw [bind_ok (by rw [throwIf_run, if_neg hfull])]
    have hroom : s.readAhead.length + 1 ≤ 8 := by omega
    change HasRoom (if c = LF then _ else _)
    split <;> exact hroom

theorem stays_expect (seq : Str) : Stays HasRoom (expect seq) :=
  expect_keeps stays_read stays_putback (fun _ h => h) seq

theorem stays_sized {loop : Nat → Cursor α} (h : ∀ n, Stays HasRoom (loop n)) :
    Stays HasRoom (sized loop) := Stays.get.bind fun _ => h _

theorem stays_skipWhite : Stays HasRoom skipWhite :=
  skipWhite_keeps stays_read stays_putback fun _ h => h

theorem stays_peek : Stays HasRoom peek := Stays.of_run fun s hs => by
  rcases s with ⟨input, eof, fail, line, column, readAhead⟩
  rcases readAhead with _ | ⟨c, readAhead⟩
  · rcases input with _ | ⟨c, input⟩ <;> exact hs
  · exact hs

theorem stays_whileNext {body : UInt8 → α → Cursor (Bool × α)} (h : ∀ c a, Stays HasRoom (body c a))
    (n : Nat) (a : α) : Stays HasRoom (whileNext body n a) := by
  induction n generalizing a with
  | zero => exact .throw _
  | succ n ih =>
    refine stays_next.bind fun c => ?_
    cases c with
    | none => exact .pure _
    | some c => exact (h c a).bind fun r => .ite (ih _) (.pure _)

end ReadAheadStreamAdapter

namespace XmlPullParser

open ReadAheadStreamAdapter

theorem stays_parseName : Stays HasRoom parseName :=
  stays_sized fun n => stays_whileNext
    (fun _ _ => .ite (.pure _) ((stays_putback _).bind fun _ => .pure _)) n _

theorem stays_escapeString : Stays HasRoom escapeString := by
  have hloop : ∀ n quot, Stays HasRoom (escapeLoop n quot) := by
    intro n
    induction n with
    | zero => exact fun _ => stays_next.bind fun _ => .pure _
    | succ n ih =>
      refine fun quot => stays_next.bind fun c => ?_
      cases c with
      | none => exact .pure _
      | some c => exact .ite (.pure _) (ih _)
  exact (hloop 5 []).bind fun _ => .pure _

theorem stays_parseAttributeValue : Stays HasRoom parseAttributeValue := by
  refine stays_next.bind fun oc => ?_
  cases oc with
  | none => exact .pure _
  | some oc =>
    refine .ite (.pure _) <| (stays_sized fun n => stays_whileNext (fun c v => ?_) n _).bind fun _ =>
      .pure _
    refine .ite (stays_escapeString.bind fun t => ?_) <| .ite (.pure _) <| .ite (.pure _) (.pure _)
    cases t <;> exact .pure _

theorem stays_attributeLoop (n : Nat) (attrs : Dictionary) : Stays HasRoom (attributeLoop n attrs) := by
  induction n generalizing attrs with
  | zero => exact .throw _
  | succ n ih =>
    exact stays_parseName.bind fun _ => .ite (.pure _) <| stays_skipWhite.bind fun _ =>
      (stays_expect _).bind fun _ => .ite (.pure _) <| stays_skipWhite.bind fun _ =>
        stays_parseAttributeValue.bind fun _ => .ite (.pure _) <| stays_skipWhite.bind fun _ =>
          stays_peek.bind fun _ => .ite (.pure _) <| Stays.get.bind fun _ => .ite (.pure _) (ih _)

theorem stays_textStep (c : UInt8) (t : TextScan) : Stays HasRoom (textStep c t) := by
  refine .ite (.pure _) <| .ite ((stays_putback _).bind fun _ => .pure _) <|
    .ite (stays_escapeString.bind fun r => ?_) (.pure _)
  cases r <;> exact .pure _

theorem stays_docTypeStep (c : UInt8) (u : Unit) : Stays HasRoom (docTypeStep c u) :=
  .ite (.pure _) <| .ite
    ((stays_sized fun n => stays_whileNext (fun _ _ => .pure _) n 1).bind fun _ => .pure _) (.pure _)

theorem stays_cdataStep (c : UInt8) (t : Str × Bool) : Stays HasRoom (cdataStep c t) :=
  .ite (.pure _) <| (stays_expect _).bind fun _ => .ite (.pure _) (.pure _)

theorem stays_untilStep (ending : Str) (c : UInt8) (t : Str) : Stays HasRoom (untilStep ending c t) :=
  (stays_expect _).bind fun _ => .ite (.pure _) (.pure _)

/-! ## The parsers that leave the stacks alone -/

/-- The depth is `d`, and `n` elements on the stack have not been counted; `b` says whether
the one on the top is empty. -/
structure Stacked (b : Bool) (d : Int) (n : Nat) (s : XmlPullParser) : Prop where
  depth : s.depth = d
  height : (s.elementStack.length : Int) = d + n
  nsHeight : s.processNs = true → s.nsStack.length = s.elementStack.length
  empty : s.isEmptyElementTag = b
  top : b = true → s.elementStack ≠ []
  room : s.cursor.HasRoom

variable {α : Type} {b : Bool} {d : Int} {n : Nat}

theorem stays_onCursor {x : Cursor α} (h : Stays HasRoom x) : Stays (Stacked b d n) (onCursor x) :=
  Stays.of_run fun _ hs => { hs with room := h.run hs.room }

theorem stays_fatal (msg : String) : Stays (Stacked b d n) (fatal msg : Parser α) :=
  Stays.get.bind fun _ => .throw _

/-- An assignment to the other fields. -/
theorem stays_then {f : XmlPullParser → XmlPullParser} {g : PUnit → Parser α}
    (h : ∀ s, Stacked b d n s → Stacked b d n (f s)) (hg : Stays (Stacked b d n) (g ⟨⟩)) :
    Stays (Stacked b d n) (modify f >>= g) :=
  (Stays.modify h).bind fun _ => hg

theorem stays_skip : Stays (Stacked b d n) (onCursor skipWhite) := stays_onCursor stays_skipWhite

theorem stays_literal (seq : Str) : Stays (Stacked b d n) (onCursor (expect seq)) :=
  stays_onCursor (stays_expect seq)

theorem stays_parseAttributeList : Stays (Stacked b d n) parseAttributeList :=
  stays_then (fun _ h => { h with }) <|
    stays_onCursor (stays_sized fun n => stays_attributeLoop n ∅)

theorem stays_parseProlog : Stays (Stacked b d n) parseProlog := by
  have hdecl : Stays (Stacked b d n) parseXmlDecl :=
    (stays_literal _).bind fun _ => .ite
      (stays_skip.bind fun _ => stays_parseAttributeList.bind fun _ => .ite (stays_fatal _) <|
        stays_skip.bind fun _ => (stays_literal _).bind fun _ => .ite (stays_fatal _) (.pure _))
      (.pure _)
  exact Stays.get.bind fun _ => .ite
    ((stays_literal _).bind fun _ => stays_skip.bind fun _ => hdecl.bind fun _ => stays_skip) (.pure _)

theorem stays_parseEndElement : Stays (Stacked b d n) parseEndElement :=
  (stays_onCursor stays_peek).bind fun _ => .ite (.pure _) <| .ite
    ((stays_onCursor stays_read).bind fun _ => stays_skip.bind fun _ =>
      (stays_onCursor stays_parseName).bind fun _ => stays_then (fun _ h => { h with }) <|
        .ite (stays_fatal _) <| stays_skip.bind fun _ => (stays_literal _).bind fun _ =>
          .ite (.pure _) (stays_fatal _))
    (.pure _)

theorem stays_parseCharacters : Stays (Stacked b d n) parseCharacters :=
  (stays_onCursor (stays_sized fun n => stays_whileNext stays_textStep n _)).bind fun _ =>
    stays_then (fun _ h => { h with }) <| .ite (stays_fatal _) (.pure _)

theorem stays_parseDocType : Stays (Stacked b d n) parseDocType :=
  (stays_literal _).bind fun _ => .ite
    ((stays_onCursor (stays_sized fun n => stays_whileNext stays_docTypeStep n ())).bind fun _ =>
      .pure _) (.pure _)

theorem stays_parseCData : Stays (Stacked b d n) parseCData :=
  (stays_literal _).bind fun _ => .ite
    ((stays_onCursor (stays_sized fun n => stays_whileNext stays_cdataStep n _)).bind fun _ =>
      stays_then (fun _ h => { h with }) (.pure _)) (.pure _)

theorem stays_parseComment : Stays (Stacked b d n) parseComment :=
  (stays_literal _).bind fun _ => .ite
    ((stays_onCursor (stays_sized fun n => stays_whileNext (stays_untilStep _) n _)).bind fun _ =>
      stays_then (fun _ h => { h with }) <| Stays.get.bind fun _ => .ite (stays_fatal _) (.pure _))
    (.pure _)

theorem stays_parsePI : Stays (Stacked b d n) parsePI :=
  (stays_literal _).bind fun _ => .ite
    ((stays_onCursor (stays_sized fun n => stays_whileNext (stays_untilStep _) n _)).bind fun _ =>
      stays_then (fun _ h => { h with }) (.pure _)) (.pure _)

theorem stays_setToken (t : TokenType) : Stays (Stacked b d n) (setToken t) :=
  stays_then (fun _ h => { h with }) (.pure _)

/-! ## A start tag -/

/-- A name and attributes, with neither `/>` nor `>` behind them. -/
def unclosedTag : Cursor Bool := do
  let c ← peek
  if c < 0 ∨ c = '/'.toNat then return false
  else
    skipWhite
    let name ← parseName
    if name = [] then return false
    else
      skipWhite
      let (ok, _) ← sized fun n => attributeLoop n ∅
      if ok = none then return false
      else
        skipWhite
        if ← expect (str "/>") then return false
        else if ← expect (str ">") then return false
        else return true

/-- What a parser of a start tag does where `y` looks for one that is not closed. -/
def Tracks (b : Bool) (d : Int) (n : Nat) (x : Parser Bool) (y : Cursor Bool) (s : XmlPullParser) :
    Prop :=
  match x s with
  | (.ok true, s') => (y s.cursor).1 = .ok false ∧ ∃ b', Stacked b' d (n + 1) s'
  | (.ok false, s') => ∃ m, Stacked b d m s' ∧
      ((y s.cursor).1 = .ok true ∧ m = n + 1 ∨ (y s.cursor).1 = .ok false ∧ m = n)
  | (.error e, s') => e ≠ .undefined → (y s.cursor).1 ≠ .ok true ∧ Stacked b d n s'

namespace Tracks

variable {s : XmlPullParser} {x : Parser Bool} {y : Cursor Bool}

/-- An operation that both begin with. -/
theorem onCursor {u : Cursor α} {f : α → Parser Bool} {g : α → Cursor Bool} (hu : Stays HasRoom u)
    (h : ∀ a s, Stacked b d n s → Tracks b d n (f a) (g a) s) (hs : Stacked b d n s) :
    Tracks b d n (XmlPullParser.onCursor u >>= f) (u >>= g) s := by
  have hstay := (stays_onCursor hu).run hs
  rcases hrun : u s.cursor with ⟨e | a, cursor⟩
  · have hx : (XmlPullParser.onCursor u >>= f) s = (.error e, { s with cursor := cursor }) :=
      bind_error (by rw [XmlPullParser.onCursor, hrun])
    have hy : (u >>= g) s.cursor = (.error e, cursor) := bind_error hrun
    rw [XmlPullParser.onCursor, hrun] at hstay
    rw [Tracks, hx, hy]
    refine fun _ => ⟨fun h => ?_, hstay⟩
    cases h
  · have hx : (XmlPullParser.onCursor u >>= f) s = f a { s with cursor := cursor } :=
      bind_ok (by rw [XmlPullParser.onCursor, hrun])
    have hy : (u >>= g) s.cursor = g a cursor := bind_ok hrun
    rw [XmlPullParser.onCursor, hrun] at hstay
    rw [Tracks, hx, hy]
    exact h a _ hstay

/-- What only the parser does. -/
theorem step {z : Parser Bool} {t : XmlPullParser} (hrun : x s = z t)
    (hcursor : t.cursor = s.cursor) (h : Tracks b d n z y t) : Tracks b d n x y s := by
  rw [Tracks, hrun, ← hcursor]
  exact h

theorem modify {f : XmlPullParser → XmlPullParser} {g : PUnit → Parser Bool}
    (hf : (f s).cursor = s.cursor) (h : Tracks b d n (g ⟨⟩) y (f s)) :
    Tracks b d n (modify f >>= g) y s :=
  step (bind_ok (modify_run f s)) hf h

theorem ite {p : Prop} [Decidable p] {x' : Parser Bool} {y' : Cursor Bool}
    (h : p → Tracks b d n x y s) (h' : ¬ p → Tracks b d n x' y' s) :
    Tracks b d n (if p then x else x') (if p then y else y') s := by
  by_cases hp : p
  · rw [if_pos hp, if_pos hp]
    exact h hp
  · rw [if_neg hp, if_neg hp]
    exact h' hp

theorem none (hs : Stacked b d n s) : Tracks b d n (return false) (return false) s :=
  ⟨n, hs, .inr ⟨rfl, rfl⟩⟩

theorem fatal (msg : String) (hs : Stacked b d n s) :
    Tracks b d n (fatal msg) (return false) s := fun _ => ⟨nofun, hs⟩

end Tracks

/-- The operations of the cursor throw nothing but the end of an array. -/
theorem expect_error (seq : Str) {s s' : ReadAheadStreamAdapter} {e : XmlStop}
    (h : expect seq s = (.error e, s')) : e = .undefined := by
  have hputback (c : UInt8) : Triple (fun _ => True) (putback c) (fun _ _ => True)
      fun e _ => e = .undefined :=
    (Triple.get (Q := fun _ _ => True) fun _ h => h).bind fun _ =>
      (Triple.throwIf fun _ _ _ => rfl).bind fun _ s _ =>
        ⟨fun _ _ _ => trivial, fun _ _ heq => nomatch (Prod.mk.inj heq).1⟩
  have hall (buf : Str) : Triple (fun _ => True) (putbackAll buf) (fun _ _ => True)
      fun e _ => e = .undefined := by
    induction buf with
    | nil => exact .pure fun _ _ => trivial
    | cons c buf ih => exact (hputback c).bind fun _ => ih
  have hread : Triple (fun _ => True) read (fun _ _ => True) fun e _ => e = XmlStop.undefined :=
    fun _ _ => ⟨fun _ _ _ => trivial, fun _ _ heq => nomatch (Prod.mk.inj heq).1⟩
  have hloop : ∀ seq buf, Triple (fun _ => True) (expectLoop seq buf) (fun _ _ => True)
      fun e _ => e = .undefined := by
    intro seq
    induction seq with
    | nil => exact fun _ => .pure fun _ _ => trivial
    | cons p seq ih =>
      exact fun buf => hread.bind fun _ => .ite (fun _ => .pure fun _ _ => trivial) fun _ =>
        .ite (fun _ => .throw fun _ _ => rfl) fun _ => .ite (fun _ => (hall _).bind fun _ => .pure fun _ _ => trivial) fun _ => ih _
  exact (hloop seq [] s trivial).2 e s' h

/-- The namespaces of a tag are on their stack, its element is not. -/
structure Opening (b : Bool) (d : Int) (n : Nat) (s : XmlPullParser) (nsStack : List Dictionary) :
    Prop where
  stacked : Stacked b d n s
  nsHeight : s.processNs = true → nsStack.length = s.elementStack.length + 1

theorem Opening.push {s : XmlPullParser} {nsStack : List Dictionary} (h : Opening b d n s nsStack)
    (e : Element) :
    Stacked b d (n + 1) { s with nsStack := nsStack, elementStack := e :: s.elementStack } := by
  refine ⟨h.stacked.depth, ?_, h.nsHeight, h.stacked.empty, fun _ => List.cons_ne_nil _ _, h.stacked.room⟩
  have hheight := h.stacked.height
  push_cast [List.length_cons]
  omega

/-- The end of a tag, whose element is on the stack. -/
theorem tagEnd_tracks {s : XmlPullParser} (hs : Stacked b d (n + 1) s) (hne : s.elementStack ≠ []) :
    Tracks b d n (do
      if ← onCursor (expect (str "/>")) then
        modify fun s => { s with isEmptyElementTag := true }
        return true
      else if ← onCursor (expect (str ">")) then
        modify fun s => { s with isEmptyElementTag := false }
        return true
      else return false) (do
      if ← expect (str "/>") then return false
      else if ← expect (str ">") then return false
      else return true) s := by
  rw [Tracks]
  have hstay := (stays_literal (str "/>")).run hs
  rcases hslash : expect (str "/>") s.cursor with ⟨e | ok, c₁⟩
  · rw [bind_error (by rw [onCursor, hslash])]
    exact fun he => absurd (expect_error _ hslash) he
  rw [onCursor, hslash] at hstay
  rw [bind_ok (by rw [onCursor, hslash]), bind_ok hslash]
  cases ok with
  | true => exact ⟨rfl, true, { hstay with empty := rfl, top := fun _ => hne }⟩
  | false =>
    rw [if_neg Bool.false_ne_true, if_neg Bool.false_ne_true]
    have hstay' := (stays_literal (str ">")).run hstay
    rcases hend : expect (str ">") c₁ with ⟨e | ok, c₂⟩
    · rw [bind_error (by rw [onCursor, hend])]
      exact fun he => absurd (expect_error _ hend) he
    rw [onCursor, hend] at hstay'
    rw [bind_ok (by rw [onCursor, hend]), bind_ok hend]
    cases ok with
    | true => exact ⟨rfl, false, { hstay' with empty := rfl, top := fun h => absurd h Bool.false_ne_true }⟩
    | false => exact ⟨n + 1, hstay', .inl ⟨rfl, rfl⟩⟩

theorem parseStartElement_tracks {s : XmlPullParser} (hs : Stacked b d n s) :
    Tracks b d n parseStartElement unclosedTag s := by
  refine .onCursor stays_peek (fun c s hs => .ite (fun _ => .none hs) fun _ => ?_) hs
  refine .onCursor stays_skipWhite (fun _ s hs => .onCursor stays_parseName (fun name s hs => ?_) hs) hs
  refine .modify rfl <| .ite (fun _ => .fatal _ { hs with }) fun _ => ?_
  refine .onCursor stays_skipWhite (fun _ s hs => ?_) { hs with }
  refine .step (t := { s with attributes := ∅ }) (z := onCursor _ >>= _) rfl rfl <|
    .onCursor (stays_sized fun n => stays_attributeLoop n ∅) (fun r s hs => ?_) { hs with }
  refine .modify rfl <| .ite (fun _ => .fatal _ { hs with }) fun _ => ?_
  refine .onCursor stays_skipWhite (fun _ s hs => ?_) { hs with }
  refine .step (bind_ok (get_run s)) rfl ?_
  by_cases hns : s.processNs = true
  · rw [if_pos hns]
    refine .modify rfl <| .modify rfl <| .modify rfl <| .modify rfl <| ?_
    have hopening : Opening b d n s (nsAttributes s.attributes.toList :: s.nsStack) :=
      ⟨hs, fun _ => congrArg (· + 1) (hs.nsHeight hns)⟩
    exact tagEnd_tracks { hopening.push ⟨_, _, _⟩ with } (List.cons_ne_nil _ _)
  · rw [if_neg hns]
    refine .modify rfl <| .modify rfl <| ?_
    have hopening : Opening b d n s s.nsStack := ⟨hs, fun h => absurd h hns⟩
    exact tagEnd_tracks { hopening.push ⟨_, _, _⟩ with } (List.cons_ne_nil _ _)

/-! ## A call -/

/-- `n` elements on the stack have not been counted; an empty one on the top is closed next. -/
def Uncounted (n : Nat) (s : XmlPullParser) : Prop :=
  ∃ b d, Stacked b d n s ∧ (b = true → s.token = .START_TAG)

theorem Stacked.uncounted {s : XmlPullParser} (hs : Stacked false d n s) : Uncounted n s :=
  ⟨false, d, hs, nofun⟩

/-- The element on the top is closed. -/
theorem Stacked.close {s : XmlPullParser} (hs : Stacked false d n s) (hne : s.elementStack ≠ []) :
    Stacked false (d - 1) n (closeElement s) := by
  obtain ⟨e, es, hstack⟩ := List.exists_cons_of_ne_nil hne
  have hheight := hs.height
  rw [hstack, List.length_cons] at hheight
  refine ⟨congrArg (· - 1) hs.depth, ?_, fun hns => ?_, hs.empty, nofun, hs.room⟩
  · change (s.elementStack.tail.length : Int) = _
    rw [hstack, List.tail_cons]
    push_cast at hheight
    omega
  · have hlength := hs.nsHeight hns
    have hns' : s.processNs = true := hns
    change (if s.processNs then s.nsStack.tail else s.nsStack).length = s.elementStack.tail.length
    rw [if_pos hns', List.length_tail, List.length_tail, hlength]

theorem setNames_stacked {s : XmlPullParser} (hs : Stacked b d n s) :
    Stacked b d n (if s.processNs then setNames s else { s with localName := s.name }) := by
  unfold setNames
  split <;> exact { hs with }

theorem matchEndTag_stacked {s : XmlPullParser} (hs : Stacked false d n s) :
    Uncounted n (matchEndTag s).2 := by
  unfold matchEndTag
  have hnames := setNames_stacked hs
  rw [bind_ok (modify_run _ _), bind_ok (get_run _)]
  generalize (if s.processNs then setNames s else { s with localName := s.name }) = s₁ at hnames ⊢
  cases hstack : s₁.elementStack with
  | nil => exact hnames.uncounted
  | cons e es =>
    simp only
    split
    · have hclosed : Stacked false d n { s₁ with ns := e.ns, pfx := e.pfx } := { hnames with }
      refine (hclosed.close ?_).uncounted
      rw [hstack]
      exact List.cons_ne_nil e es
    · exact hnames.uncounted

theorem uncounted_bind {β : Type} {x : Parser α} {f : α → Parser β} {s : XmlPullParser}
    (hx : Stays (Stacked false d n) x)
    (hf : ∀ a s, Stacked false d n s → Uncounted n (f a s).2) (hs : Stacked false d n s) :
    Uncounted n ((x >>= f) s).2 := by
  have hstay := hx.run hs
  rcases hrun : x s with ⟨e | a, s₁⟩
  · rw [hrun] at hstay
    rw [bind_error hrun]
    exact hstay.uncounted
  · rw [hrun] at hstay
    rw [bind_ok hrun]
    exact hf a s₁ hstay

/-- Only a start tag that is not closed leaves an element that is not counted. -/
theorem parseMarkup_stacked {s s' : XmlPullParser} {r : Except XmlStop TokenType}
    (hs : Stacked false d n s) (hrun : parseMarkup s = (r, s')) (hr : r ≠ .error .undefined) :
    ∃ m, Uncounted m s' ∧ ((unclosedTag s.cursor).1 = .ok true ∧ m = n + 1 ∨
      (unclosedTag s.cursor).1 ≠ .ok true ∧ m = n) := by
  have htracks := parseStartElement_tracks hs
  unfold parseMarkup at hrun
  unfold Tracks at htracks
  rcases hstart : parseStartElement s with ⟨e | ok, s₁⟩
  · rw [bind_error hstart] at hrun
    obtain ⟨rfl, rfl⟩ := Prod.mk.inj hrun
    rw [hstart] at htracks
    obtain ⟨hclosed, hstacked⟩ := htracks fun he => hr (congrArg _ he)
    exact ⟨n, hstacked.uncounted, .inr ⟨hclosed, rfl⟩⟩
  · rw [hstart] at htracks
    rw [bind_ok hstart] at hrun
    cases ok with
    | true =>
      obtain ⟨hclosed, b', hstacked⟩ := htracks
      obtain ⟨rfl, rfl⟩ := Prod.mk.inj hrun
      refine ⟨n, ⟨b', d + 1, ?_, fun _ => rfl⟩, .inr ⟨by rw [hclosed]; nofun, rfl⟩⟩
      have hheight := hstacked.height
      refine { hstacked with depth := congrArg (· + 1) hstacked.depth, height := ?_ }
      push_cast at hheight
      rw [hheight, Int.add_assoc, Int.add_comm 1]
    | false =>
      obtain ⟨m, hstacked, hm⟩ := htracks
      rw [if_neg Bool.false_ne_true] at hrun
      obtain rfl := (Prod.mk.inj hrun).2
      refine ⟨m, ?_, hm.imp_right fun h => ⟨by rw [h.1]; nofun, h.2⟩⟩
      have hset {t : TokenType} {s : XmlPullParser} (hs : Stacked false d m s) :
          Uncounted m (setToken t s).2 := ((stays_setToken t).run hs).uncounted
      refine uncounted_bind (x := parseEndElement) stays_parseEndElement (fun ok s hs => ?_) hstacked
      split
      · exact matchEndTag_stacked hs
      refine uncounted_bind stays_parseDocType (fun ok s hs => ?_) hs
      split
      · exact hset hs
      refine uncounted_bind stays_parseCData (fun ok s hs => ?_) hs
      split
      · exact hset hs
      refine uncounted_bind stays_parseComment (fun ok s hs => ?_) hs
      split
      · exact hset hs
      refine uncounted_bind stays_parsePI (fun ok s hs => ?_) hs
      split
      · exact hset hs
      · exact hs.uncounted

/-- A start tag that is not closed stands where a call begins. -/
def unclosed : Parser Bool := do
  parseProlog
  let s ← get
  if s.token = .START_TAG ∧ s.isEmptyElementTag = true then return false
  else
    match ← onCursor ReadAheadStreamAdapter.next with
    | none => return false
    | some c => if c = '<'.toUInt8 then onCursor unclosedTag else return false

def Unclosed (s : XmlPullParser) : Prop := (unclosed s).1 = .ok true

theorem Uncounted.closed {s : XmlPullParser} (hs : Uncounted n s)
    (h : s.token = .START_TAG ∧ s.isEmptyElementTag = true) :
    s.elementStack ≠ [] ∧ Uncounted n (closeElement { s with isEmptyElementTag := false }) := by
  obtain ⟨b, d, hstacked, -⟩ := hs
  have hne := hstacked.top (hstacked.empty.symm.trans h.2)
  have hflag : Stacked false d n { s with isEmptyElementTag := false } :=
    { hstacked with empty := rfl, top := nofun }
  exact ⟨hne, (hflag.close hne).uncounted⟩

theorem Uncounted.started {s : XmlPullParser} (hs : Uncounted n s)
    (h : ¬ (s.token = .START_TAG ∧ s.isEmptyElementTag = true)) : ∃ d, Stacked false d n s := by
  obtain ⟨b, d, hstacked, hb⟩ := hs
  cases b with
  | true => exact absurd ⟨hb rfl, hstacked.empty⟩ h
  | false => exact ⟨d, hstacked⟩

theorem stays_prolog : Stays (Uncounted n) parseProlog := .of_run fun s hs => by
  by_cases htoken : s.token = .START_DOCUMENT
  · obtain ⟨b, d, hstacked, hb⟩ := hs
    cases b with
    | true => cases htoken.symm.trans (hb rfl)
    | false => exact (stays_parseProlog.run hstacked).uncounted
  · rwa [parseProlog_started htoken]

/-- **What a call of `nextToken` does to the stacks.** -/
theorem nextToken_stacked {s s' : XmlPullParser} {r : Except XmlStop TokenType}
    (hs : Uncounted n s) (hrun : nextToken s = (r, s')) (hr : r ≠ .error .undefined) :
    ∃ m, Uncounted m s' ∧ (Unclosed s ∧ m = n + 1 ∨ ¬ Unclosed s ∧ m = n) := by
  have hprolog := stays_prolog.run hs
  unfold nextToken at hrun
  unfold Unclosed unclosed
  rcases hstart : parseProlog s with ⟨e | ⟨⟩, s₁⟩
  · rw [hstart] at hprolog
    rw [bind_error hstart] at hrun
    obtain ⟨rfl, rfl⟩ := Prod.mk.inj hrun
    rw [bind_error hstart]
    exact ⟨n, hprolog, .inr ⟨nofun, rfl⟩⟩
  rw [hstart] at hprolog
  rw [bind_ok hstart] at hrun ⊢
  unfold readToken at hrun
  rw [bind_ok (get_run s₁)] at hrun ⊢
  by_cases hempty : s₁.token = .START_TAG ∧ s₁.isEmptyElementTag = true
  · rw [if_pos hempty] at hrun ⊢
    obtain ⟨rfl, rfl⟩ := Prod.mk.inj hrun
    exact ⟨n, (hprolog.closed hempty).2, .inr ⟨nofun, rfl⟩⟩
  rw [if_neg hempty] at hrun ⊢
  obtain ⟨d, hstacked⟩ := hprolog.started hempty
  have hstay := (stays_onCursor stays_next).run hstacked
  rcases hnext : onCursor ReadAheadStreamAdapter.next s₁ with ⟨e | c, s₂⟩
  · rw [hnext] at hstay
    rw [bind_error hnext] at hrun ⊢
    obtain ⟨rfl, rfl⟩ := Prod.mk.inj hrun
    exact ⟨n, hstay.uncounted, .inr ⟨nofun, rfl⟩⟩
  rw [hnext] at hstay
  rw [bind_ok hnext] at hrun ⊢
  cases c with
  | none =>
    obtain rfl := (Prod.mk.inj hrun).2
    exact ⟨n, ((stays_setToken _).run hstay).uncounted, .inr ⟨nofun, rfl⟩⟩
  | some c =>
    simp only at hrun ⊢
    by_cases hc : c = '<'.toUInt8
    · rw [if_pos hc] at hrun ⊢
      exact parseMarkup_stacked hstay hrun hr
    · rw [if_neg hc] at hrun ⊢
      obtain rfl := (Prod.mk.inj hrun).2
      refine ⟨n, ?_, .inr ⟨nofun, rfl⟩⟩
      refine uncounted_bind (stays_onCursor (stays_putback c)) (fun _ s hs => ?_) hstay
      refine uncounted_bind stays_parseCharacters (fun ok s hs => ?_) hs
      split
      · exact ((stays_setToken _).run hs).uncounted
      · exact hs.uncounted

theorem nextToken_defined {s s' : XmlPullParser} {e : XmlStop} (hs : s.cursor.HasRoom)
    (hrun : nextToken s = (.error e, s')) : e ≠ .undefined :=
  (nextToken_room s ⟨hs, le_rfl⟩).2 e s' hrun

/-! ## Taking an element from the stacks -/

/-- `matchEndTag` up to its `pop_back`s. -/
def matchedState : Parser (Option XmlPullParser) := do
  modify fun s => if s.processNs then setNames s else { s with localName := s.name }
  let s ← get
  match s.elementStack with
  | e :: _ =>
    return if s.localName = e.name then some { s with ns := e.ns, pfx := e.pfx } else none
  | [] => return none

/-- The state in which a call of `nextToken` closes an element, if it does: its `pop_back`s
are executed there. -/
def popState : Parser (Option XmlPullParser) := do
  parseProlog
  let s ← get
  if s.token = .START_TAG ∧ s.isEmptyElementTag = true then
    return some { s with isEmptyElementTag := false }
  else
    match ← onCursor ReadAheadStreamAdapter.next with
    | none => return none
    | some c =>
      if c ≠ '<'.toUInt8 then return none
      else if ← parseStartElement then return none
      else if ← parseEndElement then matchedState
      else return none

/-- The stacks that an element is taken from. -/
def CanPop (s : XmlPullParser) : Prop :=
  s.elementStack ≠ [] ∧ (s.processNs = true → s.nsStack ≠ [])

theorem Stacked.canPop {s : XmlPullParser} (hs : Stacked b d n s) (hne : s.elementStack ≠ []) :
    CanPop s := by
  refine ⟨hne, fun hns hnil => hne (List.eq_nil_of_length_eq_zero ?_)⟩
  rw [← hs.nsHeight hns, hnil]
  rfl

theorem matchedState_run {s t : XmlPullParser} (hs : Stacked b d n s)
    (h : (matchedState s).1 = .ok (some t)) :
    matchEndTag s = (.ok .END_TAG, closeElement t) ∧ CanPop t := by
  have hnames := setNames_stacked hs
  unfold matchedState at h
  unfold matchEndTag
  rw [bind_ok (modify_run _ _), bind_ok (get_run _)] at h ⊢
  generalize (if s.processNs then setNames s else { s with localName := s.name }) = s₁ at h hnames ⊢
  cases hstack : s₁.elementStack with
  | nil =>
    rw [hstack] at h
    cases h
  | cons e es =>
    rw [hstack] at h
    simp only at h ⊢
    by_cases hname : s₁.localName = e.name
    · rw [if_pos hname] at h ⊢
      obtain rfl := Option.some.inj (Except.ok.inj h)
      rw [← hstack]
      have hne : s₁.elementStack ≠ [] := hstack ▸ List.cons_ne_nil e es
      exact ⟨rfl, hnames.canPop hne⟩
    · rw [if_neg hname] at h
      cases h

/-- The state that is closed is the one that `popState` says, and there is something to take. -/
theorem popState_run {s t : XmlPullParser} (hs : Uncounted n s)
    (h : (popState s).1 = .ok (some t)) :
    nextToken s = (.ok .END_TAG, closeElement t) ∧ CanPop t := by
  have hprolog := stays_prolog.run hs
  unfold popState at h
  unfold nextToken
  rcases hstart : parseProlog s with ⟨e | ⟨⟩, s₁⟩
  · rw [bind_error hstart] at h
    cases h
  rw [hstart] at hprolog
  rw [bind_ok hstart] at h ⊢
  unfold readToken
  rw [bind_ok (get_run s₁)] at h ⊢
  by_cases hempty : s₁.token = .START_TAG ∧ s₁.isEmptyElementTag = true
  · rw [if_pos hempty] at h ⊢
    obtain rfl := Option.some.inj (Except.ok.inj h)
    obtain ⟨b, d, hstacked, -⟩ := hprolog
    have hcan := hstacked.canPop (hstacked.top (hstacked.empty.symm.trans hempty.2))
    exact ⟨rfl, hcan⟩
  rw [if_neg hempty] at h ⊢
  obtain ⟨d, hstacked⟩ := hprolog.started hempty
  have hstay := (stays_onCursor stays_next).run hstacked
  rcases hnext : onCursor ReadAheadStreamAdapter.next s₁ with ⟨e | c, s₂⟩
  · rw [bind_error hnext] at h
    cases h
  rw [hnext] at hstay
  rw [bind_ok hnext] at h ⊢
  cases c with
  | none => cases h
  | some c =>
    simp only at h ⊢
    by_cases hc : c = '<'.toUInt8
    · rw [if_neg (not_not.mpr hc)] at h
      rw [if_pos hc]
      unfold parseMarkup
      have htracks := parseStartElement_tracks hstay
      unfold Tracks at htracks
      rcases htag : parseStartElement s₂ with ⟨e | ok, s₃⟩
      · rw [bind_error htag] at h
        cases h
      rw [htag] at htracks
      rw [bind_ok htag] at h ⊢
      cases ok with
      | true => cases h
      | false =>
        obtain ⟨m, hstacked₃, -⟩ := htracks
        rw [if_neg Bool.false_ne_true] at h ⊢
        have hend := stays_parseEndElement.run hstacked₃
        rcases htag : parseEndElement s₃ with ⟨e | ok, s₄⟩
        · rw [bind_error htag] at h
          cases h
        rw [htag] at hend
        rw [bind_ok htag] at h ⊢
        cases ok with
        | false => cases h
        | true =>
          rw [if_pos rfl] at h ⊢
          exact matchedState_run hend h
    · rw [if_pos hc] at h
      cases h

/-! ## All calls -/

/-- The parser after `n` calls of `nextToken`; a call may throw. -/
def afterCalls (doc : Str) (ns : Bool) : Nat → XmlPullParser
  | 0 => ofStream doc ns
  | n + 1 => (nextToken (afterCalls doc ns n)).2

def Returns (s : XmlPullParser) : Prop := ∃ t, (nextToken s).1 = .ok t

/-- The depth is the number of elements on the stack, and their namespaces are as many. -/
structure Disciplined (s : XmlPullParser) : Prop where
  depth : s.depth = s.elementStack.length
  nsStack : s.processNs = true → s.nsStack.length = s.elementStack.length

/-- **The discipline of the stacks**: they agree behind each call that returns, and nothing is
taken from an empty one. -/
structure StackDiscipline (doc : Str) (ns : Bool) : Prop where
  agree : ∀ i, Returns (afterCalls doc ns i) → Disciplined (afterCalls doc ns (i + 1))
  pops : ∀ i t, (popState (afterCalls doc ns i)).1 = .ok (some t) → CanPop t

theorem Uncounted.disciplined_iff {s : XmlPullParser} (hs : Uncounted n s) :
    Disciplined s ↔ n = 0 := by
  obtain ⟨b, d, hstacked, -⟩ := hs
  have hheight := hstacked.height
  have hdepth := hstacked.depth
  constructor
  · intro h
    have hd := h.depth
    omega
  · intro hn
    exact ⟨by omega, hstacked.nsHeight⟩

/-- By induction on the calls: an element that was not counted stays so. -/
theorem afterCalls_uncounted (doc : Str) (ns : Bool) (i : Nat) :
    ∃ m, Uncounted m (afterCalls doc ns i) ∧ (m = 0 ↔ ∀ j < i, ¬ Unclosed (afterCalls doc ns j)) := by
  induction i with
  | zero =>
    refine ⟨0, ⟨false, 0, ⟨rfl, rfl, fun _ => rfl, rfl, nofun, Nat.zero_le _⟩, nofun⟩, ?_⟩
    exact ⟨fun _ j hj => absurd hj (Nat.not_lt_zero j), fun _ => rfl⟩
  | succ i ih =>
    obtain ⟨m, hs, hm⟩ := ih
    rcases hrun : nextToken (afterCalls doc ns i) with ⟨r, s'⟩
    have hr : r ≠ .error .undefined := by
      obtain ⟨b, d, hstacked, -⟩ := hs
      rintro rfl
      exact nextToken_defined hstacked.room hrun rfl
    obtain ⟨m', hs', hm'⟩ := nextToken_stacked hs hrun hr
    have hafter : afterCalls doc ns (i + 1) = s' := congrArg Prod.snd hrun
    refine ⟨m', hafter ▸ hs', ?_⟩
    simp only [Nat.lt_succ_iff_lt_or_eq, or_imp, forall_and, forall_eq, ← hm]
    rcases hm' with ⟨hopen, rfl⟩ | ⟨hclosed, rfl⟩
    · exact ⟨fun h => absurd h (Nat.succ_ne_zero m), fun h => absurd hopen h.2⟩
    · exact ⟨fun h => ⟨h, hclosed⟩, fun h => h.1⟩

/-- **Put-back never overflows**, whatever the calls before have thrown: a ninth character in
`read_ahead_`, or one behind the buffer of `expect`, would end the call as undefined. -/
theorem putback_bounded (doc : Str) (ns : Bool) (i : Nat) :
    (afterCalls doc ns i).cursor.readAhead.length ≤ 8 ∧
      (nextToken (afterCalls doc ns i)).1 ≠ .error .undefined := by
  obtain ⟨n, ⟨b, d, hstacked, -⟩, -⟩ := afterCalls_uncounted doc ns i
  refine ⟨hstacked.room, ?_⟩
  rcases hrun : nextToken (afterCalls doc ns i) with ⟨r, s'⟩
  rintro rfl
  exact nextToken_defined hstacked.room hrun rfl

/-- **The stacks agree exactly until a start tag is not closed**; none is popped when empty. -/
theorem stackDiscipline_iff (doc : Str) (ns : Bool) : StackDiscipline doc ns ↔
    ∀ i, Returns (afterCalls doc ns i) → ∀ j ≤ i, ¬ Unclosed (afterCalls doc ns j) := by
  have hagree (i : Nat) : Disciplined (afterCalls doc ns (i + 1)) ↔
      ∀ j ≤ i, ¬ Unclosed (afterCalls doc ns j) := by
    obtain ⟨m, hs, hm⟩ := afterCalls_uncounted doc ns (i + 1)
    simp only [hs.disciplined_iff, hm, Nat.lt_succ_iff]
  constructor
  · exact fun h i hi => (hagree i).mp (h.agree i hi)
  · intro h
    refine ⟨fun i hi => (hagree i).mpr (h i hi), fun i t ht => ?_⟩
    obtain ⟨m, hs, -⟩ := afterCalls_uncounted doc ns i
    exact (popState_run hs ht).2

/-- The second `a` ends the first: nothing is open, and the depth is one less. -/
theorem unclosed_miscounted : ¬ StackDiscipline (str "<a /a>") false := by
  intro h
  have hdepth := (h.agree 0 ⟨.END_TAG, by decide +kernel⟩).depth
  exact absurd hdepth (by decide +kernel)

end XmlPullParser

end Wsrv
