import Wsrv.Gpx
import Wsrv.Lib.Brackets
import Wsrv.XmlSafety

/-!
# Balanced documents

When the calls of `next` come to `END_DOCUMENT`, the tags they delivered should
be balanced, and any other document should end in an `XmlPullParserException`,
so that `GPXParser::parse` returns false.  The parser looks at its stack of
elements only at an end tag.  So the calls must be clean (`cleanCalls`): each
finds a token, no start tag lacks its `>`, an end tag has the name of the
element it closes with its prefix, and the end of the input comes when no
element is open.  Then the tags are balanced (`regular_onlyBalanced`).
-/

namespace Wsrv.XmlPullParser

open Effect ReadAheadStreamAdapter

/-! ## What the calls deliver -/

/-- The tag of an event, with the name as the document has it. -/
structure Tag where
  name : Str
  pfx : Str
  localName : Str
  deriving DecidableEq

def tag (s : XmlPullParser) : Tag := ⟨s.name, s.pfx, s.localName⟩

def delims (event : Option TokenType) (s : XmlPullParser) : List (Delim Tag) :=
  match event with
  | some .START_TAG => [.opening s.tag]
  | some .END_TAG => [.closing s.tag]
  | _ => []

/-- A parser that has read nothing; `event` is what `event_` happens to hold. -/
def unread (event : Option TokenType) (doc : Str) (ns : Bool) : XmlPullParser :=
  { ofStream doc ns with event := event }

/-- The calls of `next` up to `END_DOCUMENT`: the tags, or the exception. -/
def readAll : Nat → List (Delim Tag) → XmlPullParser → Option (Except XmlStop (List (Delim Tag)))
  | 0, _, _ => none
  | n + 1, tags, s =>
    match next s with
    | (.error e, _) => some (.error e)
    | (.ok event, s') =>
      if event = some .END_DOCUMENT then some (.ok tags)
      else readAll n (tags ++ delims event s') s'

def reading (event : Option TokenType) (doc : Str) (ns : Bool) :
    Option (Except XmlStop (List (Delim Tag))) :=
  readAll (2 * doc.length + 3) [] (unread event doc ns)

/-- The calls deliver a balanced sequence of tags and the end of the document. -/
def Accepted (event : Option TokenType) (doc : Str) (ns : Bool) : Prop :=
  ∃ tags, reading event doc ns = some (.ok tags) ∧ Delim.Balanced tags

/-- **Only balanced documents are accepted**, by `next` and by `GPXParser::parse`. -/
structure OnlyBalanced (L : GpxLibrary) (event : Option TokenType) (gpx : GPX L) (doc : Str)
    (ns : Bool) : Prop where
  balanced : ∀ tags, reading event doc ns = some (.ok tags) → Delim.Balanced tags
  rejected : ¬ Accepted event doc ns →
    ∃ msg line column, reading event doc ns = some (.error (.fatal msg line column))
  parse : ns = false → ¬ Accepted event doc ns →
    ∃ gpx', GPXParser.parse event doc gpx = some (.returned false gpx')

/-! ## What a call finds -/

/-- What stands where a call of `nextToken` begins. -/
inductive Found
  | empty | ending | start | unclosed | closing (name : Str) | text | nothing

/-- A start tag without its `>` leaves an element on the stack. -/
def found : Parser Found := do
  parseProlog
  let s ← get
  if s.token = .START_TAG ∧ s.isEmptyElementTag = true then return .empty
  else
    match ← onCursor ReadAheadStreamAdapter.next with
    | none => return .ending
    | some c =>
      if c = '<'.toUInt8 then
        if ← parseStartElement then return .start
        else if (← get).elementStack.length ≠ s.elementStack.length then return .unclosed
        else if ← parseEndElement then return .closing (← get).name
        else return .nothing
      else
        onCursor (putback c)
        if ← parseCharacters then return .text else return .nothing

def localPart (ns : Bool) (name : Str) : Str := if ns then (breakDownName name).2 else name

/-- The tag of the element that was opened last. -/
def innermost (tags : List (Delim Tag)) : Option Tag := (Delim.run [] tags).bind List.head?

/-- A call finds a token that leaves the tags balanced, or throws. -/
def clean (tags : List (Delim Tag)) (s : XmlPullParser) : Bool :=
  match (found s).1 with
  | .ok .unclosed => false
  | .ok .nothing => false
  | .ok .ending => s.elementStack.isEmpty
  | .ok (.closing name) => (innermost tags).all fun t =>
      t.localName ≠ localPart s.processNs name || t.name = name
  | _ => true

def cleanCalls : Nat → List (Delim Tag) → XmlPullParser → Bool
  | 0, _, _ => true
  | n + 1, tags, s =>
    clean tags s &&
      match next s with
      | (.error _, _) => true
      | (.ok event, s') =>
        event = some .END_DOCUMENT || cleanCalls n (tags ++ delims event s') s'

/-! ## What the parsers leave alone -/

/-- The stack, the token and the mode are the same. -/
structure Same (s₀ s : XmlPullParser) : Prop where
  stack : s.elementStack = s₀.elementStack
  token : s.token = s₀.token
  processNs : s.processNs = s₀.processNs

theorem same_modify {α : Type} {s₀ : XmlPullParser} {f : XmlPullParser → XmlPullParser}
    {g : PUnit → Parser α} {Q : α → XmlPullParser → Prop} {E : XmlStop → XmlPullParser → Prop}
    (h : ∀ s, Same s (f s)) (hg : Triple (Same s₀) (g ⟨⟩) Q E) :
    Triple (Same s₀) (modify f >>= g) Q E :=
  (Triple.modify (Q := fun _ => Same s₀) fun s hs =>
    ⟨(h s).stack.trans hs.stack, (h s).token.trans hs.token, (h s).processNs.trans hs.processNs⟩).bind
      fun _ => hg

def Keeps {α : Type} (x : Parser α) : Prop :=
  ∀ s₀, Triple (Same s₀) x (fun _ => Same s₀) fun _ _ => True

namespace Keeps

variable {α β : Type}

theorem pure (a : α) : Keeps (Pure.pure a : Parser α) := fun _ => .pure fun _ h => h

theorem bind {x : Parser α} {f : α → Parser β} (hx : Keeps x) (hf : ∀ a, Keeps (f a)) :
    Keeps (x >>= f) := fun s₀ => (hx s₀).bind fun a => hf a s₀

theorem ite {p : Prop} [Decidable p] {x y : Parser α} (hx : Keeps x) (hy : Keeps y) :
    Keeps (if p then x else y) := fun s₀ => .ite (fun _ => hx s₀) fun _ => hy s₀

theorem get : Keeps (MonadState.get : Parser XmlPullParser) := fun _ => .get fun _ h => h

theorem modify {f : XmlPullParser → XmlPullParser} {g : PUnit → Parser α}
    (h : ∀ s, Same s (f s)) (hg : Keeps (g ⟨⟩)) : Keeps (modify f >>= g) := fun s₀ =>
  same_modify h (hg s₀)

theorem onCursor (x : Cursor α) : Keeps (XmlPullParser.onCursor x) := fun s₀ s hs => by
  refine ⟨fun a s' h => ?_, fun _ _ _ => trivial⟩
  obtain rfl := (Prod.mk.inj h).2
  exact ⟨hs.stack, hs.token, hs.processNs⟩

theorem fatal (msg : String) : Keeps (XmlPullParser.fatal msg : Parser α) := fun _ =>
  (Triple.get fun _ h => h).bind fun _ => .throw fun _ _ => trivial

theorem run {x : Parser α} (hx : Keeps x) {s s' : XmlPullParser} {a : α}
    (h : x s = (.ok a, s')) : Same s s' := (hx s s ⟨rfl, rfl, rfl⟩).1 a s' h

end Keeps

theorem keeps_parseAttributeList : Keeps parseAttributeList :=
  .modify (fun _ => ⟨rfl, rfl, rfl⟩) <| .onCursor _

theorem keeps_parseProlog : Keeps parseProlog := by
  have hdecl : Keeps parseXmlDecl :=
    (Keeps.onCursor _).bind fun _ => .ite
      ((Keeps.onCursor _).bind fun _ => keeps_parseAttributeList.bind fun _ => .ite (.fatal _) <|
        (Keeps.onCursor _).bind fun _ => (Keeps.onCursor _).bind fun _ => .ite (.fatal _) (.pure _))
      (.pure _)
  exact Keeps.get.bind fun _ => .ite
    ((Keeps.onCursor _).bind fun _ => (Keeps.onCursor _).bind fun _ => hdecl.bind fun _ =>
      .onCursor _) (.pure _)

theorem keeps_parseEndElement : Keeps parseEndElement :=
  (Keeps.onCursor _).bind fun _ => .ite (.pure _) <| .ite
    ((Keeps.onCursor _).bind fun _ => (Keeps.onCursor _).bind fun _ => (Keeps.onCursor _).bind
      fun _ => .modify (fun _ => ⟨rfl, rfl, rfl⟩) <| .ite (.fatal _) <|
        (Keeps.onCursor _).bind fun _ => (Keeps.onCursor _).bind fun _ => .ite (.pure _) (.fatal _))
    (.pure _)

theorem keeps_parseCharacters : Keeps parseCharacters :=
  (Keeps.onCursor _).bind fun _ => .modify (fun _ => ⟨rfl, rfl, rfl⟩) <| .ite (.fatal _) (.pure _)

/-- A start tag puts its element on the stack; without a name there is none. -/
structure Opened (s₀ : XmlPullParser) (ok : Bool) (s : XmlPullParser) : Prop where
  token : s.token = s₀.token
  processNs : s.processNs = s₀.processNs
  stack : ok = false ∧ s.elementStack = s₀.elementStack ∨
    s.elementStack = ⟨s.localName, s.pfx, s.ns⟩ :: s₀.elementStack

theorem parseStartElement_opened (s₀ : XmlPullParser) :
    Triple (Same s₀) parseStartElement (Opened s₀) fun _ _ => True := by
  have hend : Triple (Same s₀) (do
      modify fun s => { s with elementStack := ⟨s.localName, s.pfx, s.ns⟩ :: s.elementStack }
      if ← onCursor (expect (str "/>")) then
        modify fun s => { s with isEmptyElementTag := true }
        return true
      else if ← onCursor (expect (str ">")) then
        modify fun s => { s with isEmptyElementTag := false }
        return true
      else return false) (Opened s₀) fun _ _ => True := by
    have hpush : Triple (Same s₀)
        (modify fun s => { s with elementStack := ⟨s.localName, s.pfx, s.ns⟩ :: s.elementStack } :
          Parser PUnit) (fun _ => Opened s₀ true) fun _ _ => True :=
      .modify fun s hs => ⟨hs.token, hs.processNs, .inr (by rw [hs.stack])⟩
    have hexpect (w : Str) : Triple (Opened s₀ true) (onCursor (expect w)) (fun _ => Opened s₀ true)
        fun _ _ => True := fun s hs => by
      refine ⟨fun a s' h => ?_, fun _ _ _ => trivial⟩
      obtain rfl := (Prod.mk.inj h).2
      exact ⟨hs.token, hs.processNs, hs.stack⟩
    have hset (b : Bool) : Triple (Opened s₀ true) (do
        modify fun s => { s with isEmptyElementTag := b }
        return true : Parser Bool) (Opened s₀) fun _ _ => True :=
      (Triple.modify (Q := fun _ => Opened s₀ true) fun s hs =>
        ⟨hs.token, hs.processNs, hs.stack⟩).bind fun _ => .pure fun _ h => h
    refine hpush.bind fun _ => (hexpect _).bind fun _ => .ite (fun _ => hset true) fun _ => ?_
    refine (hexpect _).bind fun _ => .ite (fun _ => hset false) fun _ => .pure fun s hs => ?_
    exact ⟨hs.token, hs.processNs, .inr (hs.stack.resolve_left (by simp))⟩
  have hcursor {α : Type} (x : Cursor α) := Keeps.onCursor x s₀
  refine (hcursor _).bind fun _ => .ite
    (fun _ => .pure fun s hs => ⟨hs.token, hs.processNs, .inl ⟨rfl, hs.stack⟩⟩) fun _ => ?_
  refine (hcursor _).bind fun _ => (hcursor _).bind fun name =>
    same_modify (fun _ => ⟨rfl, rfl, rfl⟩) <| .ite (fun _ => ?_) fun _ => ?_
  · exact (Triple.get fun _ h => h).bind fun _ => .throw fun _ _ => trivial
  refine (hcursor _).bind fun _ => (keeps_parseAttributeList s₀).bind fun r =>
    same_modify (fun _ => ⟨rfl, rfl, rfl⟩) <| .ite (fun _ => ?_) fun _ => ?_
  · exact (Triple.get fun _ h => h).bind fun _ => .throw fun _ _ => trivial
  refine (hcursor _).bind fun _ => (Triple.get fun _ h => h).bind fun _ => .ite (fun _ => ?_) fun _ => ?_
  · exact same_modify (fun _ => ⟨rfl, rfl, rfl⟩) <| same_modify (fun _ => ⟨rfl, rfl, rfl⟩) <|
      same_modify (fun _ => ⟨rfl, rfl, rfl⟩) hend
  · exact same_modify (fun _ => ⟨rfl, rfl, rfl⟩) hend

/-! ## What a clean call does -/

/-- The outcomes of a clean call of `nextToken`. -/
inductive CleanStep (tags : List (Delim Tag)) (s : XmlPullParser) :
    TokenType → XmlPullParser → Prop
  | ending {s'} : s.elementStack = [] → CleanStep tags s .END_DOCUMENT s'
  | start {s'} : s'.token = .START_TAG →
      s'.elementStack = ⟨s'.localName, s'.pfx, s'.ns⟩ :: s.elementStack →
      CleanStep tags s .START_TAG s'
  | empty {s'} : s.token = .START_TAG → s'.token = .END_TAG →
      s'.elementStack = s.elementStack.tail → s'.tag = s.tag → CleanStep tags s .END_TAG s'
  | closing {s'} (e : Element) : s'.token = .END_TAG → s.elementStack = e :: s'.elementStack →
      s'.localName = e.name → s'.pfx = e.pfx →
      (∀ x ∈ innermost tags, x.localName = s'.localName → x.name = s'.name) →
      CleanStep tags s .END_TAG s'
  | text {s'} : s'.token = .TEXT → s'.elementStack = s.elementStack → CleanStep tags s .TEXT s'

theorem parseProlog_started {s : XmlPullParser} (h : s.token ≠ .START_DOCUMENT) :
    parseProlog s = (.ok (), s) := by
  unfold parseProlog
  rw [bind_ok (get_run s), if_neg h]
  rfl

/-- An end tag that is matched closes the element on the top. -/
theorem matchEndTag_run {s s' : XmlPullParser} {t : TokenType} (h : matchEndTag s = (.ok t, s')) :
    t = .END_TAG ∧ s'.token = .END_TAG ∧ s'.name = s.name ∧
      s'.localName = localPart s.processNs s.name ∧
      ∃ e, s.elementStack = e :: s'.elementStack ∧ s'.localName = e.name ∧ s'.pfx = e.pfx := by
  unfold matchEndTag at h
  rw [bind_ok (modify_run _ _), bind_ok (get_run _)] at h
  have hlocal : (if s.processNs then setNames s else { s with localName := s.name }).localName =
      localPart s.processNs s.name := by
    unfold localPart setNames
    split <;> rfl
  have hstack : (if s.processNs then setNames s else { s with localName := s.name }).elementStack =
      s.elementStack := by split <;> rfl
  have hname : (if s.processNs then setNames s else { s with localName := s.name }).name = s.name := by
    split <;> rfl
  generalize (if s.processNs then setNames s else { s with localName := s.name }) = s₁
    at h hlocal hstack hname
  cases hs : s₁.elementStack with
  | nil =>
    simp only [hs] at h
    cases h
  | cons e es =>
    simp only [hs] at h
    by_cases he : s₁.localName = e.name
    · rw [if_pos he, bind_ok (modify_run _ _)] at h
      cases h
      refine ⟨rfl, rfl, hname, hlocal, e, ?_, he, rfl⟩
      rw [← hstack, hs]
      simp [closeElement]
    · rw [if_neg he] at h
      cases h

/-- A clean call at a `<`. -/
theorem parseMarkup_clean {tags : List (Delim Tag)} {s s₂ s' : XmlPullParser} {t : TokenType}
    (hsame : Same s s₂)
    (hclean : (match ((do
        if ← parseStartElement then return .start
        else if (← get).elementStack.length ≠ s₂.elementStack.length then return .unclosed
        else if ← parseEndElement then return .closing (← get).name
        else return .nothing : Parser Found) s₂).1 with
      | .ok .unclosed => false
      | .ok .nothing => false
      | .ok .ending => s.elementStack.isEmpty
      | .ok (.closing name) => (innermost tags).all fun t =>
          t.localName ≠ localPart s.processNs name || t.name = name
      | _ => true) = true) (h : parseMarkup s₂ = (.ok t, s')) : CleanStep tags s t s' := by
  unfold parseMarkup at h
  rcases hstart : parseStartElement s₂ with ⟨e | ok, s₃⟩
  · rw [bind_error hstart] at h
    cases h
  have hopened := (parseStartElement_opened s₂ s₂ ⟨rfl, rfl, rfl⟩).1 ok s₃ hstart
  rw [bind_ok hstart] at h hclean
  cases ok with
  | true =>
    rw [if_pos rfl] at h
    cases h
    exact .start rfl ((hopened.stack.resolve_left (by simp)).trans (by rw [hsame.stack]))
  | false =>
    rw [if_neg Bool.false_ne_true] at h hclean
    rw [bind_ok (get_run s₃)] at hclean
    by_cases hlength : s₃.elementStack.length ≠ s₂.elementStack.length
    · rw [if_pos hlength] at hclean
      cases hclean
    have hstack : s₃.elementStack = s₂.elementStack := by
      rcases hopened.stack with ⟨-, hstack⟩ | hstack
      · exact hstack
      · rw [hstack] at hlength
        simp at hlength
    rw [if_neg hlength] at hclean
    rcases hend : parseEndElement s₃ with ⟨e | ok, s₄⟩
    · rw [bind_error hend] at h
      cases h
    have hkeep := keeps_parseEndElement.run hend
    rw [bind_ok hend] at h hclean
    cases ok with
    | true =>
      rw [if_pos rfl] at h hclean
      rw [bind_ok (get_run s₄)] at hclean
      obtain ⟨rfl, htoken, hname, hlocal, e, he, hlocal', hpfx⟩ := matchEndTag_run h
      have hns : s₄.processNs = s.processNs :=
        hkeep.processNs.trans (hopened.processNs.trans hsame.processNs)
      have hs : s₄.elementStack = s.elementStack :=
        hkeep.stack.trans (hstack.trans hsame.stack)
      refine .closing e htoken (hs ▸ he) hlocal' hpfx fun x hx hxl => ?_
      have hall : (innermost tags).all (fun t =>
          t.localName ≠ localPart s.processNs s₄.name || t.name = s₄.name) = true := hclean
      rw [Option.mem_def] at hx
      rw [hx] at hall
      rw [hlocal, hns] at hxl
      rw [hname]
      simpa [hxl] using hall
    | false =>
      rw [if_neg Bool.false_ne_true] at hclean
      cases hclean

/-- **A clean call does one of these things.** -/
theorem nextToken_clean {tags : List (Delim Tag)} {s s' : XmlPullParser} {t : TokenType}
    (hclean : clean tags s = true) (h : nextToken s = (.ok t, s')) : CleanStep tags s t s' := by
  by_cases hempty : s.token = .START_TAG ∧ s.isEmptyElementTag = true
  · rw [nextToken_empty hempty.1 hempty.2] at h
    cases h
    exact .empty hempty.1 rfl rfl rfl
  unfold clean found at hclean
  unfold nextToken at h
  rcases hprolog : parseProlog s with ⟨e | _, s₁⟩
  · rw [bind_error hprolog] at h
    cases h
  have hsame := keeps_parseProlog.run hprolog
  have hfull : ¬ (s₁.token = .START_TAG ∧ s₁.isEmptyElementTag = true) := by
    rintro ⟨htoken, hflag⟩
    rw [hsame.token] at htoken
    have hstarted := parseProlog_started (s := s) (by rw [htoken]; decide)
    obtain rfl : s = s₁ := (Prod.mk.inj (hstarted.symm.trans hprolog)).2
    exact hempty ⟨htoken, hflag⟩
  rw [bind_ok hprolog] at h hclean
  unfold readToken at h
  rw [bind_ok (get_run s₁), if_neg hfull] at h hclean
  rcases hnext : onCursor ReadAheadStreamAdapter.next s₁ with ⟨e | r, s₂⟩
  · rw [bind_error hnext] at h
    cases h
  have hsame₂ : Same s s₂ := by
    have h₂ := (Keeps.onCursor _).run hnext
    exact ⟨h₂.stack.trans hsame.stack, h₂.token.trans hsame.token,
      h₂.processNs.trans hsame.processNs⟩
  have hstack : s₁.elementStack.length = s₂.elementStack.length := by
    rw [hsame.stack, hsame₂.stack]
  rw [bind_ok hnext] at h hclean
  cases r with
  | none =>
    cases h
    exact .ending (List.isEmpty_iff.mp hclean)
  | some c =>
    simp only at h hclean
    by_cases hc : c = '<'.toUInt8
    · rw [if_pos hc] at h hclean
      rw [hstack] at hclean
      exact parseMarkup_clean hsame₂ hclean h
    · rw [if_neg hc] at h hclean
      rcases hback : onCursor (putback c) s₂ with ⟨e | _, s₃⟩
      · rw [bind_error hback] at h
        cases h
      rw [bind_ok hback] at h hclean
      rcases htext : parseCharacters s₃ with ⟨e | ok, s₄⟩
      · rw [bind_error htext] at h
        cases h
      have h₃ := (Keeps.onCursor _).run hback
      have h₄ := keeps_parseCharacters.run htext
      rw [bind_ok htext] at h hclean
      cases ok with
      | true =>
        rw [if_pos rfl] at h
        cases h
        exact .text rfl (h₄.stack.trans (h₃.stack.trans hsame₂.stack))
      | false =>
        rw [if_neg Bool.false_ne_true] at hclean
        cases hclean

/-! ## The open elements -/

/-- The tags that are open are those of the elements on the stack; behind a start tag it is the one
on the top. -/
structure Follows (tags : List (Delim Tag)) (s : XmlPullParser) (opens : List Tag) : Prop where
  run : Delim.run [] tags = some opens
  stack : opens.map (fun t => (t.localName, t.pfx)) =
    s.elementStack.map fun e => (e.name, e.pfx)
  top : s.token = .START_TAG → opens.head? = some s.tag

theorem follows_unread (event : Option TokenType) (doc : Str) (ns : Bool) :
    Follows [] (unread event doc ns) [] := by
  have htoken : (unread event doc ns).token = .START_DOCUMENT := rfl
  refine ⟨rfl, rfl, fun h => ?_⟩
  rw [htoken] at h
  cases h

/-- **What is open follows the stack**, one case for each thing a clean call does. -/
theorem CleanStep.follows {tags : List (Delim Tag)} {s s' : XmlPullParser} {t : TokenType}
    {opens : List Tag} (hs : Follows tags s opens) (h : CleanStep tags s t s')
    (ht : t ≠ .END_DOCUMENT) :
    ∃ opens', Follows (tags ++ delims (TokenType.event? t) s') s' opens' := by
  cases h with
  | ending => exact absurd rfl ht
  | start htoken hstack =>
    refine ⟨s'.tag :: opens, ?_, ?_, fun _ => rfl⟩
    · rw [Delim.run_append, hs.run]
      rfl
    · rw [hstack, List.map_cons, List.map_cons, hs.stack]
      rfl
  | empty hstart htoken hstack htag =>
    obtain ⟨rest, rfl⟩ := List.head?_eq_some_iff.mp (hs.top hstart)
    refine ⟨rest, ?_, ?_, fun h => ?_⟩
    · rw [Delim.run_append, hs.run, ← htag, Option.bind_some]
      change (Delim.step (s'.tag :: rest) (.closing s'.tag)).bind some = some rest
      rw [Delim.step_closing]
      rfl
    · have hmap := congrArg List.tail hs.stack
      rw [hstack, List.map_tail, ← hmap]
      rfl
    · rw [htoken] at h
      cases h
  | closing e htoken hstack hlocal hpfx hname =>
    have hmap := hs.stack
    rw [hstack, List.map_cons] at hmap
    obtain ⟨x, rest, rfl, hx, hrest⟩ := List.map_eq_cons_iff.mp hmap
    obtain ⟨hxl, hxp⟩ := Prod.mk.inj hx
    have hmem : x ∈ innermost tags := by
      rw [innermost, hs.run]
      rfl
    have htag : s'.tag = x := by
      have hxn := hname x hmem (hxl.trans hlocal.symm)
      unfold tag
      rw [← hxn, hpfx, hlocal, ← hxl, ← hxp]
    refine ⟨rest, ?_, hrest, fun h => ?_⟩
    · rw [Delim.run_append, hs.run, Option.bind_some]
      change (Delim.step (x :: rest) (.closing s'.tag)).bind some = some rest
      rw [htag, Delim.step_closing]
      rfl
    · rw [htoken] at h
      cases h
  | text htoken hstack =>
    refine ⟨opens, ?_, by rw [hstack]; exact hs.stack, fun h => ?_⟩
    · rw [Delim.run_append, hs.run]
      rfl
    · rw [htoken] at h
      cases h

theorem CleanStep.event {tags : List (Delim Tag)} {s s' : XmlPullParser} {t : TokenType}
    (h : CleanStep tags s t s') : TokenType.event? t = some t := by
  cases h <;> rfl

/-- A clean call of `next` is one call of `nextToken`. -/
theorem next_clean {tags : List (Delim Tag)} {s s' : XmlPullParser} {event : Option TokenType}
    (hclean : clean tags s = true) (h : next s = (.ok event, s')) :
    ∃ t s₁, CleanStep tags s t s₁ ∧ event = some t ∧ s' = { s₁ with event := some t } := by
  rcases hrun : nextToken s with ⟨e | t, s₁⟩
  · have hloop : nextLoop s.cursor.size s = (.error e, s₁) := by
      have hsize : s.cursor.size = s.cursor.readAhead.length + s.cursor.input.length + 1 + 1 := rfl
      rw [hsize, nextLoop, bind_error hrun]
    unfold next at h
    rw [bind_ok (get_run s), bind_error hloop] at h
    cases h
  · have hstep := nextToken_clean hclean hrun
    have hnext := next_event hrun hstep.event
    cases hnext.symm.trans h
    exact ⟨t, s₁, hstep, rfl, rfl⟩

theorem next_follows {tags : List (Delim Tag)} {s s' : XmlPullParser} {event : Option TokenType}
    {opens : List Tag} (hs : Follows tags s opens) (hclean : clean tags s = true)
    (h : next s = (.ok event, s')) :
    (event = some .END_DOCUMENT → opens = []) ∧
      (event ≠ some .END_DOCUMENT → ∃ opens', Follows (tags ++ delims event s') s' opens') := by
  obtain ⟨t, s₁, hstep, rfl, rfl⟩ := next_clean hclean h
  constructor
  · intro hend
    cases Option.some.inj hend
    cases hstep with
    | ending hstack =>
      have hmap := hs.stack
      rw [hstack, List.map_nil] at hmap
      exact List.map_eq_nil_iff.mp hmap
  · intro hne
    obtain ⟨opens', hfollows⟩ := hstep.follows hs fun ht => hne (congrArg some ht)
    rw [hstep.event] at hfollows
    exact ⟨opens', hfollows.run, hfollows.stack, hfollows.top⟩

/-- **Clean calls that come to the end have delivered balanced tags**, by induction on the calls. -/
theorem readAll_balanced (n : Nat) {tags tags' : List (Delim Tag)} {s : XmlPullParser}
    {opens : List Tag} (hs : Follows tags s opens) (hclean : cleanCalls n tags s = true)
    (h : readAll n tags s = some (.ok tags')) : Delim.Balanced tags' := by
  induction n generalizing tags s opens with
  | zero => cases h
  | succ n ih =>
    rw [cleanCalls, Bool.and_eq_true] at hclean
    obtain ⟨hclean, hrest⟩ := hclean
    rw [readAll] at h
    rcases hnext : next s with ⟨e | event, s'⟩
    · rw [hnext] at h
      cases h
    · rw [hnext] at h hrest
      obtain ⟨hend, hgo⟩ := next_follows hs hclean hnext
      simp only at h hrest
      by_cases hevent : event = some .END_DOCUMENT
      · rw [if_pos hevent] at h
        cases h
        exact (Delim.run_eq_nil_iff _).mp (by rw [hs.run, hend hevent])
      · rw [if_neg hevent] at h
        obtain ⟨opens', hfollows⟩ := hgo hevent
        rw [decide_eq_false hevent, Bool.false_or] at hrest
        exact ih hfollows hrest h

/-! ## Every document is read to an end -/

/-- **The calls end** with the end of the document or an exception of the parser. -/
theorem readAll_defined (n : Nat) (tags : List (Delim Tag)) {s : XmlPullParser}
    (hs : s.cursor.readAhead.length ≤ 8) (hn : pending s < n) :
    (∃ tags', readAll n tags s = some (.ok tags')) ∨
      ∃ msg line column, readAll n tags s = some (.error (.fatal msg line column)) := by
  induction n generalizing tags s with
  | zero => omega
  | succ n ih =>
    rw [readAll]
    rcases hnext : next s with ⟨e | event, s'⟩
    · have hfatal := (next_defined s ⟨hs, le_rfl⟩).2 e s' hnext
      cases e with
      | fatal msg line column => exact .inr ⟨msg, line, column, rfl⟩
      | undefined => exact absurd rfl hfatal
    · obtain ⟨hs', hless⟩ := next_progress hs hnext
      simp only
      by_cases hevent : event = some .END_DOCUMENT
      · rw [if_pos hevent]
        exact .inl ⟨tags, rfl⟩
      · rw [if_neg hevent]
        have hlt := hless.resolve_left hevent
        exact ih _ hs' (by omega)

theorem pending_unread (event : Option TokenType) (doc : Str) (ns : Bool) :
    pending (unread event doc ns) < 2 * doc.length + 3 := by
  have hpending : pending (unread event doc ns) = 2 * (0 + doc.length + 1) + 0 := rfl
  omega

theorem reading_defined (event : Option TokenType) (doc : Str) (ns : Bool) :
    (∃ tags, reading event doc ns = some (.ok tags)) ∨
      ∃ msg line column, reading event doc ns = some (.error (.fatal msg line column)) :=
  readAll_defined _ [] (Nat.zero_le _) (pending_unread event doc ns)

/-! ## The track parser -/

variable {L : GpxLibrary}

/-- No call of `std::stod` throws. -/
def convertible : Nat → Option TokenType → XmlPullParser → GPXParser.Scan L → Bool
  | 0, _, _, _ => true
  | n + 1, event, s, st =>
    event = some .END_DOCUMENT ||
      match GPXParser.handle event s st with
      | none => false
      | some st =>
        match next s with
        | (.ok event, s') => convertible n event s' st
        | (.error _, _) => true

/-- `parse` returns what the calls say. -/
theorem parseLoop_eq (n : Nat) (tags : List (Delim Tag)) {event : Option TokenType}
    {s : XmlPullParser} {st : GPXParser.Scan L} (hevent : event ≠ some .END_DOCUMENT)
    (hconv : convertible (n + 1) event s st = true) :
    (∀ tags', readAll n tags s = some (.ok tags') →
        ∃ gpx, GPXParser.parseLoop (n + 1) event s st = some (.returned true gpx)) ∧
      ∀ msg line column, readAll n tags s = some (.error (.fatal msg line column)) →
        ∃ gpx, GPXParser.parseLoop (n + 1) event s st = some (.returned false gpx) := by
  induction n generalizing tags event s st with
  | zero =>
    constructor
    · intro tags' h
      cases h
    · intro msg line column h
      cases h
  | succ n ih =>
    rw [convertible, decide_eq_false hevent, Bool.false_or] at hconv
    rw [readAll, GPXParser.parseLoop, if_neg hevent]
    cases hhandle : GPXParser.handle event s st with
    | none =>
      rw [hhandle] at hconv
      cases hconv
    | some st' =>
      rw [hhandle] at hconv
      simp only at hconv ⊢
      rcases hnext : next s with ⟨e | event', s'⟩
      · simp only
        constructor
        · intro tags' h
          cases h
        · intro msg line column h
          cases h
          exact ⟨st'.gpx, rfl⟩
      · rw [hnext] at hconv
        simp only at hconv ⊢
        by_cases hend : event' = some .END_DOCUMENT
        · rw [if_pos hend]
          constructor
          · intro tags' _
            exact ⟨st'.gpx, by rw [GPXParser.parseLoop, if_pos hend]⟩
          · intro msg line column h
            cases h
        · rw [if_neg hend]
          exact ih _ hend hconv

/-! ## Regular documents -/

/-- The calls are clean.  For `parse`, the value that `event_` happens to hold is not
`END_DOCUMENT`, and no number is malformed. -/
structure Regular (L : GpxLibrary) (event : Option TokenType) (gpx : GPX L) (doc : Str)
    (ns : Bool) : Prop where
  calls : cleanCalls (2 * doc.length + 3) [] (unread event doc ns) = true
  first : ns = false → event ≠ some .END_DOCUMENT
  numbers : ns = false → convertible (2 * doc.length + 4) event (unread event doc false)
    ({ gpx := gpx } : GPXParser.Scan L) = true

/-- **Of the regular documents only balanced ones are accepted.** -/
theorem regular_onlyBalanced {event : Option TokenType} {gpx : GPX L} {doc : Str} {ns : Bool}
    (h : Regular L event gpx doc ns) : OnlyBalanced L event gpx doc ns := by
  have hbalanced (tags : List (Delim Tag)) (hread : reading event doc ns = some (.ok tags)) :
      Delim.Balanced tags := readAll_balanced _ (follows_unread event doc ns) h.calls hread
  have hrejected (hnot : ¬ Accepted event doc ns) :
      ∃ msg line column, reading event doc ns = some (.error (.fatal msg line column)) := by
    rcases reading_defined event doc ns with ⟨tags, hread⟩ | hfatal
    · exact absurd ⟨tags, hread, hbalanced tags hread⟩ hnot
    · exact hfatal
  refine ⟨hbalanced, hrejected, fun hns hnot => ?_⟩
  obtain ⟨msg, line, column, hread⟩ := hrejected hnot
  subst hns
  exact (parseLoop_eq _ [] (h.first rfl) (h.numbers rfl)).2 msg line column hread

/-- Numbers of digits only, and no calendar. -/
def wholeNumbers : GpxLibrary where
  Double := Nat
  zero := 0
  value s :=
    if s.all isdigit then some (s.foldl (fun n c => 10 * n + (c.toNat - 48)) 0) else none
  Tm := Unit
  getTime _ := none
  mktime _ := 0
  gmtime _ := none

/-- A way point, and a line break at the end. -/
def wayPoint : Str := str "<gpx><wpt lat=\"1\" lon=\"2\"/></gpx>\n"

theorem wayPoint_onlyBalanced :
    Accepted none wayPoint false ∧ OnlyBalanced wholeNumbers none {} wayPoint false := by
  have honly : OnlyBalanced wholeNumbers none {} wayPoint false :=
    regular_onlyBalanced ⟨by decide +kernel, by decide, fun _ => by decide +kernel⟩
  have hread : reading none wayPoint false = some (.ok [
      .opening ⟨str "gpx", [], str "gpx"⟩, .opening ⟨str "wpt", [], str "wpt"⟩,
      .closing ⟨str "wpt", [], str "wpt"⟩, .closing ⟨str "gpx", [], str "gpx"⟩]) := by
    decide +kernel
  exact ⟨⟨_, hread, honly.balanced _ hread⟩, honly⟩

/-- A document that is cut off behind its first start tag is accepted, and the tag comes twice. -/
theorem cut_accepted : ¬ OnlyBalanced wholeNumbers none {} (str "<gpx>") false := by
  intro h
  have hread : reading none (str "<gpx>") false = some (.ok [
      .opening ⟨str "gpx", [], str "gpx"⟩, .opening ⟨str "gpx", [], str "gpx"⟩]) := by
    decide +kernel
  have hrun := (Delim.run_eq_nil_iff _).mpr (h.balanced _ hread)
  exact absurd hrun (by decide)

end Wsrv.XmlPullParser
