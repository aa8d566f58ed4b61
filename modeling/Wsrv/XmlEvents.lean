import Wsrv.XmlTags

/-!
# The events of a document

`next` should return the events of a tree in document order and then
`END_DOCUMENT`.  The end of the input is noticed one call late: the call behind
the last end tag finds the byte 255, no token, and returns the end tag again.
So no document is delivered (`not_delivered`).
-/

namespace Wsrv.XmlPullParser

open Effect ReadAheadStreamAdapter

/-! ## Trees -/

/-- What stands between a start tag and its end tag: a text, which may be empty, then an element
with its own content, and so on. -/
inductive Content
  | text (t : Str)
  | element (t name : Str) (attrs : List (Str × Str)) (inner after : Content)

/-- What a caller of `next` sees. -/
inductive XmlEvent
  | startTag (name : Str)
  | endTag (name : Str)
  | text (t : Str)
  | endDocument
  | none
  deriving DecidableEq

namespace Content

def serialise : Content → Str
  | text t => t
  | element t name attrs inner after =>
    t ++ (startTag name attrs ++ (inner.serialise ++ (endTag name ++ after.serialise)))

/-- No event for an empty text. -/
def textEvents (t : Str) : List XmlEvent := if t = [] then [] else [.text t]

/-- The events in document order. -/
def events : Content → List XmlEvent
  | text t => textEvents t
  | element t name _ inner after =>
    textEvents t ++ .startTag name :: (inner.events ++ .endTag name :: after.events)

/-- Names are names, and texts and values are free of markup and references. -/
def Valid : Content → Prop
  | text t => CharData t
  | element t name attrs inner after =>
    CharData t ∧ IsName name ∧ (∀ a ∈ attrs, IsAttribute a) ∧ inner.Valid ∧ after.Valid

end Content

/-- A document that is one element. -/
structure XmlTree where
  name : Str
  attrs : List (Str × Str)
  inner : Content
  isName : IsName name
  isAttribute : ∀ a ∈ attrs, IsAttribute a
  valid : inner.Valid

namespace XmlTree

def serialise (d : XmlTree) : Str :=
  startTag d.name d.attrs ++ (d.inner.serialise ++ (endTag d.name ++ []))

def events (d : XmlTree) : List XmlEvent :=
  .startTag d.name :: (d.inner.events ++ [.endTag d.name, .endDocument])

end XmlTree

/-! ## Calls -/

/-- What a caller sees of an event. -/
def observe (event : Option TokenType) (s : XmlPullParser) : XmlEvent :=
  match event with
  | some .START_TAG => .startTag s.localName
  | some .END_TAG => .endTag s.localName
  | some .TEXT => .text s.text
  | some .END_DOCUMENT => .endDocument
  | _ => .none

/-- What the first `n` calls of `next` give. -/
def calls : Nat → XmlPullParser → List (Except XmlStop XmlEvent)
  | 0, _ => []
  | n + 1, s =>
    match next s with
    | (.ok event, s') => .ok (observe event s') :: calls n s'
    | (.error e, _) => [.error e]

/-- A document is delivered when the calls return its events, each of them once. -/
def Delivered (d : XmlTree) : Prop :=
  calls d.events.length (ofStream d.serialise) = d.events.map .ok

/-- The calls of `next` that return some events. -/
inductive Delivers : XmlPullParser → List XmlEvent → XmlPullParser → Prop
  | nil (s : XmlPullParser) : Delivers s [] s
  | cons {s s' s'' : XmlPullParser} {event : Option TokenType} {l : List XmlEvent}
      (hcall : next s = (.ok event, s')) (h : Delivers s' l s'') :
      Delivers s (observe event s' :: l) s''

theorem Delivers.append {s s' s'' : XmlPullParser} {l l' : List XmlEvent} (h : Delivers s l s')
    (h' : Delivers s' l' s'') : Delivers s (l ++ l') s'' := by
  induction h with
  | nil => exact h'
  | cons hcall _ ih => exact .cons hcall (ih h')

theorem Delivers.calls {s s' : XmlPullParser} {l : List XmlEvent} (h : Delivers s l s') (n : Nat) :
    (calls n s).take l.length = (l.take n).map .ok := by
  induction h generalizing n with
  | nil => simp
  | cons hcall _ ih =>
    cases n with
    | zero => rfl
    | succ n =>
      rw [XmlPullParser.calls, hcall]
      simp [ih]

/-! ## Between two tags -/

/-- The last token was a tag, and this is its event. -/
def Behind (s : XmlPullParser) (tag : XmlEvent) : Prop :=
  s.token = .START_TAG ∧ tag = .startTag s.localName ∨ s.token = .END_TAG ∧ tag = .endTag s.localName

/-- What is delivered for a text behind a tag: the tag again when there is nothing in the text but
carriage returns. -/
def textDelivered (tag : XmlEvent) (t : Str) : List XmlEvent :=
  if delivered t ≠ [] then [.text (delivered t)]
  else if 2 ≤ t.length then [tag]
  else []

theorem lead_iff {t : Str} : Lead t ↔ delivered t = [] ∧ t.length < 2 := by
  match t with
  | [] => simp [Lead, delivered]
  | [c] => by_cases hc : c = CR <;> simp [Lead, delivered, hc]
  | c :: d :: t => simp [Lead]

/-- A call that returns an event. -/
theorem delivers_one {s s' : XmlPullParser} {t e : TokenType} (h : nextToken s = (.ok t, s'))
    (he : TokenType.event? t = some e) {x : XmlEvent} (hx : observe (some e) s' = x) :
    Delivers s [x] { s' with event := some e } := by
  have hobserve : observe (some e) { s' with event := some e } = x := hx
  rw [← hobserve]
  exact .cons (next_event h he) (.nil _)

/-- A call that returns the token of a tag once more. -/
theorem delivers_again {s s' : XmlPullParser} {tag : XmlEvent} (hrun : nextToken s = (.ok s.token, s'))
    (hname : s'.localName = s.localName) (hbehind : Behind s tag) :
    ∃ e, Delivers s [tag] { s' with event := some e } := by
  rcases hbehind with ⟨htag, rfl⟩ | ⟨htag, rfl⟩
  · rw [htag] at hrun
    exact ⟨_, delivers_one hrun rfl (congrArg XmlEvent.startTag hname)⟩
  · rw [htag] at hrun
    exact ⟨_, delivers_one hrun rfl (congrArg XmlEvent.endTag hname)⟩

/-- A text behind a tag. -/
theorem delivers_text {names : List Str} {t r : Str} (ht : CharData t) {s : XmlPullParser}
    (hs : Ready s names (t ++ '<'.toUInt8 :: r)) {tag : XmlEvent} (hbehind : Behind s tag) :
    ∃ s' w, Delivers s (textDelivered tag t) s' ∧ Lead w ∧ Ready s' names (w ++ '<'.toUInt8 :: r) ∧
      s'.token ≠ .START_DOCUMENT := by
  have hstarted : s.token ≠ .START_DOCUMENT := by
    rcases hbehind with ⟨htag, -⟩ | ⟨htag, -⟩ <;> simp [htag]
  unfold textDelivered
  by_cases hlead : Lead t
  · obtain ⟨hnone, hlength⟩ := lead_iff.mp hlead
    rw [if_neg (by simp [hnone]), if_neg (by omega)]
    exact ⟨s, t, .nil s, hlead, hs, hstarted⟩
  · obtain ⟨s₁, hrun, hready, htoken, htext, hname⟩ := readToken_text ht hlead hs
    rw [← nextToken_started hstarted] at hrun
    by_cases hnone : delivered t = []
    · have hlength : 2 ≤ t.length := by
        by_contra hlt
        exact hlead (lead_iff.mpr ⟨hnone, by omega⟩)
      simp only [hnone, ne_eq, not_true_eq_false, if_false] at hrun htoken
      obtain ⟨e, hagain⟩ := delivers_again hrun hname hbehind
      rw [if_neg (by simp [hnone]), if_pos hlength]
      exact ⟨_, [], hagain, .inl rfl, hready.withEvent _, htoken.trans_ne hstarted⟩
    · simp only [hnone, ne_eq, not_false_eq_true, if_true] at hrun htoken
      rw [if_pos hnone]
      refine ⟨_, [], delivers_one hrun rfl (congrArg XmlEvent.text htext), .inl rfl,
        hready.withEvent _, ?_⟩
      simp [htoken]

/-! ## A whole content -/

namespace Content

/-- What is delivered for a content behind a tag. -/
def delivered : Content → XmlEvent → List XmlEvent
  | text t, tag => textDelivered tag t
  | element t name _ inner after, tag =>
    textDelivered tag t ++ .startTag name ::
      (inner.delivered (.startTag name) ++ .endTag name :: after.delivered (.endTag name))

end Content

/-- A start tag is one event. -/
theorem delivers_start {names : List Str} {w name : Str} {attrs : List (Str × Str)} {r : Str}
    (hw : Lead w) (hname : IsName name) (hattrs : ∀ a ∈ attrs, IsAttribute a) {s : XmlPullParser}
    (hs : Ready s names (w ++ (startTag name attrs ++ r))) (hstarted : s.token ≠ .START_DOCUMENT) :
    ∃ s', Delivers s [.startTag name] s' ∧ Ready s' (name :: names) r ∧ Behind s' (.startTag name) := by
  obtain ⟨s₁, hrun, hready, htoken, hlocal⟩ := readToken_start hw hname hattrs hs
  rw [← nextToken_started hstarted] at hrun
  exact ⟨_, delivers_one hrun rfl (congrArg XmlEvent.startTag hlocal), hready.withEvent _,
    .inl ⟨htoken, (congrArg XmlEvent.startTag hlocal).symm⟩⟩

/-- So is an end tag. -/
theorem delivers_end {names : List Str} {w name r : Str} (hw : Lead w) (hname : IsName name)
    {s : XmlPullParser} (hs : Ready s (name :: names) (w ++ (endTag name ++ r)))
    (hstarted : s.token ≠ .START_DOCUMENT) :
    ∃ s', Delivers s [.endTag name] s' ∧ Ready s' names r ∧ Behind s' (.endTag name) := by
  obtain ⟨s₁, hrun, hready, htoken, hlocal⟩ := readToken_end hw hname hs
  rw [← nextToken_started hstarted] at hrun
  exact ⟨_, delivers_one hrun rfl (congrArg XmlEvent.endTag hlocal), hready.withEvent _,
    .inr ⟨htoken, (congrArg XmlEvent.endTag hlocal).symm⟩⟩

/-- The run over a content, up to the end tag behind it. -/
theorem delivers_content (content : Content) (hvalid : content.Valid) {names : List Str} {r : Str}
    {s : XmlPullParser} (hs : Ready s names (content.serialise ++ '<'.toUInt8 :: r)) {tag : XmlEvent}
    (hbehind : Behind s tag) :
    ∃ s' w, Delivers s (content.delivered tag) s' ∧ Lead w ∧
      Ready s' names (w ++ '<'.toUInt8 :: r) ∧ s'.token ≠ .START_DOCUMENT := by
  induction content generalizing names r s tag with
  | text t => exact delivers_text hvalid hs hbehind
  | element t name attrs inner after ihInner ihAfter =>
    obtain ⟨ht, hname, hattrs, hinner, hafter⟩ := hvalid
    -- the text, the start tag, what is inside, the end tag, and what comes behind it
    have htext : Ready s names (t ++ (startTag name attrs ++ (inner.serialise ++
        (endTag name ++ (after.serialise ++ '<'.toUInt8 :: r))))) := by
      simpa only [Content.serialise, List.append_assoc] using hs
    obtain ⟨s₁, w₁, hrun₁, hw₁, hs₁, hstarted₁⟩ := delivers_text ht htext hbehind
    obtain ⟨s₂, hrun₂, hs₂, hbehind₂⟩ := delivers_start hw₁ hname hattrs hs₁ hstarted₁
    obtain ⟨s₃, w₃, hrun₃, hw₃, hs₃, hstarted₃⟩ := ihInner hinner hs₂ hbehind₂
    obtain ⟨s₄, hrun₄, hs₄, hbehind₄⟩ := delivers_end hw₃ hname hs₃ hstarted₃
    obtain ⟨s₅, w₅, hrun₅, hw₅, hs₅, hstarted₅⟩ := ihAfter hafter hs₄ hbehind₄
    exact ⟨s₅, w₅, hrun₁.append (hrun₂.append (hrun₃.append (hrun₄.append hrun₅))), hw₅, hs₅,
      hstarted₅⟩

/-- A whole document, its start tag first. -/
theorem delivers_tree (d : XmlTree) :
    ∃ s, Delivers (ofStream d.serialise)
      (.startTag d.name :: (d.inner.delivered (.startTag d.name) ++ [.endTag d.name])) s ∧
        Ready s [] [] ∧ Behind s (.endTag d.name) := by
  obtain ⟨x, xs, hname⟩ := List.exists_cons_of_ne_nil d.isName.ne
  obtain ⟨hascii, hcr, -, -, -, hquest⟩ := d.isName.chars x (by rw [hname]; exact List.mem_cons_self)
  have hreads : Reads 8 (ofStream d.serialise).cursor d.serialise :=
    ⟨Nat.zero_le _, ⟨[], .nil, rfl⟩, rfl, rfl⟩
  have htext : d.serialise = '<'.toUInt8 :: x :: (xs ++ (d.attrs.flatMap attributeText ++
      ['>'.toUInt8]) ++ (d.inner.serialise ++ (endTag d.name ++ []))) := by
    simp [XmlTree.serialise, startTag, hname]
  obtain ⟨c, hfirst, hc⟩ := nextToken_first (s := ofStream d.serialise) rfl
    (hreads.of_eq htext) ⟨hascii, hcr, hquest⟩
  rw [← htext] at hc
  have hready : Ready { ofStream d.serialise with cursor := c } []
      ([] ++ (startTag d.name d.attrs ++ (d.inner.serialise ++ (endTag d.name ++ [])))) :=
    ⟨hc, rfl, rfl, rfl⟩
  obtain ⟨s₁, hrun₁, hs₁, htoken₁, hname₁⟩ := readToken_start (.inl rfl) d.isName d.isAttribute hready
  rw [← hfirst] at hrun₁
  have hstart := delivers_one hrun₁ rfl (congrArg XmlEvent.startTag hname₁)
  obtain ⟨s₂, w, hrun₂, hw, hs₂, hstarted₂⟩ := delivers_content d.inner d.valid
    (hs₁.withEvent (some .START_TAG)) (.inl ⟨htoken₁, (congrArg XmlEvent.startTag hname₁).symm⟩)
  obtain ⟨s₃, hrun₃, hs₃, hbehind₃⟩ := delivers_end hw d.isName hs₂ hstarted₂
  exact ⟨s₃, hstart.append (hrun₂.append hrun₃), hs₃, hbehind₃⟩

/-! ## One end tag too many -/

def XmlEvent.isEndTag : XmlEvent → Bool
  | .endTag _ => true
  | _ => false

/-- How many end tags there are. -/
def endTags (l : List XmlEvent) : Nat := l.countP XmlEvent.isEndTag

theorem endTags_delivered (content : Content) (tag : XmlEvent) :
    endTags content.events ≤ endTags (content.delivered tag) := by
  have htext (t : Str) : endTags (Content.textEvents t) = 0 := by
    unfold Content.textEvents
    split <;> rfl
  induction content generalizing tag with
  | text t =>
    rw [Content.events, htext]
    exact Nat.zero_le _
  | element t name attrs inner after ihInner ihAfter =>
    have hinner := ihInner (.startTag name)
    have hafter := ihAfter (.endTag name)
    have hnone := htext t
    simp only [Content.events, Content.delivered, endTags, List.countP_append, List.countP_cons]
      at hinner hafter hnone ⊢
    omega

theorem endDocument_not_mem (content : Content) {tag : XmlEvent} (h : tag ≠ .endDocument) :
    .endDocument ∉ content.delivered tag := by
  have htext (t : Str) {tag : XmlEvent} (h : tag ≠ .endDocument) :
      .endDocument ∉ textDelivered tag t := by
    unfold textDelivered
    split_ifs <;> simp [h.symm]
  induction content generalizing tag with
  | text t => exact htext t h
  | element t name attrs inner after ihInner ihAfter =>
    have hinner := @ihInner (.startTag name) (by simp)
    have hafter := @ihAfter (.endTag name) (by simp)
    simp [Content.delivered, htext t h, hinner, hafter]

/-- **No document is delivered**: the calls return one end tag more than there are elements. -/
theorem not_delivered (d : XmlTree) : ¬ Delivered d := by
  intro h
  obtain ⟨s₁, hrun₁, hs₁, hbehind₁⟩ := delivers_tree d
  have hstarted : s₁.token ≠ .START_DOCUMENT := by
    rcases hbehind₁ with ⟨htag, -⟩ | ⟨htag, -⟩ <;> simp [htag]
  obtain ⟨s₂, hrun₂, -, hname₂⟩ := readToken_last hs₁
  rw [← nextToken_started hstarted] at hrun₂
  obtain ⟨e, hagain⟩ := delivers_again hrun₂ hname₂ hbehind₁
  have hrun := hrun₁.append hagain
  generalize hreturned : XmlEvent.startTag d.name :: (d.inner.delivered (.startTag d.name) ++
    [.endTag d.name]) ++ [.endTag d.name] = returned at hrun
  have hcalls := hrun.calls d.events.length
  rw [show calls _ _ = _ from h, ← List.map_take] at hcalls
  have htake : d.events.take returned.length = returned.take d.events.length :=
    List.map_injective_iff.mpr (fun _ _ => Except.ok.inj) hcalls
  rcases Nat.lt_or_ge d.events.length returned.length with hlt | hge
  · -- the end of the document would be among the events
    rw [List.take_of_length_le (by omega)] at htake
    have hmem : XmlEvent.endDocument ∈ returned := by
      refine List.mem_of_mem_take (i := d.events.length) ?_
      rw [← htake]
      simp [XmlTree.events]
    rw [← hreturned] at hmem
    have hnone := @endDocument_not_mem d.inner (.startTag d.name) (by simp)
    simp [hnone] at hmem
  · rw [List.take_of_length_le hge] at htake
    have hcount : endTags returned ≤ endTags d.events := by
      rw [← htake]
      exact (List.take_sublist _ _).countP_le
    have hinner := endTags_delivered d.inner (.startTag d.name)
    rw [← hreturned] at hcount
    simp only [XmlTree.events, endTags, List.countP_append, List.countP_cons, List.countP_nil,
      XmlEvent.isEndTag, if_true, Bool.false_eq_true, if_false] at hcount hinner
    omega

/-- `<a></a>`. -/
def emptyTree : XmlTree where
  name := str "a"
  attrs := []
  inner := .text []
  isName := ⟨by decide, by decide⟩
  isAttribute := by simp
  valid := by simp [Content.Valid, CharData]

/-- The end tag comes twice. -/
theorem end_tag_twice :
    calls 4 (ofStream emptyTree.serialise) =
        [.ok (.startTag (str "a")), .ok (.endTag (str "a")), .ok (.endTag (str "a")), .ok .endDocument] ∧
      ¬ Delivered emptyTree := by
  have hcalls : calls 4 (ofStream emptyTree.serialise) =
      [.ok (.startTag (str "a")), .ok (.endTag (str "a")), .ok (.endTag (str "a")), .ok .endDocument] := by
    decide +kernel
  have hthree : ¬ Delivered emptyTree := by
    unfold Delivered
    decide +kernel
  exact ⟨hcalls, hthree⟩

end Wsrv.XmlPullParser
