import Wsrv.XmlPullParser

/-!
# Comments, sections, instructions and document types

`parseMarkup` tries `parseStartElement` first, and that parser does not decline
at a `!` or a `?`: it looks for a name and throws.  So no comment, no CDATA
section, no processing instruction and no document type behind the XML
declaration is ever recognised (`recognised_iff`).
-/

namespace Wsrv.XmlPullParser

open Effect ReadAheadStreamAdapter

/-! ## Documents -/

/-- What `nextToken` should tell apart. -/
inductive Construct
  | comment | cdata | instruction | docType
  deriving DecidableEq

namespace Construct

def opening : Construct → Str
  | comment => str "<!--"
  | cdata => str "<![CDATA["
  | instruction => str "<?"
  | docType => str "<!DOCTYPE"

def closing : Construct → Str
  | comment => str "-->"
  | cdata => str "]]>"
  | instruction => str "?>"
  | docType => str ">"

def token : Construct → TokenType
  | comment => .COMMENT
  | cdata => .CDSECT
  | instruction => .PROCESSING_INSTRUCTION
  | docType => .DOCDECL

end Construct

/-- A part of a document: a construct with its content, or anything else. -/
inductive Item
  | construct (k : Construct) (content : Str)
  | other (text : Str)

def Item.text : Item → Str
  | construct k content => k.opening ++ content ++ k.closing
  | other text => text

/-- A document: the XML declaration, which may be missing, and what follows it. -/
structure XmlDocument where
  declaration : Str
  items : List Item

def textOf (items : List Item) : Str := items.flatMap Item.text

def XmlDocument.text (d : XmlDocument) : Str := d.declaration ++ textOf d.items

/-! ## Runs -/

/-- The states between the calls of `nextToken` on a document. -/
inductive Reaches (doc : Str) (ns : Bool) : XmlPullParser → Prop
  | start : Reaches doc ns (ofStream doc ns)
  | call {s s' : XmlPullParser} {t : TokenType} (h : Reaches doc ns s)
      (hcall : nextToken s = (.ok t, s')) : Reaches doc ns s'

/-- A call of `nextToken` begins to read a token at the text `r`. -/
def Begins (s : XmlPullParser) (r : Str) : Prop :=
  ∃ s₁, parseProlog s = (.ok (), s₁) ∧ s₁.cursor.Remains r

/-- The call of `nextToken` returns the construct, and a call of `next` skips it or delivers the
content of a CDATA section as text. -/
structure Recognised (k : Construct) (content : Str) (s s' : XmlPullParser) : Prop where
  token : nextToken s = (.ok k.token, s')
  skipped : k ≠ .cdata → next s = next s'
  delivered : k = .cdata → ∃ s'', next s = (.ok (some .TEXT), s'') ∧ s''.text = content

/-- Every construct of a document is recognised. -/
def RecognisesAll (ns : Bool) (d : XmlDocument) : Prop :=
  ∀ before k content after, d.items = before ++ .construct k content :: after →
    ∃ s s', Reaches d.text ns s ∧ Begins s (k.opening ++ content ++ k.closing ++ textOf after) ∧
      Recognised k content s s'

/-! ## Where a construct begins -/

theorem onCursor_ok {α : Type} {x : Cursor α} {s : XmlPullParser} {a : α}
    {c : ReadAheadStreamAdapter} (h : x s.cursor = (.ok a, c)) :
    onCursor x s = (.ok a, { s with cursor := c }) := by
  rw [onCursor, h]

theorem onCursor_error {α : Type} {x : Cursor α} {s : XmlPullParser} {e : XmlStop}
    {c : ReadAheadStreamAdapter} (h : x s.cursor = (.error e, c)) :
    onCursor x s = (.error e, { s with cursor := c }) := by
  rw [onCursor, h]

/-- The characters that follow the `<` of a construct. -/
def IsMark (x : UInt8) : Prop := x = '!'.toUInt8 ∨ x = '?'.toUInt8

theorem IsMark.facts {x : UInt8} (h : IsMark x) :
    x ≠ CR ∧ x < 128 ∧ x ≠ '/'.toUInt8 ∧ isWhite x.toNat = false ∧ isValidNameChar x 0 = false := by
  rcases h with rfl | rfl <;> decide

/-- No white space is skipped before a mark. -/
theorem skipWhite_mark {c : ReadAheadStreamAdapter} {x : UInt8} {r : Str} (hx : IsMark x)
    (h : c.Remains (x :: r)) : (∃ e c', skipWhite c = (.error e, c')) ∨
      ∃ c', skipWhite c = (.ok (), c') ∧ c'.Remains (x :: r) ∧ c'.eof = c.eof := by
  obtain ⟨hcr, hascii, -, hwhite, -⟩ := hx.facts
  obtain ⟨c₁, hread, hrest, -, heof, -⟩ := read_ascii h (.inl ⟨rfl, hcr, rfl⟩) hascii
  have hrun : skipWhite c = putback x c₁ := by
    unfold skipWhite sized
    rw [bind_ok (get_run c), size, skipWhiteLoop, bind_ok hread, ite_run, if_neg (by omega),
      bind_ok (get_run c₁), hwhite, Bool.and_false, if_neg Bool.false_ne_true, toByte_toNat]
  rw [hrun]
  rcases putback_remains hrest (.inl ⟨rfl, hcr⟩) with ⟨-, hfull⟩ | ⟨c₂, hback, hrest₂, -, heof₂, -⟩
  · exact .inl ⟨_, _, hfull⟩
  · exact .inr ⟨c₂, hback, hrest₂, heof₂.trans heof⟩

/-- There is no name at a mark. -/
theorem parseName_mark {c : ReadAheadStreamAdapter} {x : UInt8} {r : Str} (hx : IsMark x)
    (h : c.Remains (x :: r)) (heof : c.eof = false) : (∃ e c', parseName c = (.error e, c')) ∨
      ∃ c', parseName c = (.ok [], c') := by
  obtain ⟨hcr, hascii, -, -, hname⟩ := hx.facts
  obtain ⟨c₁, hread, hrest, -⟩ := read_ascii h (.inl ⟨rfl, hcr, rfl⟩) hascii
  have hnext : ReadAheadStreamAdapter.next c = (.ok (some x), c₁) := by
    unfold ReadAheadStreamAdapter.next
    rw [bind_ok (get_run c), heof]
    simp only [Bool.false_eq_true, if_false]
    rw [bind_ok hread, toByte_toNat]
    rfl
  have hsize : c.size = c.readAhead.length + c.input.length + 1 + 1 := rfl
  unfold parseName sized
  rw [bind_ok (get_run c), hsize]
  beta_reduce
  rw [whileNext, bind_ok hnext]
  simp only [List.length_nil, hname, Bool.false_eq_true, if_false]
  rcases putback_remains hrest (.inl ⟨rfl, hcr⟩) with ⟨-, hfull⟩ | ⟨c₂, hback, -⟩
  · rw [bind_error (bind_error hfull)]
    exact .inl ⟨_, _, rfl⟩
  · have hbody : (do
        putback x
        return (false, ([] : Str)) : Cursor (Bool × Str)) c₁ = (.ok (false, []), c₂) := bind_ok hback
    rw [bind_ok hbody]
    exact .inr ⟨_, rfl⟩

/-- `parseStartElement` throws at a mark. -/
theorem parseStartElement_mark {s : XmlPullParser} {x : UInt8} {r : Str} (hx : IsMark x)
    (h : s.cursor.Remains (x :: r)) (heof : s.cursor.eof = false) :
    ∃ e s', parseStartElement s = (.error e, s') := by
  obtain ⟨hcr, hascii, hslash, -⟩ := hx.facts
  have hpeek : onCursor peek s = (.ok (toChar x), s) := onCursor_ok (peek_remains h hcr)
  have hdecline : ¬ (toChar x < 0 ∨ toChar x = '/'.toNat) := by
    rw [toChar_ascii hascii]
    rintro (hneg | heq)
    · omega
    · exact hslash (UInt8.toNat_inj.mp (by exact_mod_cast heq))
  unfold parseStartElement
  rw [bind_ok hpeek, if_neg hdecline]
  rcases skipWhite_mark hx h with ⟨e, c', hskip⟩ | ⟨c', hskip, hrest, heof'⟩
  · exact ⟨e, _, bind_error (onCursor_error hskip)⟩
  · rw [bind_ok (onCursor_ok hskip)]
    rcases parseName_mark hx hrest (heof'.trans heof) with ⟨e, c'', hname⟩ | ⟨c'', hname⟩
    · exact ⟨e, _, bind_error (onCursor_error hname)⟩
    · rw [bind_ok (onCursor_ok hname), bind_ok (modify_run _ _), if_pos rfl]
      exact ⟨_, _, bind_ok (get_run _)⟩

/-- No call returns a construct that it begins to read. -/
theorem readToken_mark {s : XmlPullParser} {x : UInt8} {r : Str} (hx : IsMark x)
    (h : s.cursor.Remains ('<'.toUInt8 :: x :: r)) {t : TokenType} {s' : XmlPullParser}
    (hrun : readToken s = (.ok t, s')) : t = .END_TAG ∨ t = .END_DOCUMENT := by
  unfold readToken at hrun
  rw [bind_ok (get_run s)] at hrun
  split at hrun
  · rw [bind_ok (modify_run _ s)] at hrun
    exact .inl (Except.ok.inj (Prod.mk.inj hrun).1).symm
  · by_cases heof : s.cursor.eof = true
    · have hnext : ReadAheadStreamAdapter.next s.cursor = (.ok none, s.cursor) := by
        unfold ReadAheadStreamAdapter.next
        rw [bind_ok (get_run s.cursor), if_pos heof]
        rfl
      rw [bind_ok (onCursor_ok hnext)] at hrun
      exact .inr (Except.ok.inj (Prod.mk.inj hrun).1).symm
    · obtain ⟨c₁, hread, hrest, -, heof₁, -⟩ :=
        read_ascii h (.inl ⟨rfl, by decide, rfl⟩) (by decide)
      have hnext : ReadAheadStreamAdapter.next s.cursor = (.ok (some '<'.toUInt8), c₁) := by
        unfold ReadAheadStreamAdapter.next
        rw [bind_ok (get_run s.cursor), if_neg heof, bind_ok hread, toByte_toNat]
        rfl
      obtain ⟨e, s₂, hthrow⟩ := parseStartElement_mark (s := { s with cursor := c₁ }) hx hrest
        (heof₁.trans (by simpa using heof))
      rw [bind_ok (onCursor_ok hnext)] at hrun
      simp only [if_true] at hrun
      unfold parseMarkup at hrun
      rw [bind_error hthrow] at hrun
      cases hrun

theorem Construct.opening_mark (k : Construct) :
    ∃ x r, k.opening = '<'.toUInt8 :: x :: r ∧ IsMark x := by
  cases k
  · exact ⟨_, _, rfl, .inl rfl⟩
  · exact ⟨_, _, rfl, .inl rfl⟩
  · exact ⟨_, _, rfl, .inr rfl⟩
  · exact ⟨_, _, rfl, .inl rfl⟩

theorem not_recognised {k : Construct} {content rest : Str} {s s' : XmlPullParser}
    (h : Begins s (k.opening ++ content ++ k.closing ++ rest)) : ¬ Recognised k content s s' := by
  intro hrecognised
  obtain ⟨x, r, hopening, hx⟩ := k.opening_mark
  obtain ⟨s₁, hprolog, hremains⟩ := h
  have hrun := hrecognised.token
  unfold nextToken at hrun
  rw [bind_ok hprolog] at hrun
  rw [hopening] at hremains
  rcases readToken_mark hx hremains hrun with htoken | htoken <;> cases k <;> cases htoken

/-- **A document has all its constructs recognised only when it has none.** -/
theorem recognised_iff (ns : Bool) (d : XmlDocument) :
    RecognisesAll ns d ↔ ∀ k content, .construct k content ∉ d.items := by
  constructor
  · intro h k content hmem
    obtain ⟨before, after, hsplit⟩ := List.append_of_mem hmem
    obtain ⟨s, s', -, hbegins, hrecognised⟩ := h before k content after hsplit
    exact not_recognised hbegins hrecognised
  · intro h before k content after hsplit
    exact absurd (hsplit ▸ List.mem_append_right _ List.mem_cons_self) (h k content)

/-- `<?xml version="1.0"?><!-- c --><a></a>`. -/
def commentDocument : XmlDocument where
  declaration := str "<?xml version=\"1.0\"?>"
  items := [.construct .comment (str " c "), .other (str "<a></a>")]

/-- A comment behind the XML declaration is taken for a start tag without a name. -/
theorem comment_throws :
    ¬ RecognisesAll false commentDocument ∧
      (nextToken (ofStream commentDocument.text)).1 =
        .error (.fatal (str "Error parsing start element name") 1 23) := by
  refine ⟨fun h => ?_, by decide +kernel⟩
  obtain ⟨s, s', -, hbegins, hrecognised⟩ := h [] .comment (str " c ") [.other (str "<a></a>")] rfl
  exact not_recognised hbegins hrecognised

end Wsrv.XmlPullParser
