import Wsrv.XmlTags

/-!
# An element, written and read

An element with attributes and a text, written with the five predefined entities
and any white space between the parts of its tags, is read back by the first
three calls of `next` (`element_roundTrip`).  The values and the text may be of
any bytes: a carriage return, which the cursor steps over, is written by its
number.
-/

namespace Wsrv

namespace XmlPullParser

open Effect ReadAheadStreamAdapter

/-! ## Writing -/

/-- The name of the entity for a character, or the number of a carriage return. -/
def entity? (c : UInt8) : Option Str :=
  if c = '&'.toUInt8 then some (str "amp")
  else if c = '<'.toUInt8 then some (str "lt")
  else if c = '>'.toUInt8 then some (str "gt")
  else if c = '"'.toUInt8 then some (str "quot")
  else if c = '\''.toUInt8 then some (str "apos")
  else if c = CR then some (str "#13")
  else none

def escapeChar (c : UInt8) : Str :=
  match entity? c with
  | some name => '&'.toUInt8 :: (name ++ [';'.toUInt8])
  | none => [c]

def escape (s : Str) : Str := s.flatMap escapeChar

/-- A run of spaces, tabs and line feeds. -/
def White (w : Str) : Prop := ∀ c ∈ w, c = ' '.toUInt8 ∨ c = '\t'.toUInt8 ∨ c = LF

/-- An attribute, with what is white in front of it and around its equals sign. -/
structure Attribute where
  before : Str
  name : Str
  beforeEq : Str
  afterEq : Str
  value : Str
  isName : IsName name
  white : White before ∧ White beforeEq ∧ White afterEq

namespace Attribute

def serialise (a : Attribute) : Str :=
  a.before ++ (a.name ++ (a.beforeEq ++ '='.toUInt8 ::
    (a.afterEq ++ '"'.toUInt8 :: (escape a.value ++ ['"'.toUInt8]))))

def pair (a : Attribute) : Str × Str := (a.name, a.value)

end Attribute

/-- An element with a text, with what is white around its names. -/
structure XmlElement where
  name : Str
  attrs : List Attribute
  text : Str
  beforeName : Str
  behindAttrs : Str
  beforeEnd : Str
  behindEnd : Str
  isName : IsName name
  distinct : (attrs.map Attribute.name).Nodup
  /-- The first attribute is not a part of the name. -/
  apart : ∀ a, attrs.head? = some a → a.before ≠ []
  text_ne : text ≠ []
  white : White beforeName ∧ White behindAttrs ∧ White beforeEnd ∧ White behindEnd

namespace XmlElement

/-- Behind the text. -/
def closing (e : XmlElement) : Str :=
  '<'.toUInt8 :: '/'.toUInt8 :: (e.beforeEnd ++ (e.name ++ (e.behindEnd ++ ['>'.toUInt8])))

/-- Behind the first character. -/
def opening (e : XmlElement) : Str :=
  e.beforeName ++ (e.name ++ (e.attrs.flatMap Attribute.serialise ++
    (e.behindAttrs ++ ['>'.toUInt8])))

def serialise (e : XmlElement) : Str :=
  '<'.toUInt8 :: (e.opening ++ (escape e.text ++ e.closing))

end XmlElement

/-! ## Entities -/

/-- `escapeLoop` reads up to the semicolon. -/
theorem escapeLoop_gives {n m : Nat} {q r : Str} (hq : ∀ c ∈ q, c ≠ CR ∧ c ≠ ';'.toUInt8)
    (hn : q.length ≤ n) (acc : Str) : Gives m m (escapeLoop n acc) (q ++ ';'.toUInt8 :: r) (acc ++ q) r := by
  induction q generalizing n acc with
  | nil =>
    rw [List.append_nil]
    have hsemicolon : Gives m m ReadAheadStreamAdapter.next (';'.toUInt8 :: r) (some ';'.toUInt8) r :=
      (Gives.next (by decide)).mono le_rfl (Nat.sub_le m 1)
    cases n with
    | zero => exact hsemicolon.bind (.pure _ le_rfl)
    | succ n => exact hsemicolon.bind (.pure _ le_rfl)
  | cons c q ih =>
    rw [List.length_cons] at hn
    obtain ⟨n, rfl⟩ := Nat.exists_eq_succ_of_ne_zero (n := n) (by omega)
    rw [List.forall_mem_cons] at hq
    have hrest := ih (n := n) hq.2 (by omega) (acc ++ [c])
    rw [List.append_assoc, List.singleton_append] at hrest
    have hbody : Gives (m - 1) m (if c = ';'.toUInt8 then return acc else escapeLoop n (acc ++ [c]))
        (q ++ ';'.toUInt8 :: r) (acc ++ c :: q) r := by
      rw [if_neg hq.1.2]
      exact hrest.mono (by omega) le_rfl
    exact (Gives.next hq.1.1).bind hbody

/-- The names are those that `escapeString` knows. -/
theorem entity_facts {c : UInt8} {name : Str} (h : entity? c = some name) :
    reference name = some [c] ∧ name.length ≤ 5 ∧ (∀ x ∈ name, x ≠ CR ∧ x ≠ ';'.toUInt8) := by
  unfold entity? at h
  split_ifs at h with h₁ h₂ h₃ h₄ h₅ h₆
  all_goals
    obtain rfl := Option.some.inj h
    subst_vars
    exact ⟨by decide +kernel, by decide, by decide +kernel⟩

theorem entity_none {c : UInt8} (h : entity? c = none) :
    c ≠ '&'.toUInt8 ∧ c ≠ '<'.toUInt8 ∧ c ≠ '"'.toUInt8 ∧ c ≠ CR := by
  unfold entity? at h
  split_ifs at h with h₁ h₂ h₃ h₄ h₅ h₆
  exact ⟨h₁, h₂, h₄, h₆⟩

theorem escapeString_gives {m : Nat} {c : UInt8} {name r : Str} (h : entity? c = some name) :
    Gives m m escapeString (name ++ ';'.toUInt8 :: r) (some [c]) r := by
  obtain ⟨hreference, hlength, hname⟩ := entity_facts h
  have hloop : Gives m m (escapeLoop 5 []) (name ++ ';'.toUInt8 :: r) name r :=
    escapeLoop_gives hname hlength []
  refine hloop.bind ?_
  rw [hreference]
  exact .pure _ le_rfl

theorem escape_cons (c : UInt8) (s : Str) : escape (c :: s) = escapeChar c ++ escape s :=
  List.flatMap_cons

/-- A character and the rest, as a loop reads them. -/
theorem escape_next (c : UInt8) (s r : Str) :
    (entity? c = none ∧ escape (c :: s) ++ r = c :: (escape s ++ r)) ∨
      ∃ name, entity? c = some name ∧
        escape (c :: s) ++ r = '&'.toUInt8 :: (name ++ ';'.toUInt8 :: (escape s ++ r)) := by
  rw [escape_cons, escapeChar]
  cases h : entity? c with
  | none => exact .inl ⟨rfl, rfl⟩
  | some name => exact .inr ⟨name, rfl, by simp⟩

/-! ## Values -/

theorem valueStep_entity {c : UInt8} {scan : ValueScan} {name r : Str} (h : entity? c = some name) :
    Gives 7 8 (valueStep '"'.toUInt8 '&'.toUInt8 scan) (name ++ ';'.toUInt8 :: r)
      (true, { scan with last := '&'.toUInt8, val := scan.val ++ [c] }) r := by
  unfold valueStep
  rw [if_pos rfl]
  exact (escapeString_gives h).bind (.pure _ (by omega))

/-- A value up to its quote. -/
theorem escapedValue_gives {v r : Str} {k : Nat} (hk : v.length + 1 ≤ k) (scan : ValueScan) :
    Gives 8 8 (whileNext (valueStep '"'.toUInt8) k scan) (escape v ++ '"'.toUInt8 :: r)
      { scan with last := '"'.toUInt8, val := scan.val ++ v } r := by
  induction v generalizing scan k with
  | nil =>
    obtain ⟨k, rfl⟩ := Nat.exists_eq_succ_of_ne_zero (n := k) (by omega)
    exact Gives.whileNext_stop (.next (by decide)) (valueStep_stop (by omega))
  | cons c v ih =>
    rw [List.length_cons] at hk
    obtain ⟨k, rfl⟩ := Nat.exists_eq_succ_of_ne_zero (n := k) (by omega)
    have hrest (last : UInt8) : Gives 8 8 (whileNext (valueStep '"'.toUInt8) k
        { scan with last := last, val := scan.val ++ [c] }) (escape v ++ '"'.toUInt8 :: r)
        { scan with last := '"'.toUInt8, val := scan.val ++ c :: v } r := by
      have hgo := ih (k := k) (by omega)
        { scan with last := last, val := scan.val ++ [c] }
      simp only [List.append_assoc, List.singleton_append] at hgo
      exact hgo
    rcases escape_next c v ('"'.toUInt8 :: r) with ⟨hnone, htext⟩ | ⟨name, hname, htext⟩
    · obtain ⟨hamp, hlt, hquote, hcr⟩ := entity_none hnone
      rw [htext]
      exact Gives.whileNext_go (.next hcr) (valueStep_go ⟨hlt, hamp, hquote⟩ (by omega)) (hrest c)
    · rw [htext]
      exact (Gives.next (by decide)).bind ((valueStep_entity hname).bind (hrest _))

theorem escape_carriage (v : Str) : CR ∉ escape v := by
  intro hm
  obtain ⟨c, hc, hm⟩ := List.mem_flatMap.mp hm
  unfold escapeChar at hm
  split at hm
  · rename_i name hname
    rcases List.mem_cons.mp hm with h | hm
    · exact absurd h (by decide)
    · rcases List.mem_append.mp hm with hm | hm
      · exact ((entity_facts hname).2.2 CR hm).1 rfl
      · exact absurd (List.mem_singleton.mp hm) (by decide)
  · rename_i hnone
    exact (entity_none hnone).2.2.2 (List.mem_singleton.mp hm).symm

theorem length_le_escape (v : Str) : v.length ≤ (escape v).length := by
  induction v with
  | nil => exact le_rfl
  | cons c v ih =>
    have hone : 1 ≤ (escapeChar c).length := by
      unfold escapeChar
      split <;> simp
    rw [escape_cons, List.length_append, List.length_cons]
    omega

/-- The turns that a text takes are no more than there are characters. -/
theorem escape_turns (v : Str) {c : UInt8} (hc : c ≠ CR) (r : Str) :
    v.length + 1 ≤ (uncarried (escape v ++ c :: r)).length := by
  have hlength := length_le_escape v
  have huncarried := length_le_uncarried_append (escape v) c r hc
  rw [uncarried_eq_self (escape_carriage v)] at huncarried
  omega

theorem parseAttributeValue_escaped (v r : Str) :
    Gives 8 8 parseAttributeValue ('"'.toUInt8 :: (escape v ++ '"'.toUInt8 :: r)) (true, v) r := by
  refine (Gives.next (by decide)).bind ?_
  have hloop : Gives 7 8 (sized fun k => whileNext (valueStep '"'.toUInt8) k { last := '"'.toUInt8 })
      (escape v ++ '"'.toUInt8 :: r) { last := '"'.toUInt8, val := v } r := by
    refine .sized fun k hk => ?_
    have hturns := escape_turns v (c := '"'.toUInt8) (by decide) r
    exact (escapedValue_gives (by omega) _).mono (by omega) le_rfl
  exact hloop.bind (.pure _ le_rfl)

/-! ## White space -/

theorem White.skip {w : Str} (hw : White w) {c : UInt8}
    (hc : c < 128 ∧ c ≠ CR ∧ isWhite c.toNat = false) (r : Str) :
    Gives 8 8 skipWhite (w ++ c :: r) () (c :: r) := by
  refine Gives.skipWhite (fun x hx => ?_) hc.1 hc.2.1 hc.2.2
  rcases hw x hx with rfl | rfl | rfl <;> decide

theorem White.skipName {w : Str} (hw : White w) {name : Str} (hname : IsName name) (r : Str) :
    Gives 8 8 skipWhite (w ++ (name ++ r)) () (name ++ r) := by
  obtain ⟨c, cs, rfl⟩ := List.exists_cons_of_ne_nil hname.ne
  obtain ⟨hascii, hcr, hwhite, -⟩ := hname.chars c List.mem_cons_self
  exact hw.skip ⟨hascii, hcr, hwhite⟩ _

theorem White.endsName {c : UInt8} (hc : c = ' '.toUInt8 ∨ c = '\t'.toUInt8 ∨ c = LF) :
    EndsName c := by
  rcases hc with rfl | rfl | rfl <;> decide

/-- A name ends in front of white space and in front of a mark. -/
theorem White.parseName {w : Str} (hw : White w) {name : Str} (hname : IsName name) {c : UInt8}
    (hc : EndsName c) (r : Str) :
    Gives 8 8 parseName (name ++ (w ++ c :: r)) name (w ++ c :: r) := by
  cases w with
  | nil => exact hname.parseName hc r
  | cons x w => exact hname.parseName (White.endsName (hw x List.mem_cons_self)) _

/-! ## Attributes -/

/-- What follows the attributes, where the tag ends with `c`. -/
def restTo (c : UInt8) (as : List Attribute) (w r : Str) : Str :=
  as.flatMap Attribute.serialise ++ (w ++ c :: r)

/-- What follows the attributes. -/
def rest (as : List Attribute) (w r : Str) : Str :=
  as.flatMap Attribute.serialise ++ (w ++ '>'.toUInt8 :: r)

/-- The end of a start tag or of an empty one. -/
def EndsTag (c : UInt8) : Prop := c = '/'.toUInt8 ∨ c = '>'.toUInt8

theorem EndsTag.facts {c : UInt8} (h : EndsTag c) :
    (c < 128 ∧ c ≠ CR ∧ isWhite c.toNat = false) ∧ isValidNameChar c 0 = false ∧ EndsName c := by
  rcases h with rfl | rfl <;> decide

theorem restTo_cons (c : UInt8) (a : Attribute) (as : List Attribute) (w r : Str) :
    restTo c (a :: as) w r = a.before ++ (a.name ++ (a.beforeEq ++ '='.toUInt8 :: (a.afterEq ++
      '"'.toUInt8 :: (escape a.value ++ '"'.toUInt8 :: restTo c as w r)))) := by
  simp [restTo, Attribute.serialise]

theorem length_le_rest (c : UInt8) (as : List Attribute) (w r : Str) :
    as.length ≤ (uncarried (restTo c as w r)).length := by
  induction as with
  | nil => exact Nat.zero_le _
  | cons a as ih =>
    have hsplit : restTo c (a :: as) w r = (a.before ++ (a.name ++ (a.beforeEq ++ '='.toUInt8 ::
        (a.afterEq ++ '"'.toUInt8 :: escape a.value)))) ++ '"'.toUInt8 :: restTo c as w r := by
      simp [restTo, Attribute.serialise]
    rw [hsplit, uncarried_append _ (by decide), List.length_append, List.length_cons,
      List.length_cons]
    omega

/-- The loop over the attributes stands in front of a name. -/
theorem attributeLoop_escaped {c : UInt8} (hc : EndsTag c) {a : Attribute} {as : List Attribute}
    {w : Str} (hw : White w) {k : Nat} (hk : as.length + 1 ≤ k) (attrs : Dictionary) (r : Str) :
    Gives 8 8 (attributeLoop k attrs)
      (a.name ++ (a.beforeEq ++ '='.toUInt8 :: (a.afterEq ++
        '"'.toUInt8 :: (escape a.value ++ '"'.toUInt8 :: restTo c as w r))))
      (some true, ((a :: as).map Attribute.pair).foldl (fun d kv => d.insertIfNew kv.1 kv.2) attrs)
      (c :: r) := by
  induction as generalizing a k attrs with
  | nil =>
    obtain ⟨k, rfl⟩ := Nat.exists_eq_succ_of_ne_zero (n := k) (by omega)
    refine (a.white.2.1.parseName a.isName (by decide) _).bind ?_
    rw [if_neg a.isName.ne]
    refine (a.white.2.1.skip (by decide) _).bind ((expect_one (by decide) _).bind ?_)
    rw [if_neg (by simp)]
    refine (a.white.2.2.skip (by decide) _).bind ((parseAttributeValue_escaped a.value _).bind ?_)
    refine (hw.skip hc.facts.1 r).bind ((Gives.peek ⟨hc.facts.1.1, hc.facts.1.2.1⟩).bind ?_)
    have hends : (c.toNat : Int) = '/'.toNat ∨ (c.toNat : Int) = '>'.toNat ∨ (c.toNat : Int) = '?'.toNat := by
      rcases hc with rfl | rfl
      · exact .inl rfl
      · exact .inr (.inl rfl)
    rw [if_pos hends]
    exact .pure _ le_rfl
  | cons b as ih =>
    rw [List.length_cons] at hk
    obtain ⟨k, rfl⟩ := Nat.exists_eq_succ_of_ne_zero (n := k) (by omega)
    have hrest := ih (a := b) (k := k) (by omega) (attrs.insertIfNew a.name a.value)
    obtain ⟨x, hpeek, hslash, hgt, hquest⟩ := b.isName.peek (b.beforeEq ++ '='.toUInt8 ::
      (b.afterEq ++ '"'.toUInt8 :: (escape b.value ++ '"'.toUInt8 :: restTo c as w r)))
    refine (a.white.2.1.parseName a.isName (by decide) _).bind ?_
    rw [if_neg a.isName.ne]
    refine (a.white.2.1.skip (by decide) _).bind ((expect_one (by decide) _).bind ?_)
    rw [if_neg (by simp)]
    refine (a.white.2.2.skip (by decide) _).bind ((parseAttributeValue_escaped a.value _).bind ?_)
    rw [restTo_cons]
    refine (b.white.1.skipName b.isName _).bind (hpeek.bind ?_)
    rw [if_neg]
    · exact Gives.unless_fail hrest
    · rintro (heq | heq | heq)
      · exact hslash (UInt8.toNat_inj.mp (by exact_mod_cast heq))
      · exact hgt (UInt8.toNat_inj.mp (by exact_mod_cast heq))
      · exact hquest (UInt8.toNat_inj.mp (by exact_mod_cast heq))

/-- The parts of a tag behind its name. -/
theorem attributes_escaped {c : UInt8} (hc : EndsTag c) (as : List Attribute) {w : Str} (hw : White w)
    (r : Str) :
    ∃ text res, Gives 8 8 skipWhite (restTo c as w r) () text ∧
      Gives 8 8 (sized fun n => attributeLoop n ∅) text res (c :: r) ∧ res.1 ≠ none ∧
        res.2 = (as.map Attribute.pair).foldl (fun d kv => d.insertIfNew kv.1 kv.2) ∅ := by
  cases as with
  | nil =>
    exact ⟨c :: r, (some false, ∅), hw.skip hc.facts.1 r,
      noAttributes ⟨hc.facts.1.1, hc.facts.1.2.1, hc.facts.2.1⟩ r, by simp, rfl⟩
  | cons a as =>
    rw [restTo_cons]
    refine ⟨_, _, a.white.1.skipName a.isName _,
      .sized fun k hk => attributeLoop_escaped hc hw ?_ ∅ r, by simp, rfl⟩
    have hlength := length_le_rest c as w r
    have hsplit := uncarried_append (a.name ++ (a.beforeEq ++ '='.toUInt8 :: (a.afterEq ++
      '"'.toUInt8 :: escape a.value))) (c := '"'.toUInt8) (by decide) (restTo c as w r)
    simp only [List.append_assoc, List.cons_append] at hsplit
    rw [hsplit, List.length_append, List.length_cons] at hk
    omega

theorem rest_endsName {c : UInt8} (hc : EndsTag c) {as : List Attribute}
    (h : ∀ a, as.head? = some a → a.before ≠ []) {w : Str} (hw : White w) (r : Str) :
    ∃ x text, restTo c as w r = x :: text ∧ EndsName x := by
  cases as with
  | nil =>
    cases w with
    | nil => exact ⟨_, _, rfl, hc.facts.2.2⟩
    | cons x w => exact ⟨_, _, rfl, White.endsName (hw x List.mem_cons_self)⟩
  | cons a as =>
    obtain ⟨x, xs, hbefore⟩ := List.exists_cons_of_ne_nil (h a rfl)
    rw [restTo_cons, hbefore]
    refine ⟨x, _, rfl, White.endsName (a.white.1 x ?_)⟩
    rw [hbefore]
    exact List.mem_cons_self

/-- What a tag begins with, behind its bracket. -/
theorem White.first {w : Str} (hw : White w) {name : Str} (hname : IsName name) (r : Str) :
    ∃ c text, w ++ (name ++ r) = c :: text ∧ c < 128 ∧ c ≠ CR ∧ c ≠ '?'.toUInt8 ∧
      c ≠ '/'.toUInt8 := by
  cases w with
  | nil =>
    obtain ⟨c, cs, rfl⟩ := List.exists_cons_of_ne_nil hname.ne
    obtain ⟨hascii, hcr, -, hslash, -, hquest⟩ := hname.chars c List.mem_cons_self
    exact ⟨c, cs ++ r, rfl, hascii, hcr, hquest, hslash⟩
  | cons c w =>
    refine ⟨c, w ++ (name ++ r), rfl, ?_⟩
    rcases hw c List.mem_cons_self with rfl | rfl | rfl <;> decide

/-! ## Texts -/

/-- The text behind more characters. -/
def appended (t : TextScan) (x : Str) : TextScan :=
  { t with
    isWhitespace := t.isWhitespace && x.all fun c => decide (c = ' '.toUInt8 ∨ c = LF)
    text := t.text ++ x }

theorem appended_cons (t : TextScan) (c : UInt8) (x : Str) :
    appended (appended t [c]) x = appended t (c :: x) := by
  simp [appended, Bool.and_assoc]

theorem textStep_entity {c : UInt8} {t : TextScan} {name r : Str} (h : entity? c = some name) :
    Gives 7 8 (textStep '&'.toUInt8 t) (name ++ ';'.toUInt8 :: r) (true, appended t [c]) r := by
  have hwhite : ¬ (c = ' '.toUInt8 ∨ c = LF) := by
    rintro (rfl | rfl)
    · cases h.symm.trans (show entity? ' '.toUInt8 = none by decide)
    · cases h.symm.trans (show entity? LF = none by decide)
  have hadd : appended t [c] = { t with isWhitespace := false, text := t.text ++ [c] } := by
    rw [appended, List.all_cons, decide_eq_false hwhite, Bool.false_and, Bool.and_false]
  unfold textStep
  rw [if_neg (by decide), if_neg (by decide), if_pos rfl, hadd]
  exact (escapeString_gives h).bind (.pure _ (by omega))

theorem textStep_char {c : UInt8} {t : TextScan} {n : Nat} {r : Str} (h : entity? c = none)
    (hn : n ≤ 8) : Gives n 8 (textStep c t) r (true, appended t [c]) r := by
  obtain ⟨hamp, hlt, -, hcr⟩ := entity_none h
  have hadd : t.add c = appended t [c] := by
    rw [TextScan.add, if_neg hcr, appended, List.all_cons, List.all_nil, Bool.and_true]
  rw [← hadd]
  exact textStep_go ⟨hlt, hamp⟩ hn

/-- A text up to the bracket behind it. -/
theorem escapedText_gives {x r : Str} {t : TextScan} {k : Nat} (hk : x.length + 1 ≤ k) :
    Gives 8 8 (whileNext textStep k t) (escape x ++ '<'.toUInt8 :: r) (appended t x)
      ('<'.toUInt8 :: r) := by
  induction x generalizing t k with
  | nil =>
    obtain ⟨k, rfl⟩ := Nat.exists_eq_succ_of_ne_zero (n := k) (by omega)
    have hnil : appended t [] = t := by simp [appended]
    rw [hnil]
    exact Gives.whileNext_stop (.next (by decide)) textStep_stop
  | cons c x ih =>
    rw [List.length_cons] at hk
    obtain ⟨k, rfl⟩ := Nat.exists_eq_succ_of_ne_zero (n := k) (by omega)
    have hrest := ih (t := appended t [c]) (k := k) (by omega)
    rw [appended_cons] at hrest
    rcases escape_next c x ('<'.toUInt8 :: r) with ⟨hnone, htext⟩ | ⟨name, hname, htext⟩
    · rw [htext]
      exact Gives.whileNext_go (.next (entity_none hnone).2.2.2) (textStep_char hnone (by omega)) hrest
    · rw [htext]
      exact (Gives.next (by decide)).bind ((textStep_entity hname).bind hrest)

theorem parseCharacters_escaped (x : Str) {r : Str} {s : XmlPullParser}
    (hs : Reads 8 s.cursor (escape x ++ '<'.toUInt8 :: r)) :
    ∃ w c, parseCharacters s = (.ok (decide (x ≠ [])),
      { s with cursor := c, text := x, isWhitespace := w }) ∧ Reads 8 c ('<'.toUInt8 :: r) := by
  have hloop : Gives 8 8 (sized fun n => whileNext textStep n {}) (escape x ++ '<'.toUInt8 :: r)
      (appended {} x) ('<'.toUInt8 :: r) := by
    refine .sized fun k hk => escapedText_gives ?_
    have hturns := escape_turns x (c := '<'.toUInt8) (by decide) r
    omega
  obtain ⟨c, hrun, hc⟩ := onCursor_gives hloop hs
  refine ⟨(appended {} x).isWhitespace, c, ?_, hc⟩
  unfold parseCharacters
  rw [bind_ok hrun, bind_ok (modify_run _ _)]
  rfl

/-- A text is a token. -/
theorem readToken_written {x r : Str} (hne : x ≠ []) {s : XmlPullParser}
    (hs : Reads 8 s.cursor (escape x ++ '<'.toUInt8 :: r)) (hfull : s.isEmptyElementTag = false) :
    ∃ w c, readToken s =
        (.ok .TEXT, { s with cursor := c, text := x, isWhitespace := w, token := .TEXT }) ∧
      Reads 8 c ('<'.toUInt8 :: r) := by
  obtain ⟨c, z, htext, hcr, hlt⟩ : ∃ c z, escape x ++ '<'.toUInt8 :: r = c :: z ∧
      c ≠ CR ∧ c ≠ '<'.toUInt8 := by
    obtain ⟨c, x, rfl⟩ := List.exists_cons_of_ne_nil hne
    rcases escape_next c x ('<'.toUInt8 :: r) with ⟨hnone, htext⟩ | ⟨name, -, htext⟩
    · exact ⟨c, _, htext, (entity_none hnone).2.2.2, (entity_none hnone).2.1⟩
    · exact ⟨_, _, htext, by decide, by decide⟩
  have hnext : Gives 8 7 ReadAheadStreamAdapter.next (escape x ++ '<'.toUInt8 :: r) (some c) z := by
    rw [htext]
    exact .next hcr
  have hputback : Gives 7 8 (putback c) z () (escape x ++ '<'.toUInt8 :: r) := by
    rw [htext]
    exact .putback hcr (by omega)
  obtain ⟨w, c₃, hrun, hc₃⟩ := readToken_putback hs hfull hlt hnext hputback
    fun c₂ hc₂ => parseCharacters_escaped x (s := { s with cursor := c₂ }) hc₂
  rw [if_pos hne] at hrun
  exact ⟨w, c₃, hrun, hc₃⟩

theorem readToken_escaped {names : List Str} {x r : Str} (hne : x ≠ [])
    {s : XmlPullParser} (hs : Ready s names (escape x ++ '<'.toUInt8 :: r)) :
    ∃ s', readToken s = (.ok .TEXT, s') ∧ Ready s' names ('<'.toUInt8 :: r) ∧ s'.token = .TEXT ∧
      s'.text = x := by
  obtain ⟨w, c, hrun, hc⟩ := readToken_written hne hs.cursor hs.full
  exact ⟨_, hrun, ⟨hc, hs.full, hs.plain, hs.stack⟩, rfl, rfl⟩

/-! ## The element -/

namespace XmlElement

variable (e : XmlElement)

/-- What is read for its start tag. -/
def dictionary : Dictionary :=
  (e.attrs.map Attribute.pair).foldl (fun d kv => d.insertIfNew kv.1 kv.2) ∅

theorem opening_append (r : Str) : e.opening ++ r =
    e.beforeName ++ (e.name ++ rest e.attrs e.behindAttrs r) := by
  simp [opening, rest]

theorem parseStartElement_opens {n : Nat} (hn : n ≤ 8) (r : Str) {s : XmlPullParser}
    (hs : Reads n s.cursor (e.opening ++ r)) (hns : s.processNs = false) :
    ∃ c, parseStartElement s = (.ok true, { opened s e.name e.dictionary with cursor := c }) ∧
      Reads 8 c r := by
  rw [opening_append] at hs
  obtain ⟨x, text, hfirst, hascii, hcr, -, hslash⟩ :=
    e.white.1.first e.isName (rest e.attrs e.behindAttrs r)
  obtain ⟨y, behind, hrest, hy⟩ : ∃ y behind, rest e.attrs e.behindAttrs r = y :: behind ∧ EndsName y :=
    rest_endsName (.inr rfl) e.apart e.white.2.1 r
  obtain ⟨text₃, res, hskip, hloop, hres, hdictionary⟩ := attributes_escaped (.inr rfl) e.attrs e.white.2.1 r
  have hpeek : Gives 8 8 peek (e.beforeName ++ (e.name ++ rest e.attrs e.behindAttrs r)) (x.toNat : Int)
      (e.beforeName ++ (e.name ++ rest e.attrs e.behindAttrs r)) := by
    rw [hfirst]
    exact .peek ⟨hascii, hcr⟩
  have hread : Gives 8 8 parseName (e.name ++ rest e.attrs e.behindAttrs r) e.name
      (rest e.attrs e.behindAttrs r) := by
    rw [hrest]
    exact e.isName.parseName hy behind
  obtain ⟨c, hrun, hc⟩ := parseStartElement_parts e.isName.ne hpeek hslash
    (e.white.1.skipName e.isName _) hread hskip hloop hres (skipWhite_one (by decide) r)
    (hs.mono hn) hns
  rw [hdictionary] at hrun
  exact ⟨c, hrun, hc⟩

theorem parseEndElement_closes {n : Nat} (hn : n ≤ 8) {s : XmlPullParser} {t : Str}
    (ht : e.closing = '<'.toUInt8 :: t) (hs : Reads n s.cursor t) :
    parseStartElement s = (.ok false, s) ∧
      ∃ c, parseEndElement s = (.ok true, { s with cursor := c, name := e.name }) ∧
        Reads 8 c [] := by
  obtain rfl := (List.cons.inj ht).2
  exact parseEndElement_parts e.isName.ne (e.white.2.2.1.skipName e.isName _)
    (e.white.2.2.2.parseName e.isName (by decide) [])
    (e.white.2.2.2.skip (by decide) []) (hs.mono hn)

end XmlElement

/-- **An element is read back** by the first three calls of `next`: the name and the attributes, the
text, and the name again. -/
theorem element_roundTrip (e : XmlElement) :
    ∃ s₁ s₂ s₃, next (ofStream e.serialise) = (.ok (some .START_TAG), s₁) ∧ s₁.localName = e.name ∧
      (∀ k v, s₁.attributes[k]? = some v ↔ (k, v) ∈ e.attrs.map Attribute.pair) ∧
      next s₁ = (.ok (some .TEXT), s₂) ∧ s₂.text = e.text ∧
      next s₂ = (.ok (some .END_TAG), s₃) ∧ s₃.localName = e.name := by
  obtain ⟨x, text, hfirst, hascii, hcr, hquest, -⟩ := e.white.1.first e.isName
    (rest e.attrs e.behindAttrs (escape e.text ++ e.closing))
  rw [← e.opening_append] at hfirst
  have hdoc : e.serialise = '<'.toUInt8 :: x :: text := by rw [XmlElement.serialise, hfirst]
  have hreads : Reads 8 (ofStream e.serialise).cursor e.serialise :=
    ⟨Nat.zero_le _, ⟨[], .nil, rfl⟩, rfl, rfl⟩
  -- the start tag
  obtain ⟨c, hprolog, hc⟩ := nextToken_first (s := ofStream e.serialise) rfl
    (hreads.of_eq hdoc) ⟨hascii, hcr, hquest⟩
  rw [← hfirst] at hc
  have hready : Ready { ofStream e.serialise with cursor := c } [] _ := ⟨hc, rfl, rfl, rfl⟩
  obtain ⟨s₁, hrun₁, hs₁, htoken₁, hname₁, hattrs₁⟩ := readToken_opened hready (.next (by decide))
    fun c₁ hc₁ => e.parseStartElement_opens (by omega) _
      (s := { ofStream e.serialise with cursor := c₁ }) hc₁ rfl
  rw [← hprolog] at hrun₁
  -- the text
  obtain ⟨s₂, hrun₂, hs₂, htoken₂, htext₂⟩ := readToken_escaped e.text_ne
    (hs₁.withEvent (some .START_TAG))
  rw [← nextToken_started (by simp [htoken₁])] at hrun₂
  -- the end tag
  obtain ⟨s₃, hrun₃, -, -, hname₃⟩ := readToken_closed (hs₂.withEvent (some .TEXT))
    (.next (by decide)) fun s' hs' => e.parseEndElement_closes (by omega) rfl hs'
  rw [← nextToken_started (by simp [htoken₂])] at hrun₃
  refine ⟨_, _, _, next_event hrun₁ rfl, hname₁, fun k v => ?_, next_event hrun₂ rfl, htext₂,
    next_event hrun₃ rfl, hname₃⟩
  have hkeys : ((e.attrs.map Attribute.pair).map Prod.fst).Nodup := by
    rw [List.map_map]
    exact e.distinct
  rw [← foldl_insertIfNew_eq_some_iff hkeys]
  exact iff_of_eq (congrArg (fun d : Dictionary => d[k]? = some v) hattrs₁)

/-- An attribute with an ampersand in its value, and a text with a bracket. -/
def note : XmlElement where
  name := str "note"
  attrs := [{
    before := str " ", name := str "to", beforeEq := [], afterEq := str "\n", value := str "A&B"
    isName := ⟨by decide, by decide +kernel⟩
    white := by unfold White; decide +kernel }]
  text := str "1 < 2"
  beforeName := []
  behindAttrs := []
  beforeEnd := []
  behindEnd := str " "
  isName := ⟨by decide, by decide +kernel⟩
  distinct := by decide
  apart := by simp [str]
  text_ne := by decide
  white := by unfold White; decide +kernel

example : note.serialise = str "<note to=\n\"A&amp;B\">1 &lt; 2</note >" := by decide +kernel

end XmlPullParser

end Wsrv
