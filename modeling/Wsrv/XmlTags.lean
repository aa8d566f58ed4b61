import Wsrv.XmlRecognition

/-!
# Tags and texts

What `nextToken` gives at a start tag, at an end tag and at a text of an ASCII
document, and what it leaves.  A text loses its carriage returns.  When there is
nothing else in it, the parser finds no token and keeps the one it has.
-/

namespace Wsrv.XmlPullParser

open Effect ReadAheadStreamAdapter

/-! ## What documents are made of -/

/-- A name. -/
structure IsName (name : Str) : Prop where
  ne : name ≠ []
  valid : ∀ i (h : i < name.length), isValidNameChar name[i] i = true

/-- Text without markup and references. -/
def CharData (t : Str) : Prop := ∀ c ∈ t, c < 128 ∧ c ≠ '<'.toUInt8 ∧ c ≠ '&'.toUInt8

structure IsAttribute (a : Str × Str) : Prop where
  name : IsName a.1
  value : CharData a.2
  quote : '"'.toUInt8 ∉ a.2

def attributeText (a : Str × Str) : Str :=
  ' '.toUInt8 :: (a.1 ++ '='.toUInt8 :: '"'.toUInt8 :: (a.2 ++ ['"'.toUInt8]))

def startTag (name : Str) (attrs : List (Str × Str)) : Str :=
  '<'.toUInt8 :: (name ++ (attrs.flatMap attributeText ++ ['>'.toUInt8]))

def endTag (name : Str) : Str := '<'.toUInt8 :: '/'.toUInt8 :: (name ++ ['>'.toUInt8])

/-! ## Names -/

theorem isValidNameChar_facts {c : UInt8} {idx : Nat} (h : isValidNameChar c idx = true) :
    c < 128 ∧ c ≠ CR ∧ isWhite c.toNat = false ∧ c ≠ '/'.toUInt8 ∧ c ≠ '>'.toUInt8 ∧
      c ≠ '?'.toUInt8 := by
  have hone : isValidNameChar c 1 = true := by
    unfold isValidNameChar at h ⊢
    rw [if_neg (by decide)]
    split at h
    · simp only [isalnum, Bool.or_eq_true] at h ⊢
      tauto
    · exact h
  exact forall_byte (P := fun c => isValidNameChar c 1 = true → c < 128 ∧ c ≠ CR ∧
    isWhite c.toNat = false ∧ c ≠ '/'.toUInt8 ∧ c ≠ '>'.toUInt8 ∧ c ≠ '?'.toUInt8)
    (by decide +kernel) c hone

theorem IsName.chars {name : Str} (h : IsName name) :
    ∀ c ∈ name, c < 128 ∧ c ≠ CR ∧ isWhite c.toNat = false ∧ c ≠ '/'.toUInt8 ∧ c ≠ '>'.toUInt8 ∧
      c ≠ '?'.toUInt8 := by
  intro c hc
  obtain ⟨i, hi, rfl⟩ := List.mem_iff_getElem.mp hc
  exact isValidNameChar_facts (h.valid i hi)

theorem parseName_loop {t acc r : Str} {c : UInt8} {k : Nat}
    (ht : ∀ i (h : i < t.length), isValidNameChar t[i] (acc.length + i) = true)
    (hc : isValidNameChar c (acc.length + t.length) = false) (hcr : c ≠ CR)
    (hk : t.length + 1 ≤ k) :
    Gives 8 8 (whileNext (fun c name =>
      if isValidNameChar c name.length then return (true, name ++ [c])
      else do
        putback c
        return (false, name)) k acc) (t ++ c :: r) (acc ++ t) (c :: r) := by
  induction t generalizing acc k with
  | nil =>
    obtain ⟨k, rfl⟩ := Nat.exists_eq_succ_of_ne_zero (n := k) (by omega)
    rw [List.append_nil]
    refine Gives.whileNext_stop (.next hcr) ?_
    rw [if_neg (by simpa using hc)]
    exact (Gives.putback hcr (by omega)).bind (.pure _ le_rfl)
  | cons x t ih =>
    rw [List.length_cons] at hk hc
    obtain ⟨k, rfl⟩ := Nat.exists_eq_succ_of_ne_zero (n := k) (by omega)
    have hx : isValidNameChar x acc.length = true := ht 0 (Nat.zero_lt_succ _)
    have hlength : (acc ++ [x]).length = acc.length + 1 := by simp
    have hgo : Gives 8 8 _ (t ++ c :: r) (acc ++ [x] ++ t) (c :: r) := ih (k := k)
      (fun i hi => by
        rw [hlength, Nat.add_assoc, Nat.add_comm 1]
        exact ht (i + 1) (Nat.succ_lt_succ hi))
      (by
        rw [hlength, Nat.add_assoc, Nat.add_comm 1]
        exact hc)
      (by omega)
    rw [List.append_assoc, List.singleton_append] at hgo
    refine Gives.whileNext_go (.next (isValidNameChar_facts hx).2.1) ?_ hgo
    rw [if_pos hx]
    exact .pure _ (by omega)

/-- `parseName` reads up to the first character that no name goes on with. -/
theorem parseName_gives {t r : Str} {c : UInt8}
    (ht : ∀ i (h : i < t.length), isValidNameChar t[i] i = true)
    (hc : isValidNameChar c t.length = false) (hcr : c ≠ CR) :
    Gives 8 8 parseName (t ++ c :: r) t (c :: r) := by
  refine .sized fun k hk => ?_
  have hlength : t.length + 1 ≤ k := by
    have hcarriage : CR ∉ t := fun hm => by
      obtain ⟨i, hi, heq⟩ := List.mem_iff_getElem.mp hm
      exact (isValidNameChar_facts (ht i hi)).2.1 heq
    have := length_le_uncarried_append t c r hcr
    rw [uncarried_eq_self hcarriage] at this
    omega
  have hloop : Gives 8 8 _ (t ++ c :: r) ([] ++ t) (c :: r) :=
    parseName_loop (by simpa using ht) (by simpa using hc) hcr hlength
  exact hloop

/-! ## Attributes -/

/-- A character of a value is appended. -/
theorem valueStep_go {n : Nat} {c : UInt8} {scan : ValueScan} {r : Str}
    (hc : c ≠ '<'.toUInt8 ∧ c ≠ '&'.toUInt8 ∧ c ≠ '"'.toUInt8) (hn : n ≤ 8) :
    Gives n 8 (valueStep '"'.toUInt8 c scan) r
      (true, { scan with last := c, val := scan.val ++ [c] }) r := by
  unfold valueStep
  rw [if_neg hc.2.1, if_neg hc.1, if_neg hc.2.2]
  exact .pure _ hn

theorem valueStep_stop {n : Nat} {scan : ValueScan} {r : Str} (hn : n ≤ 8) :
    Gives n 8 (valueStep '"'.toUInt8 '"'.toUInt8 scan) r
      (false, { scan with last := '"'.toUInt8, val := scan.val ++ [] }) r := by
  rw [List.append_nil]
  exact .pure _ hn

theorem valueLoop_gives {v r : Str} {scan : ValueScan} {k : Nat}
    (hv : ∀ c ∈ v, c ≠ '<'.toUInt8 ∧ c ≠ '&'.toUInt8 ∧ c ≠ '"'.toUInt8)
    (hk : (uncarried v).length + 1 ≤ k) :
    Gives 8 8 (whileNext (valueStep '"'.toUInt8) k scan) (v ++ '"'.toUInt8 :: r)
      { scan with last := '"'.toUInt8, val := scan.val ++ uncarried v } r := by
  induction v using uncarried.induct generalizing scan k with
  | case1 =>
    obtain ⟨k, rfl⟩ := Nat.exists_eq_succ_of_ne_zero (n := k) (by omega)
    exact Gives.whileNext_stop (.next (by decide)) (valueStep_stop (by omega))
  | case2 =>
    obtain ⟨k, rfl⟩ := Nat.exists_eq_succ_of_ne_zero (n := k) (by omega)
    exact Gives.whileNext_stop (.next_carriage _) (valueStep_stop (by omega))
  | case3 d v ih =>
    rw [uncarried_carriage, List.length_cons] at hk
    obtain ⟨k, rfl⟩ := Nat.exists_eq_succ_of_ne_zero (n := k) (by omega)
    have hrest : Gives 8 8 (whileNext (valueStep '"'.toUInt8) k
        { scan with last := d, val := scan.val ++ [d] }) (v ++ '"'.toUInt8 :: r)
        { scan with last := '"'.toUInt8, val := scan.val ++ [d] ++ uncarried v } r :=
      ih (fun c hc => hv c (by simp [hc])) (by omega)
    rw [List.append_assoc, List.singleton_append] at hrest
    rw [uncarried_carriage]
    exact Gives.whileNext_go (.next_carriage d) (valueStep_go (hv d (by simp)) (by omega)) hrest
  | case4 c v hc ih =>
    rw [uncarried_cons hc, List.length_cons] at hk
    obtain ⟨k, rfl⟩ := Nat.exists_eq_succ_of_ne_zero (n := k) (by omega)
    have hrest : Gives 8 8 (whileNext (valueStep '"'.toUInt8) k
        { scan with last := c, val := scan.val ++ [c] }) (v ++ '"'.toUInt8 :: r)
        { scan with last := '"'.toUInt8, val := scan.val ++ [c] ++ uncarried v } r :=
      ih (fun c hc => hv c (by simp [hc])) (by omega)
    rw [List.append_assoc, List.singleton_append] at hrest
    rw [uncarried_cons hc]
    exact Gives.whileNext_go (.next hc) (valueStep_go (hv c (by simp)) (by omega)) hrest

theorem parseAttributeValue_gives {v r : Str} (hv : CharData v) (hquote : '"'.toUInt8 ∉ v) :
    Gives 8 8 parseAttributeValue ('"'.toUInt8 :: (v ++ '"'.toUInt8 :: r)) (true, uncarried v) r := by
  refine (Gives.next (by decide)).bind ?_
  have hloop : Gives 7 8 (sized fun k => whileNext (valueStep '"'.toUInt8) k { last := '"'.toUInt8 })
      (v ++ '"'.toUInt8 :: r) { last := '"'.toUInt8, val := uncarried v } r := by
    refine .sized fun k hk => ?_
    have hlength := length_le_uncarried_append v '"'.toUInt8 r (by decide)
    exact (valueLoop_gives (fun c hc => ⟨(hv c hc).2.1, (hv c hc).2.2, fun h => hquote (h ▸ hc)⟩)
      (by omega)).mono (by omega) le_rfl
  exact hloop.bind (.pure _ le_rfl)

/-- A character that may follow a name. -/
def EndsName (c : UInt8) : Prop := c < 128 ∧ c ≠ CR ∧ isValidNameChar c 1 = false

instance (c : UInt8) : Decidable (EndsName c) := inferInstanceAs (Decidable (_ ∧ _))

theorem IsName.parseName {name : Str} (h : IsName name) {c : UInt8} (hc : EndsName c) (r : Str) :
    Gives 8 8 parseName (name ++ c :: r) name (c :: r) := by
  have hlength : name.length ≠ 0 := fun h0 => h.ne (List.length_eq_zero_iff.mp h0)
  have hstop : isValidNameChar c name.length = false := by
    have hone := hc.2.2
    unfold isValidNameChar at hone ⊢
    rw [if_neg (by decide)] at hone
    rwa [if_neg hlength]
  exact parseName_gives h.valid hstop hc.2.1

/-- White space in front of a name. -/
theorem IsName.skipWhite {name : Str} (h : IsName name) {w : Str}
    (hw : ∀ x ∈ w, x = ' '.toUInt8) (r : Str) :
    Gives 8 8 skipWhite (w ++ (name ++ r)) () (name ++ r) := by
  obtain ⟨c, cs, rfl⟩ := List.exists_cons_of_ne_nil h.ne
  obtain ⟨hascii, hcr, hwhite, -⟩ := h.chars c List.mem_cons_self
  exact Gives.skipWhite (fun x hx => by rw [hw x hx]; decide) hascii hcr hwhite

/-- A name does not begin with a mark that ends a tag. -/
theorem IsName.peek {name : Str} (h : IsName name) (r : Str) :
    ∃ c : UInt8, Gives 8 8 peek (name ++ r) (c.toNat : Int) (name ++ r) ∧
      c ≠ '/'.toUInt8 ∧ c ≠ '>'.toUInt8 ∧ c ≠ '?'.toUInt8 := by
  obtain ⟨c, cs, rfl⟩ := List.exists_cons_of_ne_nil h.ne
  obtain ⟨hascii, hcr, -, hmarks⟩ := h.chars c List.mem_cons_self
  exact ⟨c, Gives.peek ⟨hascii, hcr⟩, hmarks⟩

/-- The text of some attributes is read in as many turns. -/
theorem length_le_attributes (as : List (Str × Str)) (r : Str) :
    as.length ≤ (uncarried (as.flatMap attributeText ++ r)).length := by
  induction as with
  | nil => exact Nat.zero_le _
  | cons a as ih =>
    have hsplit : (a :: as).flatMap attributeText ++ r =
        (' '.toUInt8 :: (a.1 ++ '='.toUInt8 :: '"'.toUInt8 :: a.2)) ++
          '"'.toUInt8 :: (as.flatMap attributeText ++ r) := by
      simp [attributeText]
    rw [hsplit, uncarried_append _ (by decide), List.length_append, List.length_cons,
      List.length_cons]
    omega

/-- One character that is expected. -/
theorem expect_one {n : Nat} {c : UInt8} (hc : c < 128 ∧ c ≠ CR) (r : Str) :
    Gives n n (expect [c]) (c :: r) true r :=
  Gives.expect_true (List.forall_mem_singleton.mpr hc) (by simp)

/-- A character that is not the first one that is expected. -/
theorem expect_other {p c : UInt8} (hc : c < 128 ∧ c ≠ CR) (hne : toChar p ≠ c.toNat) (rest r : Str) :
    Gives 8 8 (expect (p :: rest)) (c :: r) false (c :: r) := by
  have hnone : Gives 8 8 (expect ([] ++ p :: rest)) ([] ++ c :: r) false ([] ++ c :: r) :=
    Gives.expect_false (by simpa using hc) hne (by decide)
  exact hnone

/-- White space in front of a character that is none. -/
theorem skipWhite_one {c : UInt8} (hc : c < 128 ∧ c ≠ CR ∧ isWhite c.toNat = false) (r : Str) :
    Gives 8 8 skipWhite (c :: r) () (c :: r) := by
  have hnone : Gives 8 8 skipWhite ([] ++ c :: r) () (c :: r) :=
    Gives.skipWhite (by simp) hc.1 hc.2.1 hc.2.2
  exact hnone

/-- One turn of the loop over the attributes, up to what follows the value. -/
theorem attributeLoop_turn {a : Str × Str} (ha : IsAttribute a) {k : Nat} {attrs : Dictionary}
    {r r' : Str} {res : Option Bool × Dictionary}
    (h : Gives 8 8 (do
        skipWhite
        let c ← peek
        if c = '/'.toNat ∨ c = '>'.toNat ∨ c = '?'.toNat then
          return (some true, attrs.insertIfNew a.1 (uncarried a.2))
        else if (← get).fail then return (some true, attrs.insertIfNew a.1 (uncarried a.2))
        else attributeLoop k (attrs.insertIfNew a.1 (uncarried a.2))) r res r') :
    Gives 8 8 (attributeLoop (k + 1) attrs)
      (a.1 ++ '='.toUInt8 :: '"'.toUInt8 :: (a.2 ++ '"'.toUInt8 :: r)) res r' := by
  refine (ha.name.parseName (by decide) _).bind ?_
  rw [if_neg ha.name.ne]
  refine (skipWhite_one (by decide) _).bind ((expect_one (by decide) _).bind ?_)
  rw [if_neg (by simp)]
  refine (skipWhite_one (by decide) _).bind
    ((parseAttributeValue_gives ha.value ha.quote).bind ?_)
  exact h

theorem attributeLoop_gives {a : Str × Str} {as : List (Str × Str)}
    (h : ∀ b ∈ a :: as, IsAttribute b) {k : Nat} (hk : as.length + 1 ≤ k) (attrs : Dictionary)
    (r : Str) : Gives 8 8 (attributeLoop k attrs)
      (a.1 ++ '='.toUInt8 :: '"'.toUInt8 :: (a.2 ++ '"'.toUInt8 ::
        (as.flatMap attributeText ++ '>'.toUInt8 :: r)))
      (some true, (a :: as).foldl (fun d a => d.insertIfNew a.1 (uncarried a.2)) attrs)
      ('>'.toUInt8 :: r) := by
  induction as generalizing a k attrs with
  | nil =>
    obtain ⟨k, rfl⟩ := Nat.exists_eq_succ_of_ne_zero (n := k) (by omega)
    refine attributeLoop_turn (h a List.mem_cons_self) ?_
    refine (skipWhite_one (by decide) _).bind ((Gives.peek (by decide)).bind ?_)
    rw [if_pos (.inr (.inl rfl))]
    exact .pure _ le_rfl
  | cons b as ih =>
    rw [List.length_cons] at hk
    obtain ⟨k, rfl⟩ := Nat.exists_eq_succ_of_ne_zero (n := k) (by omega)
    rw [List.forall_mem_cons] at h
    have hb := h.2 b List.mem_cons_self
    have hrest := ih h.2 (k := k) (by omega) (attrs.insertIfNew a.1 (uncarried a.2))
    obtain ⟨c, hpeek, hslash, hgt, hquest⟩ := hb.name.peek ('='.toUInt8 :: '"'.toUInt8 ::
      (b.2 ++ '"'.toUInt8 :: (as.flatMap attributeText ++ '>'.toUInt8 :: r)))
    refine attributeLoop_turn h.1 ?_
    have htext : (b :: as).flatMap attributeText ++ '>'.toUInt8 :: r =
        [' '.toUInt8] ++ (b.1 ++ '='.toUInt8 :: '"'.toUInt8 :: (b.2 ++ '"'.toUInt8 ::
          (as.flatMap attributeText ++ '>'.toUInt8 :: r))) := by
      simp [attributeText]
    rw [htext]
    refine (hb.name.skipWhite (by simp) _).bind ?_
    refine hpeek.bind ?_
    rw [if_neg]
    · exact Gives.unless_fail hrest
    · rintro (heq | heq | heq)
      · exact hslash (UInt8.toNat_inj.mp (by exact_mod_cast heq))
      · exact hgt (UInt8.toNat_inj.mp (by exact_mod_cast heq))
      · exact hquest (UInt8.toNat_inj.mp (by exact_mod_cast heq))

/-- A list without attributes, in front of a character that begins no name. -/
theorem noAttributes {c : UInt8} (hc : c < 128 ∧ c ≠ CR ∧ isValidNameChar c 0 = false) (r : Str) :
    Gives 8 8 (sized fun n => attributeLoop n ∅) (c :: r) (some false, ∅) (c :: r) := by
  refine .sized fun k hk => ?_
  obtain ⟨k, rfl⟩ := Nat.exists_eq_succ_of_ne_zero (n := k) (by omega)
  have hname : Gives 8 8 parseName (c :: r) [] (c :: r) :=
    parseName_gives (t := []) (by simp) hc.2.2 hc.2.1
  refine hname.bind ?_
  rw [if_pos rfl]
  exact .pure _ le_rfl

/-! ## Operations on the parser -/

theorem onCursor_gives {α : Type} {n n' : Nat} {x : Cursor α} {r r' : Str} {a : α}
    (h : Gives n n' x r a r') {s : XmlPullParser} (hs : Reads n s.cursor r) :
    ∃ c, onCursor x s = (.ok a, { s with cursor := c }) ∧ Reads n' c r' := by
  obtain ⟨c, hrun, hc⟩ := h s.cursor hs
  exact ⟨c, onCursor_ok hrun, hc⟩

/-- The attributes of a tag, and what is white in front of them. -/
theorem attributes_gives {attrs : List (Str × Str)} (h : ∀ a ∈ attrs, IsAttribute a) (r : Str) :
    ∃ text res, Gives 8 8 skipWhite (attrs.flatMap attributeText ++ '>'.toUInt8 :: r) () text ∧
      Gives 8 8 (sized fun n => attributeLoop n ∅) text res ('>'.toUInt8 :: r) ∧ res.1 ≠ none := by
  cases attrs with
  | nil =>
    refine ⟨'>'.toUInt8 :: r, (some false, ∅), skipWhite_one (by decide) r, noAttributes (by decide) r,
      by simp⟩
  | cons a as =>
    have htext : (a :: as).flatMap attributeText ++ '>'.toUInt8 :: r =
        [' '.toUInt8] ++ (a.1 ++ '='.toUInt8 :: '"'.toUInt8 :: (a.2 ++ '"'.toUInt8 ::
          (as.flatMap attributeText ++ '>'.toUInt8 :: r))) := by
      simp [attributeText]
    rw [htext]
    refine ⟨_, _, (h a List.mem_cons_self).name.skipWhite (by simp) _,
      .sized fun k hk => attributeLoop_gives h ?_ ∅ r, by simp⟩
    have hlength := length_le_attributes as ('>'.toUInt8 :: r)
    have hsplit := uncarried_append (a.1 ++ '='.toUInt8 :: '"'.toUInt8 :: a.2)
      (c := '"'.toUInt8) (by decide) (as.flatMap attributeText ++ '>'.toUInt8 :: r)
    simp only [List.append_assoc, List.cons_append] at hsplit
    rw [hsplit, List.length_append, List.length_cons] at hk
    omega

/-- The members that a start tag sets. -/
def opened (s : XmlPullParser) (name : Str) (attrs : Dictionary) : XmlPullParser :=
  { s with
    name := name
    localName := name
    attributes := attrs
    elementStack := ⟨name, s.pfx, s.ns⟩ :: s.elementStack
    isEmptyElementTag := false }

/-- The rest of `parseStartElement`, behind the attributes. -/
def finishTag : Parser Bool := do
  if (← get).processNs then
    parseNameSpaceAttributes
    modify setNames
    modify fun s => { s with ns := getNamespace s s.pfx }
  else modify fun s => { s with localName := s.name }
  modify fun s => { s with elementStack := ⟨s.localName, s.pfx, s.ns⟩ :: s.elementStack }
  if ← onCursor (expect (str "/>")) then
    modify fun s => { s with isEmptyElementTag := true }
    return true
  else if ← onCursor (expect (str ">")) then
    modify fun s => { s with isEmptyElementTag := false }
    return true
  else return false

/-- A start tag up to its end, by what its parts leave. -/
theorem parseStartElement_front {name t₀ t₁ t₂ t₃ t₄ t₅ : Str} {x : UInt8}
    {res : Option Bool × Dictionary} (hname : name ≠ [])
    (hpeek : Gives 8 8 peek t₀ (x.toNat : Int) t₀) (hslash : x ≠ '/'.toUInt8)
    (h₁ : Gives 8 8 skipWhite t₀ () t₁) (h₂ : Gives 8 8 parseName t₁ name t₂)
    (h₃ : Gives 8 8 skipWhite t₂ () t₃)
    (h₄ : Gives 8 8 (sized fun n => attributeLoop n ∅) t₃ res t₄) (hres : res.1 ≠ none)
    (h₅ : Gives 8 8 skipWhite t₄ () t₅) {s : XmlPullParser} (hs : Reads 8 s.cursor t₀) :
    ∃ c, parseStartElement s = finishTag { s with cursor := c, name := name, attributes := res.2 } ∧
      Reads 8 c t₅ := by
  obtain ⟨c₀, hrun₀, hc₀⟩ := onCursor_gives hpeek hs
  obtain ⟨c₁, hrun₁, hc₁⟩ := onCursor_gives (s := { s with cursor := c₀ }) h₁ hc₀
  obtain ⟨c₂, hrun₂, hc₂⟩ := onCursor_gives (s := { s with cursor := c₁ }) h₂ hc₁
  obtain ⟨c₃, hrun₃, hc₃⟩ := onCursor_gives (s := { s with cursor := c₂, name := name }) h₃ hc₂
  obtain ⟨c₄, hrun₄, hc₄⟩ := onCursor_gives
    (s := { s with cursor := c₃, name := name, attributes := ∅ }) h₄ hc₃
  obtain ⟨c₅, hrun₅, hc₅⟩ := onCursor_gives
    (s := { s with cursor := c₄, name := name, attributes := res.2 }) h₅ hc₄
  refine ⟨c₅, ?_, hc₅⟩
  have hgo : ¬ ((x.toNat : Int) < 0 ∨ (x.toNat : Int) = '/'.toNat) := by
    rintro (hneg | heq)
    · omega
    · exact hslash (UInt8.toNat_inj.mp (by exact_mod_cast heq))
  have hlist : parseAttributeList { s with cursor := c₃, name := name } =
      (.ok res, { s with cursor := c₄, name := name, attributes := ∅ }) := by
    unfold parseAttributeList
    rw [bind_ok (modify_run _ _)]
    exact hrun₄
  unfold parseStartElement
  rw [bind_ok hrun₀, if_neg hgo, bind_ok hrun₁, bind_ok hrun₂, bind_ok (modify_run _ _),
    if_neg hname, bind_ok hrun₃, bind_ok hlist]
  simp only
  rw [bind_ok (modify_run _ _), if_neg hres, bind_ok hrun₅]
  rfl

/-- A start tag, by what its parts leave. -/
theorem parseStartElement_parts {name t₀ t₁ t₂ t₃ t₄ r : Str} {x : UInt8}
    {res : Option Bool × Dictionary} (hname : name ≠ [])
    (hpeek : Gives 8 8 peek t₀ (x.toNat : Int) t₀) (hslash : x ≠ '/'.toUInt8)
    (h₁ : Gives 8 8 skipWhite t₀ () t₁) (h₂ : Gives 8 8 parseName t₁ name t₂)
    (h₃ : Gives 8 8 skipWhite t₂ () t₃)
    (h₄ : Gives 8 8 (sized fun n => attributeLoop n ∅) t₃ res t₄) (hres : res.1 ≠ none)
    (h₅ : Gives 8 8 skipWhite t₄ () ('>'.toUInt8 :: r)) {s : XmlPullParser} (hs : Reads 8 s.cursor t₀)
    (hns : s.processNs = false) :
    ∃ c, parseStartElement s = (.ok true, { opened s name res.2 with cursor := c }) ∧
      Reads 8 c r := by
  obtain ⟨c₅, hfront, hc₅⟩ := parseStartElement_front hname hpeek hslash h₁ h₂ h₃ h₄ hres h₅ hs
  have hempty : Gives 8 8 (expect (str "/>")) ('>'.toUInt8 :: r) false ('>'.toUInt8 :: r) :=
    expect_other (by decide) (by decide) _ r
  obtain ⟨c₆, hrun₆, hc₆⟩ := onCursor_gives (s := { opened s name res.2 with
    cursor := c₅, isEmptyElementTag := s.isEmptyElementTag }) hempty hc₅
  obtain ⟨c₇, hrun₇, hc₇⟩ := onCursor_gives (s := { opened s name res.2 with
    cursor := c₆, isEmptyElementTag := s.isEmptyElementTag }) (expect_one (by decide) r) hc₆
  refine ⟨c₇, ?_, hc₇⟩
  have hns' : ¬ s.processNs = true := by simp [hns]
  rw [hfront]
  unfold finishTag
  rw [bind_ok (get_run _), if_neg hns']
  refine (bind_ok (modify_run _ _)).trans ((bind_ok (modify_run _ _)).trans ((bind_ok hrun₆).trans ?_))
  rw [if_neg Bool.false_ne_true]
  exact bind_ok hrun₇

theorem parseStartElement_gives {name : Str} {attrs : List (Str × Str)} (hname : IsName name)
    (hattrs : ∀ a ∈ attrs, IsAttribute a) (r : Str) :
    ∃ d, ∀ s : XmlPullParser,
      Reads 8 s.cursor (name ++ (attrs.flatMap attributeText ++ '>'.toUInt8 :: r)) →
        s.processNs = false → ∃ c, parseStartElement s =
          (.ok true, { opened s name d with cursor := c }) ∧ Reads 8 c r := by
  -- the character behind the name is a space or the end of the tag
  obtain ⟨x, text, htext, hx⟩ : ∃ x text,
      attrs.flatMap attributeText ++ '>'.toUInt8 :: r = x :: text ∧ EndsName x := by
    cases attrs with
    | nil => exact ⟨_, _, rfl, by decide⟩
    | cons a as => exact ⟨_, _, rfl, by decide⟩
  obtain ⟨x₀, hpeek, hslash, -⟩ := hname.peek (attrs.flatMap attributeText ++ '>'.toUInt8 :: r)
  obtain ⟨text₃, res, hskip, hloop, hres⟩ := attributes_gives hattrs r
  have hread := hname.parseName hx text
  rw [← htext] at hread
  exact ⟨res.2, fun s hs hns => parseStartElement_parts hname.ne hpeek hslash
    (hname.skipWhite (w := []) (by simp) _) hread hskip hloop hres (skipWhite_one (by decide) r) hs
    hns⟩

/-- An end tag, by what its parts leave, and the members that it sets before it is matched. -/
theorem parseEndElement_parts {name t₀ t₁ t₂ r : Str} (hname : name ≠ [])
    (h₀ : Gives 8 8 skipWhite t₀ () t₁) (h₁ : Gives 8 8 parseName t₁ name t₂)
    (h₂ : Gives 8 8 skipWhite t₂ () ('>'.toUInt8 :: r)) {s : XmlPullParser}
    (hs : Reads 8 s.cursor ('/'.toUInt8 :: t₀)) :
    parseStartElement s = (.ok false, s) ∧
      ∃ c, parseEndElement s = (.ok true, { s with cursor := c, name := name }) ∧ Reads 8 c r := by
  have hslash : toChar '/'.toUInt8 = '/'.toNat := rfl
  have hpeek : onCursor peek s = (.ok ('/'.toNat : Int), s) := by
    have hrun := onCursor_ok (peek_remains hs.rest (by decide))
    rwa [hslash] at hrun
  refine ⟨?_, ?_⟩
  · unfold parseStartElement
    rw [bind_ok hpeek, if_pos (.inr rfl)]
    rfl
  · obtain ⟨c₁, hrun₁, hc₁⟩ := onCursor_gives (Gives.read (by decide)) hs
    obtain ⟨c₂, hrun₂, hc₂⟩ := onCursor_gives (s := { s with cursor := c₁ }) h₀
      (hc₁.mono (by omega))
    obtain ⟨c₃, hrun₃, hc₃⟩ := onCursor_gives (s := { s with cursor := c₂ }) h₁ hc₂
    obtain ⟨c₄, hrun₄, hc₄⟩ := onCursor_gives (s := { s with cursor := c₃, name := name }) h₂ hc₃
    obtain ⟨c₅, hrun₅, hc₅⟩ := onCursor_gives (s := { s with cursor := c₄, name := name })
      (expect_one (by decide) r) hc₄
    refine ⟨c₅, ?_, hc₅⟩
    unfold parseEndElement
    rw [bind_ok hpeek, if_neg (by decide), if_pos rfl, bind_ok hrun₁, bind_ok hrun₂, bind_ok hrun₃,
      bind_ok (modify_run _ _), if_neg hname, bind_ok hrun₄]
    exact bind_ok hrun₅

theorem parseEndElement_gives {name : Str} (hname : IsName name) {r : Str} {s : XmlPullParser}
    (hs : Reads 8 s.cursor ('/'.toUInt8 :: (name ++ '>'.toUInt8 :: r))) :
    parseStartElement s = (.ok false, s) ∧
      ∃ c, parseEndElement s = (.ok true, { s with cursor := c, name := name }) ∧ Reads 8 c r :=
  parseEndElement_parts hname.ne (hname.skipWhite (w := []) (by simp) _)
    (hname.parseName (by decide) r) (skipWhite_one (by decide) r) hs

/-! ## Texts -/

/-- A character of a text. -/
def TextScan.add (t : TextScan) (c : UInt8) : TextScan :=
  if c = CR then t
  else
    { t with
      isWhitespace := t.isWhitespace && decide (c = ' '.toUInt8 ∨ c = LF), text := t.text ++ [c] }

theorem textStep_go {n : Nat} {c : UInt8} {t : TextScan} {r : Str}
    (hc : c ≠ '<'.toUInt8 ∧ c ≠ '&'.toUInt8) (hn : n ≤ 8) :
    Gives n 8 (textStep c t) r (true, t.add c) r := by
  unfold textStep TextScan.add
  by_cases hcr : c = CR
  · rw [if_pos hcr, if_pos hcr]
    exact .pure _ hn
  · rw [if_neg hcr, if_neg hcr, if_neg hc.1, if_neg hc.2]
    exact .pure _ hn

theorem textStep_stop {t : TextScan} {r : Str} :
    Gives 7 8 (textStep '<'.toUInt8 t) r (false, t) ('<'.toUInt8 :: r) := by
  unfold textStep
  rw [if_neg (by decide), if_pos rfl]
  exact (Gives.putback (by decide) (by omega)).bind (.pure _ le_rfl)

theorem textLoop_gives {x r : Str} {t : TextScan} {k : Nat} (hx : CharData x)
    (hk : (uncarried x).length + 1 ≤ k) :
    Gives 8 8 (whileNext textStep k t) (x ++ '<'.toUInt8 :: r) ((uncarried x).foldl TextScan.add t)
      ('<'.toUInt8 :: r) := by
  induction x using uncarried.induct generalizing t k with
  | case1 =>
    obtain ⟨k, rfl⟩ := Nat.exists_eq_succ_of_ne_zero (n := k) (by omega)
    exact Gives.whileNext_stop (.next (by decide)) textStep_stop
  | case2 =>
    obtain ⟨k, rfl⟩ := Nat.exists_eq_succ_of_ne_zero (n := k) (by omega)
    exact Gives.whileNext_stop (.next_carriage _) textStep_stop
  | case3 d x ih =>
    rw [uncarried_carriage, List.length_cons] at hk
    obtain ⟨k, rfl⟩ := Nat.exists_eq_succ_of_ne_zero (n := k) (by omega)
    rw [uncarried_carriage, List.foldl_cons]
    exact Gives.whileNext_go (.next_carriage d) (textStep_go (hx d (by simp)).2 (by omega))
      (ih (fun c hc => hx c (by simp [hc])) (by omega))
  | case4 c x hc ih =>
    rw [uncarried_cons hc, List.length_cons] at hk
    obtain ⟨k, rfl⟩ := Nat.exists_eq_succ_of_ne_zero (n := k) (by omega)
    rw [uncarried_cons hc, List.foldl_cons]
    exact Gives.whileNext_go (.next hc) (textStep_go (hx c (by simp)).2 (by omega))
      (ih (fun c hc => hx c (by simp [hc])) (by omega))

/-- The text without its carriage returns. -/
def delivered (x : Str) : Str := x.filter (· ≠ CR)

theorem foldl_add (x : Str) (t : TextScan) :
    (x.foldl TextScan.add t).text = t.text ++ delivered x ∧
      (x.foldl TextScan.add t).failed = t.failed := by
  induction x generalizing t with
  | nil => simp [delivered]
  | cons c x ih =>
    obtain ⟨htext, hfailed⟩ := ih (t.add c)
    rw [List.foldl_cons, htext, hfailed]
    by_cases hc : c = CR <;> simp [TextScan.add, delivered, hc]

theorem delivered_uncarried (x : Str) : delivered (uncarried x) = delivered x := by
  induction x using uncarried.induct with
  | case1 => rfl
  | case2 => rfl
  | case3 d x ih =>
    have hcr : delivered (CR :: d :: x) = delivered (d :: x) := by simp [delivered]
    rw [uncarried_carriage, hcr]
    unfold delivered at ih ⊢
    rw [List.filter_cons, List.filter_cons, ih]
  | case4 c x hc ih =>
    rw [uncarried_cons hc]
    unfold delivered at ih ⊢
    rw [List.filter_cons, List.filter_cons, ih]

/-- A text up to the next tag. -/
theorem parseCharacters_gives {x r : Str} (hx : CharData x) {s : XmlPullParser}
    (hs : Reads 8 s.cursor (x ++ '<'.toUInt8 :: r)) :
    ∃ w c, parseCharacters s = (.ok (decide (delivered x ≠ [])),
      { s with cursor := c, text := delivered x, isWhitespace := w }) ∧
        Reads 8 c ('<'.toUInt8 :: r) := by
  have hloop : Gives 8 8 (sized fun n => whileNext textStep n {}) (x ++ '<'.toUInt8 :: r)
      ((uncarried x).foldl TextScan.add {}) ('<'.toUInt8 :: r) := by
    refine .sized fun k hk => textLoop_gives hx ?_
    have hlength := length_le_uncarried_append x '<'.toUInt8 r (by decide)
    omega
  obtain ⟨c, hrun, hc⟩ := onCursor_gives hloop hs
  obtain ⟨htext, hfailed⟩ := foldl_add (uncarried x) {}
  rw [delivered_uncarried, List.nil_append] at htext
  refine ⟨((uncarried x).foldl TextScan.add {}).isWhitespace, c, ?_, hc⟩
  unfold parseCharacters
  rw [bind_ok hrun, bind_ok (modify_run _ _), hfailed, if_neg Bool.false_ne_true, htext]
  rfl

/-! ## Tokens -/

/-- A call of `nextToken` that has the prolog behind it and no empty element to close. -/
structure Ready (s : XmlPullParser) (names : List Str) (r : Str) : Prop where
  cursor : Reads 8 s.cursor r
  full : s.isEmptyElementTag = false
  plain : s.processNs = false
  stack : s.elementStack.map Element.name = names

theorem Ready.withEvent {s : XmlPullParser} {names : List Str} {r : Str} (h : Ready s names r)
    (event : Option TokenType) : Ready { s with event := event } names r :=
  ⟨h.cursor, h.full, h.plain, h.stack⟩

/-- What may stand in front of a tag: a carriage return is stepped over with the character behind
it. -/
def Lead (w : Str) : Prop := w = [] ∨ w = [CR]

theorem Lead.next {w : Str} (hw : Lead w) (c : UInt8) (hc : c ≠ CR) (r : Str) :
    Gives 8 7 ReadAheadStreamAdapter.next (w ++ c :: r) (some c) r := by
  rcases hw with rfl | rfl
  · exact Gives.next hc
  · exact Gives.next_carriage c

/-- A call of `readToken` at a start tag. -/
theorem readToken_opened {names : List Str} {name text r : Str} {d : Dictionary} {n : Nat}
    {s : XmlPullParser} (hs : Ready s names text)
    (hnext : Gives 8 n ReadAheadStreamAdapter.next text (some '<'.toUInt8) r) {r' : Str}
    (hstart : ∀ c₁, Reads n c₁ r → ∃ c₂, parseStartElement { s with cursor := c₁ } =
      (.ok true, { opened { s with cursor := c₁ } name d with cursor := c₂ }) ∧ Reads 8 c₂ r') :
    ∃ s', readToken s = (.ok .START_TAG, s') ∧ Ready s' (name :: names) r' ∧
      s'.token = .START_TAG ∧ s'.localName = name ∧ s'.attributes = d := by
  obtain ⟨c₁, hrun, hc₁⟩ := onCursor_gives hnext hs.cursor
  obtain ⟨c₂, hopen, hc₂⟩ := hstart c₁ hc₁
  have hfull : ¬ (s.token = .START_TAG ∧ s.isEmptyElementTag = true) := by simp [hs.full]
  refine ⟨{ opened { s with cursor := c₁ } name d with
    cursor := c₂, depth := s.depth + 1, token := .START_TAG }, ?_, ⟨hc₂, rfl, hs.plain, ?_⟩, rfl,
    rfl, rfl⟩
  · unfold readToken
    rw [bind_ok (get_run s), if_neg hfull, bind_ok hrun]
    simp only [if_true]
    unfold parseMarkup
    rw [bind_ok hopen, if_pos rfl]
    rfl
  · simp [opened, hs.stack]

theorem readToken_start {names : List Str} {w name : Str} {attrs : List (Str × Str)} {r : Str}
    (hw : Lead w) (hname : IsName name) (hattrs : ∀ a ∈ attrs, IsAttribute a) {s : XmlPullParser}
    (hs : Ready s names (w ++ (startTag name attrs ++ r))) :
    ∃ s', readToken s = (.ok .START_TAG, s') ∧ Ready s' (name :: names) r ∧
      s'.token = .START_TAG ∧ s'.localName = name := by
  have htext : startTag name attrs ++ r =
      '<'.toUInt8 :: (name ++ (attrs.flatMap attributeText ++ '>'.toUInt8 :: r)) := by
    simp [startTag]
  rw [htext] at hs
  obtain ⟨d, hd⟩ := parseStartElement_gives hname hattrs r
  obtain ⟨s', hrun, hready, htoken, hlocal, -⟩ := readToken_opened hs (hw.next _ (by decide) _)
    fun c₁ hc₁ => hd { s with cursor := c₁ } (hc₁.mono (by omega)) hs.plain
  exact ⟨s', hrun, hready, htoken, hlocal⟩

/-- A call of `readToken` at an end tag. -/
theorem readToken_closed {names : List Str} {name text r : Str} {n : Nat} {s : XmlPullParser}
    (hs : Ready s (name :: names) text)
    (hnext : Gives 8 n ReadAheadStreamAdapter.next text (some '<'.toUInt8) r) {r' : Str}
    (hend : ∀ s' : XmlPullParser, Reads n s'.cursor r → parseStartElement s' = (.ok false, s') ∧
      ∃ c, parseEndElement s' = (.ok true, { s' with cursor := c, name := name }) ∧ Reads 8 c r') :
    ∃ s', readToken s = (.ok .END_TAG, s') ∧ Ready s' names r' ∧ s'.token = .END_TAG ∧
      s'.localName = name := by
  obtain ⟨c₁, hrun, hc₁⟩ := onCursor_gives hnext hs.cursor
  obtain ⟨hstart, c₂, hclose, hc₂⟩ := hend { s with cursor := c₁ } hc₁
  obtain ⟨e, es, hstack, hename, hes⟩ := List.map_eq_cons_iff.mp hs.stack
  have hfull : ¬ (s.token = .START_TAG ∧ s.isEmptyElementTag = true) := by simp [hs.full]
  have hplain : ¬ s.processNs = true := by simp [hs.plain]
  refine ⟨closeElement { s with cursor := c₂, name := name, localName := name, ns := e.ns, pfx := e.pfx },
    ?_, ⟨hc₂, hs.full, hs.plain, ?_⟩, rfl, rfl⟩
  · unfold readToken
    rw [bind_ok (get_run s), if_neg hfull, bind_ok hrun]
    simp only [if_true]
    unfold parseMarkup
    rw [bind_ok hstart, if_neg Bool.false_ne_true, bind_ok hclose, if_pos rfl]
    unfold matchEndTag
    have hnames : (if s.processNs = true then setNames { s with cursor := c₂, name := name }
        else { s with cursor := c₂, name := name, localName := name }) =
          { s with cursor := c₂, name := name, localName := name } := if_neg hplain
    refine (bind_ok (modify_run _ _)).trans ?_
    simp only
    rw [hnames, bind_ok (get_run _)]
    simp only [hstack]
    rw [if_pos hename.symm, bind_ok (modify_run _ _)]
    simp only [closeElement]
    rfl
  · simp [closeElement, hstack, hes]

theorem readToken_end {names : List Str} {w name : Str} {r : Str} (hw : Lead w) (hname : IsName name)
    {s : XmlPullParser} (hs : Ready s (name :: names) (w ++ (endTag name ++ r))) :
    ∃ s', readToken s = (.ok .END_TAG, s') ∧ Ready s' names r ∧ s'.token = .END_TAG ∧
      s'.localName = name := by
  have htext : endTag name ++ r = '<'.toUInt8 :: '/'.toUInt8 :: (name ++ '>'.toUInt8 :: r) := by
    simp [endTag]
  rw [htext] at hs
  exact readToken_closed hs (hw.next _ (by decide) _)
    fun s' hs' => parseEndElement_gives hname (hs'.mono (by omega))

/-- The first character of a text is put back. -/
theorem text_putback {x : Str} (hx : CharData x) (hlead : ¬ Lead x) (r : Str) :
    ∃ c y z, c ≠ '<'.toUInt8 ∧ CharData y ∧ delivered y = delivered x ∧
      Gives 8 7 ReadAheadStreamAdapter.next (x ++ '<'.toUInt8 :: r) (some c) z ∧
      Gives 7 8 (putback c) z () (y ++ '<'.toUInt8 :: r) := by
  match x with
  | [] => exact absurd (.inl rfl) hlead
  | c :: x =>
    by_cases hc : c = CR
    · subst hc
      match x with
      | [] => exact absurd (.inr rfl) hlead
      | d :: x =>
        have hd := hx d (by simp)
        have hdelivered : delivered (CR :: d :: x) = delivered (d :: x) := by simp [delivered]
        by_cases hdcr : d = CR
        · exact ⟨d, CR :: d :: x, _, hd.2.1, hx, rfl, .next_carriage d,
            .putback_cases (by omega) (.inr rfl)⟩
        · exact ⟨d, d :: x, _, hd.2.1, fun c hc => hx c (List.mem_cons_of_mem _ hc), hdelivered.symm,
            .next_carriage d, .putback hdcr (by omega)⟩
    · have hmem := hx c List.mem_cons_self
      exact ⟨c, c :: x, _, hmem.2.1, hx, rfl, .next hc, .putback hc (by omega)⟩

/-- A call of `readToken` at a text `x`, whose first character is put back. -/
theorem readToken_putback {x text z text' r : Str} {c : UInt8} {s : XmlPullParser}
    (hs : Reads 8 s.cursor text) (hfull : s.isEmptyElementTag = false) (hc : c ≠ '<'.toUInt8)
    (hnext : Gives 8 7 ReadAheadStreamAdapter.next text (some c) z)
    (hputback : Gives 7 8 (putback c) z () text')
    (hchars : ∀ c₂, Reads 8 c₂ text' → ∃ w c₃, parseCharacters { s with cursor := c₂ } =
      (.ok (decide (x ≠ [])), { s with cursor := c₃, text := x, isWhitespace := w }) ∧
        Reads 8 c₃ r) :
    ∃ w c₃, readToken s = (.ok (if x ≠ [] then .TEXT else s.token), { s with
        cursor := c₃, text := x, isWhitespace := w, token := if x ≠ [] then .TEXT else s.token }) ∧
      Reads 8 c₃ r := by
  obtain ⟨c₁, hrun₁, hc₁⟩ := onCursor_gives hnext hs
  obtain ⟨c₂, hrun₂, hc₂⟩ := onCursor_gives (s := { s with cursor := c₁ }) hputback hc₁
  obtain ⟨w, c₃, hrun₃, hc₃⟩ := hchars c₂ hc₂
  have hfull : ¬ (s.token = .START_TAG ∧ s.isEmptyElementTag = true) := by simp [hfull]
  refine ⟨w, c₃, ?_, hc₃⟩
  unfold readToken
  rw [bind_ok (get_run s), if_neg hfull, bind_ok hrun₁]
  simp only [if_neg hc]
  rw [bind_ok hrun₂, bind_ok hrun₃]
  by_cases hnone : x = []
  · simp only [hnone, ne_eq, not_true_eq_false, decide_false, Bool.false_eq_true, if_false]
    rfl
  · simp only [hnone, ne_eq, not_false_eq_true, decide_true, if_true]
    rfl

theorem readToken_chars {names : List Str} {x text z text' r : Str} {c : UInt8} {s : XmlPullParser}
    (hs : Ready s names text) (hc : c ≠ '<'.toUInt8)
    (hnext : Gives 8 7 ReadAheadStreamAdapter.next text (some c) z)
    (hputback : Gives 7 8 (putback c) z () text')
    (hchars : ∀ c₂, Reads 8 c₂ text' → ∃ w c₃, parseCharacters { s with cursor := c₂ } =
      (.ok (decide (x ≠ [])), { s with cursor := c₃, text := x, isWhitespace := w }) ∧
        Reads 8 c₃ r) :
    ∃ s', readToken s = (.ok (if x ≠ [] then .TEXT else s.token), s') ∧ Ready s' names r ∧
      s'.token = (if x ≠ [] then .TEXT else s.token) ∧ s'.text = x ∧ s'.localName = s.localName := by
  obtain ⟨w, c₃, hrun, hc₃⟩ := readToken_putback hs.cursor hs.full hc hnext hputback hchars
  exact ⟨_, hrun, ⟨hc₃, hs.full, hs.plain, hs.stack⟩, rfl, rfl, rfl⟩

/-- A text that is not empty is a token; of carriage returns alone there is none, and the call
returns the token of the call before. -/
theorem readToken_text {names : List Str} {x r : Str} (hx : CharData x) (hlead : ¬ Lead x)
    {s : XmlPullParser} (hs : Ready s names (x ++ '<'.toUInt8 :: r)) :
    ∃ s', readToken s = (.ok (if delivered x ≠ [] then .TEXT else s.token), s') ∧
      Ready s' names ('<'.toUInt8 :: r) ∧
      s'.token = (if delivered x ≠ [] then .TEXT else s.token) ∧ s'.text = delivered x ∧
      s'.localName = s.localName := by
  obtain ⟨c, y, z, hc, hy, hdelivered, hnext, hputback⟩ := text_putback hx hlead r
  refine readToken_chars hs hc hnext hputback fun c₂ hc₂ => ?_
  have hchars := parseCharacters_gives hy (s := { s with cursor := c₂ }) hc₂
  rwa [hdelivered] at hchars

/-- Behind the last character the call returns the token of the call before once more. -/
theorem readToken_last {names : List Str} {s : XmlPullParser} (hs : Ready s names []) :
    ∃ s', readToken s = (.ok s.token, s') ∧ s'.token = s.token ∧ s'.localName = s.localName := by
  have hfull : ¬ (s.token = .START_TAG ∧ s.isEmptyElementTag = true) := by simp [hs.full]
  obtain ⟨raw, hraw, hrest⟩ := hs.cursor.rest
  obtain ⟨rfl, hinput⟩ := List.append_eq_nil_iff.mp hrest.symm
  have heof := hs.cursor.eof
  rcases hcursor : s.cursor with ⟨input, eof, fail, line, column, readAhead⟩
  rw [hcursor] at hraw hinput heof
  simp only at hraw hinput heof
  subst hinput heof
  cases hraw
  have hnext : onCursor ReadAheadStreamAdapter.next s = (.ok (some 255),
      { s with cursor := ⟨[], true, true, line, column + 1, []⟩ }) := by
    unfold onCursor
    rw [hcursor]
    rfl
  have hputback : onCursor (putback 255) { s with cursor := ⟨[], true, true, line, column + 1, []⟩ } =
      (.ok (), { s with cursor := ⟨[], true, true, line, column + 1 - 1, [255]⟩ }) := rfl
  have htext : parseCharacters { s with cursor := ⟨[], true, true, line, column + 1 - 1, [255]⟩ } =
      (.ok false, { s with
        cursor := ⟨[], true, true, line, column + 1 - 1, [255]⟩, text := [], isWhitespace := true }) :=
    rfl
  refine ⟨{ s with
    cursor := ⟨[], true, true, line, column + 1 - 1, [255]⟩, text := [], isWhitespace := true }, ?_,
    rfl, rfl⟩
  unfold readToken
  rw [bind_ok (get_run s), if_neg hfull, bind_ok hnext]
  simp only [show (255 : UInt8) ≠ '<'.toUInt8 by decide, if_false]
  rw [bind_ok hputback, bind_ok htext]
  rfl

/-! ## Calls -/

theorem nextToken_started {s : XmlPullParser} (h : s.token ≠ .START_DOCUMENT) :
    nextToken s = readToken s := by
  have hprolog : parseProlog s = (.ok (), s) := by
    unfold parseProlog
    rw [bind_ok (get_run s), if_neg h]
    rfl
  exact bind_ok hprolog

/-- An empty element is closed without a look at the input. -/
theorem nextToken_empty {s : XmlPullParser} (htoken : s.token = .START_TAG)
    (hempty : s.isEmptyElementTag = true) :
    nextToken s = (.ok .END_TAG, closeElement { s with isEmptyElementTag := false }) := by
  rw [nextToken_started (by rw [htoken]; decide)]
  unfold readToken
  rw [bind_ok (get_run s), if_pos ⟨htoken, hempty⟩]
  rfl

/-- The first call, in a document that begins with a tag. -/
theorem nextToken_first {s : XmlPullParser} {c : UInt8} {r : Str} (h : s.token = .START_DOCUMENT)
    (hs : Reads 8 s.cursor ('<'.toUInt8 :: c :: r))
    (hc : c < 128 ∧ c ≠ CR ∧ c ≠ '?'.toUInt8) :
    ∃ c', nextToken s = readToken { s with cursor := c' } ∧
      Reads 8 c' ('<'.toUInt8 :: c :: r) := by
  obtain ⟨hascii, hcr, hquest⟩ := hc
  obtain ⟨c₁, hrun₁, hc₁⟩ := onCursor_gives
    (expect_other (p := 0xef) (by decide) (by decide) [0xbb, 0xbf] (c :: r)) hs
  obtain ⟨c₂, hrun₂, hc₂⟩ := onCursor_gives (s := { s with cursor := c₁ })
    (skipWhite_one (by decide) (c :: r)) hc₁
  have hdecl : Gives 8 8 (expect (['<'.toUInt8] ++ '?'.toUInt8 :: str "xml"))
      (['<'.toUInt8] ++ c :: r) false (['<'.toUInt8] ++ c :: r) := by
    refine Gives.expect_false (fun x hx => ?_) (fun heq => ?_) (by decide)
    · rcases List.mem_cons.mp hx with rfl | hx
      · exact ⟨hascii, hcr⟩
      · rw [List.mem_singleton.mp hx]
        decide
    · rw [toChar_ascii (by decide)] at heq
      have hnat : ('?'.toUInt8).toNat = c.toNat := by exact_mod_cast heq
      exact hquest (UInt8.toNat_inj.mp hnat).symm
  obtain ⟨c₃, hrun₃, hc₃⟩ := onCursor_gives (s := { s with cursor := c₂ }) hdecl hc₂
  obtain ⟨c₄, hrun₄, hc₄⟩ := onCursor_gives (s := { s with cursor := c₃ })
    (skipWhite_one (by decide) (c :: r)) hc₃
  refine ⟨c₄, ?_, hc₄⟩
  have hxml : parseXmlDecl { s with cursor := c₂ } = (.ok false, { s with cursor := c₃ }) := by
    refine (bind_ok hrun₃).trans ?_
    rfl
  have hprolog : parseProlog s = (.ok (), { s with cursor := c₄ }) := by
    unfold parseProlog
    rw [bind_ok (get_run s), if_pos h]
    refine (bind_ok hrun₁).trans ?_
    rw [bind_ok hrun₂, bind_ok hxml]
    exact hrun₄
  exact bind_ok hprolog

/-- What `next` returns when the token is an event. -/
theorem next_event {s s' : XmlPullParser} {t e : TokenType} (h : nextToken s = (.ok t, s'))
    (he : TokenType.event? t = some e) : next s = (.ok (some e), { s' with event := some e }) := by
  have hskipped : TokenType.skipped t = false := by cases t <;> first | rfl | cases he
  have hloop : nextLoop s.cursor.size s = (.ok t, s') := by
    have hsize : s.cursor.size = s.cursor.readAhead.length + s.cursor.input.length + 1 + 1 := rfl
    rw [hsize, nextLoop, bind_ok h, hskipped, if_neg Bool.false_ne_true]
    rfl
  unfold next
  rw [bind_ok (get_run s), bind_ok hloop, bind_ok (modify_run _ _), he]
  rfl

end Wsrv.XmlPullParser
