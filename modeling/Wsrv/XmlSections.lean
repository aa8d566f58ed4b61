import Wsrv.XmlPullParser
import Wsrv.XmlStream

/-!
# Delimited sections

A comment, a CDATA section and a processing instruction should end at their
first terminator, with the text before it.  The loops of `parseComment` and
`parsePI` read a character and then probe for the terminator: they lose the last
character of the text, and never find a terminator at the front.  `parsePI` does
not notice the end of the input.  `parseCData` drops every bracket that does not
belong to its terminator.  What is left of the claim is in `sections_iff`.
-/

namespace Wsrv.XmlPullParser

open Effect ReadAheadStreamAdapter

/-! ## What should be read -/

/-- The terminator occurs first behind `x`. -/
def First (ending t x rest : Str) : Prop :=
  t = x ++ (ending ++ rest) ∧ ∀ x' rest', t = x' ++ (ending ++ rest') → x.length ≤ x'.length

/-- The section with the content `t` ends at its first terminator, and only there. -/
structure Delimited (parse : Parser Bool) (ending : Str) (s : XmlPullParser) (t : Str) : Prop where
  ends : ∀ x rest, First ending t x rest →
    ∃ s', parse s = (.ok true, s') ∧ s'.text = x ∧ Sees s'.cursor rest
  unended : ¬ ending <:+: t → ∀ s', parse s ≠ (.ok true, s')

theorem exists_first {ending t : Str} (h : ending <:+: t) : ∃ x rest, First ending t x rest := by
  induction t with
  | nil =>
    obtain rfl := List.infix_nil.mp h
    exact ⟨[], [], rfl, fun _ _ _ => Nat.zero_le _⟩
  | cons c t ih =>
    by_cases hpfx : ending <+: c :: t
    · obtain ⟨rest, hrest⟩ := hpfx
      exact ⟨[], rest, hrest.symm, fun _ _ _ => Nat.zero_le _⟩
    · obtain ⟨x, rest, rfl, hfirst⟩ := ih ((List.infix_cons_iff.mp h).resolve_left hpfx)
      refine ⟨c :: x, rest, rfl, fun x' rest' heq => ?_⟩
      match x' with
      | [] => exact absurd ⟨rest', heq.symm⟩ hpfx
      | d :: x' =>
        have hle := hfirst x' rest' (List.cons.inj heq).2
        simpa using hle

theorem onCursor_run {α : Type} {x : Cursor α} {s : XmlPullParser} {r : Except XmlStop α}
    {c : ReadAheadStreamAdapter} (h : x s.cursor = (r, c)) :
    onCursor x s = (r, { s with cursor := c }) := by
  unfold onCursor
  rw [h]

/-! ## Read, then probe -/

/-- The loop stops at the end of the input, or at a terminator with a character in front of it that
is not in the text. -/
theorem untilLoop_sees {ending : Str} (hne : ending ≠ []) (hlength : ending.length ≤ 8) {r : Str}
    {s : ReadAheadStreamAdapter} (h : Sees s r) (acc : Str) {k : Nat} (hk : r.length + 2 ≤ k) :
    ∃ t s', whileNext (untilStep ending) k acc s = (.ok t, s') ∧
      (Over s' ∨ ∃ before c rest, r = before ++ c :: (ending ++ rest) ∧ Sees s' rest ∧
        t.length ≤ acc.length + before.length) := by
  induction hn : r.length using Nat.strong_induction_on generalizing r s acc k with
  | _ n ih =>
    subst hn
    obtain ⟨k, rfl⟩ := Nat.exists_eq_succ_of_ne_zero (n := k) (by omega)
    cases r with
    | nil =>
      -- one character more is read, and the loop ends with the next one
      obtain ⟨k, rfl⟩ := Nat.exists_eq_succ_of_ne_zero (n := k) (by simp at hk; omega)
      obtain ⟨p, ending, rfl⟩ := List.exists_cons_of_ne_nil hne
      obtain ⟨s₁, hrun₁, hover₁⟩ := next_end h
      obtain ⟨s₂, hrun₂, hover₂⟩ := expect_over p ending hover₁
      refine ⟨acc ++ [255], s₂, ?_, .inl hover₂⟩
      have hstep : untilStep (p :: ending) 255 acc s₁ = (.ok (true, acc ++ [255]), s₂) := by
        unfold untilStep
        rw [bind_ok hrun₂]
        rfl
      exact (bind_ok hrun₁).trans ((bind_ok hstep).trans (whileNext_over _ k _ hover₂))
    | cons c r =>
      rw [List.length_cons] at hk
      obtain ⟨s₁, hrun₁, hsees₁⟩ := next_sees h
      obtain ⟨b, s₂, hrun₂, hprobe⟩ := expect_sees ending hsees₁ hlength
      rcases hprobe with ⟨rfl, rest, hrest, rfl⟩ | ⟨rfl, hfails⟩
      · refine ⟨acc, s₂, ?_, .inr ⟨[], c, rest, rfl, hrest, le_rfl⟩⟩
        have hstep : untilStep ending c acc s₁ = (.ok (false, acc), s₂) := by
          unfold untilStep
          rw [bind_ok hrun₂]
          rfl
        exact (bind_ok hrun₁).trans ((bind_ok hstep).trans rfl)
      · have hstep : untilStep ending c acc s₁ = (.ok (true, acc ++ [c]), s₂) := by
          unfold untilStep
          rw [bind_ok hrun₂]
          rfl
        have hturn : whileNext (untilStep ending) (k + 1) acc s =
            whileNext (untilStep ending) k (acc ++ [c]) s₂ :=
          (bind_ok hrun₁).trans ((bind_ok hstep).trans rfl)
        rcases hfails with hover | ⟨lost, r', rfl, hsees₂⟩
        · obtain ⟨k, rfl⟩ := Nat.exists_eq_succ_of_ne_zero (n := k) (by omega)
          exact ⟨_, s₂, hturn.trans (whileNext_over _ k _ hover), .inl hover⟩
        · rw [List.length_append] at hk
          obtain ⟨t, s', hrun, hend⟩ := ih r'.length
            (by rw [List.length_cons, List.length_append]; omega) hsees₂ (acc ++ [c])
            (k := k) (by omega) rfl
          refine ⟨t, s', hturn.trans hrun, hend.imp_right ?_⟩
          rintro ⟨before, d, rest, rfl, hsees', hle⟩
          refine ⟨c :: (lost ++ before), d, rest, by simp, hsees', ?_⟩
          rw [List.length_append, List.length_singleton] at hle
          rw [List.length_cons, List.length_append]
          omega

/-- The same, for as many turns as there may be. -/
theorem untilAll_sees (ending : Str) (hne : ending ≠ []) (hlength : ending.length ≤ 8) {r : Str}
    {s : ReadAheadStreamAdapter} (h : Sees s r) :
    ∃ t s', sized (fun n => whileNext (untilStep ending) n []) s = (.ok t, s') ∧
      (Over s' ∨ ∃ before c rest, r = before ++ c :: (ending ++ rest) ∧ Sees s' rest ∧
        t.length ≤ before.length) := by
  obtain ⟨t, s', hrun, hend⟩ := untilLoop_sees hne hlength h [] h.le_size
  refine ⟨t, s', (bind_ok (get_run s)).trans hrun, ?_⟩
  simpa using hend

/-- Where the loop stops at a terminator, the text is too short for the first one. -/
theorem too_short {ending t x rest before text : Str} {c : UInt8} {rest' : Str}
    (hfirst : First ending t x rest) (ht : t = before ++ c :: (ending ++ rest'))
    (htext : text.length ≤ before.length) (hx : text = x) (hrest : rest = rest') : False := by
  subst hx hrest
  have hlength := congrArg List.length (hfirst.1.symm.trans ht)
  simp only [List.length_append, List.length_cons] at hlength
  omega

/-! ## The three functions -/

theorem parseComment_sees {s : XmlPullParser} {t : Str} (h : Sees s.cursor (str "!--" ++ t)) :
    (∃ e s', parseComment s = (.error e, s')) ∨
      ∃ s' before c rest, parseComment s = (.ok true, s') ∧
        t = before ++ c :: (str "-->" ++ rest) ∧ Sees s'.cursor rest ∧
          s'.text.length ≤ before.length := by
  obtain ⟨c₁, hrun₁, hsees₁⟩ := expect_found (str "!--") (by decide +kernel) (by decide) h
  obtain ⟨text, c₂, hrun₂, hend⟩ := untilAll_sees (str "-->") (by decide) (by decide) hsees₁
  have hstart : parseComment s = (do
      if (← get).cursor.fail then fatal "End of input reached while parsing comment"
      else return true : Parser Bool) { s with cursor := c₂, text := text } := by
    unfold parseComment
    rw [bind_ok (onCursor_run hrun₁), if_pos rfl,
      bind_ok (onCursor_run (s := { s with cursor := c₁ }) hrun₂), bind_ok (modify_run _ _)]
  rw [hstart, bind_ok (get_run _)]
  rcases hend with hover | ⟨before, c, rest, ht, hsees₂, hle⟩
  · refine .inl ?_
    simp only [hover.fail, if_true]
    exact ⟨_, _, rfl⟩
  · refine .inr ⟨{ s with cursor := c₂, text := text }, before, c, rest, ?_, ht, hsees₂, hle⟩
    simp only [hsees₂.fail]
    rfl

theorem parsePI_sees {s : XmlPullParser} {t : Str} (h : Sees s.cursor (str "?" ++ t)) :
    ∃ s', parsePI s = (.ok true, s') ∧ (Over s'.cursor ∨ ∃ before c rest,
      t = before ++ c :: (str "?>" ++ rest) ∧ Sees s'.cursor rest ∧
        s'.text.length ≤ before.length) := by
  obtain ⟨c₁, hrun₁, hsees₁⟩ := expect_found (str "?") (by decide +kernel) (by decide) h
  obtain ⟨text, c₂, hrun₂, hend⟩ := untilAll_sees (str "?>") (by decide) (by decide) hsees₁
  refine ⟨{ s with cursor := c₂, text := text }, ?_, hend⟩
  unfold parsePI
  rw [bind_ok (onCursor_run hrun₁), if_pos rfl,
    bind_ok (onCursor_run (s := { s with cursor := c₁ }) hrun₂)]
  rfl

/-! ## Brackets -/

theorem cdataStep_char {c : UInt8} (hc : c ≠ ']'.toUInt8) (t : Str × Bool)
    (s : ReadAheadStreamAdapter) : cdataStep c t s = (.ok (true, t.1 ++ [c], false), s) := by
  unfold cdataStep
  rw [if_pos hc]
  rfl

theorem cdataStep_bracket {t : Str × Bool} {b : Bool} {s s' : ReadAheadStreamAdapter}
    (h : expect (str "]>") s = (.ok b, s')) :
    cdataStep ']'.toUInt8 t s = (.ok (!b, t.1, b), s') := by
  unfold cdataStep
  rw [if_neg (not_not.mpr rfl), bind_ok h]
  cases b <;> rfl

theorem whileNext_turn {α : Type} {body : UInt8 → α → Cursor (Bool × α)} {k : Nat} {a a' : α}
    {c : UInt8} {goOn : Bool} {s s₁ s₂ : ReadAheadStreamAdapter}
    (hnext : ReadAheadStreamAdapter.next s = (.ok (some c), s₁))
    (hbody : body c a s₁ = (.ok (goOn, a'), s₂)) :
    whileNext body (k + 1) a s = if goOn then whileNext body k a' s₂ else (.ok a', s₂) := by
  refine (bind_ok hnext).trans ((bind_ok hbody).trans ?_)
  cases goOn <;> rfl

/-- A bracket is never in the text, and the section is closed by a terminator. -/
theorem cdataLoop_sees {r : Str} {s : ReadAheadStreamAdapter} (h : Sees s r) (acc : Str) {k : Nat}
    (hacc : ']'.toUInt8 ∉ acc) (hk : r.length + 2 ≤ k) :
    ∃ t s', whileNext cdataStep k (acc, false) s = (.ok t, s') ∧ ']'.toUInt8 ∉ t.1 ∧
      (t.2 = true → str "]]>" <:+: r) := by
  induction hn : r.length using Nat.strong_induction_on generalizing r s acc k with
  | _ n ih =>
    subst hn
    obtain ⟨k, rfl⟩ := Nat.exists_eq_succ_of_ne_zero (n := k) (by omega)
    cases r with
    | nil =>
      obtain ⟨k, rfl⟩ := Nat.exists_eq_succ_of_ne_zero (n := k) (by simp at hk; omega)
      obtain ⟨s₁, hrun₁, hover⟩ := next_end h
      refine ⟨(acc ++ [255], false), s₁, ?_, by simpa using ⟨hacc, by decide⟩, by simp⟩
      rw [whileNext_turn hrun₁ (cdataStep_char (by decide) _ _), if_pos rfl]
      exact whileNext_over _ k _ hover
    | cons c r =>
      rw [List.length_cons] at hk
      obtain ⟨s₁, hrun₁, hsees₁⟩ := next_sees h
      by_cases hc : c = ']'.toUInt8
      · subst hc
        obtain ⟨b, s₂, hrun₂, hprobe⟩ := expect_sees (str "]>") hsees₁ (by decide)
        rw [whileNext_turn hrun₁ (cdataStep_bracket hrun₂)]
        rcases hprobe with ⟨rfl, rest, -, rfl⟩ | ⟨rfl, hover | ⟨lost, r', rfl, hsees₂⟩⟩
        · exact ⟨(acc, true), s₂, rfl, hacc, fun _ => ⟨[], rest, rfl⟩⟩
        · obtain ⟨k, rfl⟩ := Nat.exists_eq_succ_of_ne_zero (n := k) (by omega)
          exact ⟨(acc, false), s₂, whileNext_over _ k _ hover, hacc, by simp⟩
        · rw [List.length_append] at hk
          obtain ⟨t, s', hrun, htext, hclosed⟩ := ih r'.length
            (by rw [List.length_cons, List.length_append]; omega) hsees₂ acc (k := k) hacc (by omega) rfl
          refine ⟨t, s', hrun, htext, fun ht => (hclosed ht).trans ?_⟩
          exact ⟨']'.toUInt8 :: lost, [], by simp⟩
      · obtain ⟨t, s', hrun, htext, hclosed⟩ := ih r.length (by simp) hsees₁ (acc ++ [c])
          (k := k) (by simpa using ⟨hacc, Ne.symm hc⟩) (by omega) rfl
        refine ⟨t, s', ?_, htext, fun ht => (hclosed ht).trans (List.suffix_cons c r).isInfix⟩
        rw [whileNext_turn hrun₁ (cdataStep_char hc _ _), if_pos rfl]
        exact hrun

/-- A text without brackets is read up to the terminator. -/
theorem cdataLoop_plain {x rest : Str} (hx : ']'.toUInt8 ∉ x) {s : ReadAheadStreamAdapter}
    (h : Sees s (x ++ (str "]]>" ++ rest))) (acc : Str) {k : Nat} (hk : x.length + 1 ≤ k) :
    ∃ s', whileNext cdataStep k (acc, false) s = (.ok (acc ++ x, true), s') ∧ Sees s' rest := by
  induction x generalizing s acc k with
  | nil =>
    obtain ⟨k, rfl⟩ := Nat.exists_eq_succ_of_ne_zero (n := k) (by omega)
    obtain ⟨s₁, hrun₁, hsees₁⟩ := next_sees (c := ']'.toUInt8) (r := str "]>" ++ rest) h
    obtain ⟨s₂, hrun₂, hsees₂⟩ := expect_found (str "]>") (by decide +kernel) (by decide) hsees₁
    refine ⟨s₂, ?_, hsees₂⟩
    rw [whileNext_turn hrun₁ (cdataStep_bracket hrun₂), List.append_nil]
    rfl
  | cons c x ih =>
    rw [List.mem_cons, not_or] at hx
    rw [List.length_cons] at hk
    obtain ⟨k, rfl⟩ := Nat.exists_eq_succ_of_ne_zero (n := k) (by omega)
    obtain ⟨s₁, hrun₁, hsees₁⟩ := next_sees h
    obtain ⟨s', hrun, hsees'⟩ := ih hx.2 hsees₁ (acc ++ [c]) (k := k) (by omega)
    refine ⟨s', ?_, hsees'⟩
    rw [whileNext_turn hrun₁ (cdataStep_char (Ne.symm hx.1) _ _), if_pos rfl, hrun, List.append_assoc,
      List.singleton_append]

theorem parseCData_run {s : XmlPullParser} {t : Str} (h : Sees s.cursor (str "![CDATA[" ++ t)) :
    ∃ c₁, Sees c₁ t ∧ ∀ scan c₂, whileNext cdataStep c₁.size ([], false) c₁ = (.ok scan, c₂) →
      parseCData s = (.ok scan.2, { s with cursor := c₂, text := scan.1 }) := by
  obtain ⟨c₁, hrun₁, hsees₁⟩ := expect_found (str "![CDATA[") (by decide +kernel) (by decide) h
  refine ⟨c₁, hsees₁, fun scan c₂ hscan => ?_⟩
  have hrun₂ : sized (fun n => whileNext cdataStep n ([], false)) c₁ = (.ok scan, c₂) :=
    (bind_ok (get_run c₁)).trans hscan
  unfold parseCData
  rw [bind_ok (onCursor_run hrun₁), if_pos rfl,
    bind_ok (onCursor_run (s := { s with cursor := c₁ }) hrun₂)]
  rfl

/-! ## The claims -/

/-- A comment is read as it should be only when it does not end. -/
theorem comment_iff {s : XmlPullParser} {t : Str} (h : Sees s.cursor (str "!--" ++ t)) :
    Delimited parseComment (str "-->") s t ↔ ¬ str "-->" <:+: t := by
  have hrun := parseComment_sees h
  constructor
  · intro hdelimited hinfix
    obtain ⟨x, rest, hfirst⟩ := exists_first hinfix
    obtain ⟨s', hparse, htext, hsees⟩ := hdelimited.ends x rest hfirst
    rcases hrun with ⟨e, s'', herror⟩ | ⟨s'', before, c, rest', hok, ht, hsees', hle⟩
    · cases herror.symm.trans hparse
    · obtain rfl : s'' = s' := (Prod.mk.inj (hok.symm.trans hparse)).2
      exact too_short hfirst ht hle htext (hsees.rest.symm.trans hsees'.rest)
  · intro hnone
    refine ⟨fun x rest hfirst => ?_, fun _ s' hparse => ?_⟩
    · exact absurd ⟨x, rest, by rw [hfirst.1, List.append_assoc]⟩ hnone
    · rcases hrun with ⟨e, s'', herror⟩ | ⟨s'', before, c, rest', hok, ht, -⟩
      · cases herror.symm.trans hparse
      · exact hnone ⟨before ++ [c], rest', by rw [ht]; simp⟩

/-- A processing instruction never is. -/
theorem pi_not {s : XmlPullParser} {t : Str} (h : Sees s.cursor (str "?" ++ t)) :
    ¬ Delimited parsePI (str "?>") s t := by
  intro hdelimited
  obtain ⟨s', hparse, hend⟩ := parsePI_sees h
  by_cases hinfix : str "?>" <:+: t
  · obtain ⟨x, rest, hfirst⟩ := exists_first hinfix
    obtain ⟨s'', hparse', htext, hsees⟩ := hdelimited.ends x rest hfirst
    obtain rfl : s' = s'' := (Prod.mk.inj (hparse.symm.trans hparse')).2
    rcases hend with hover | ⟨before, c, rest', ht, hsees', hle⟩
    · exact hsees.not_over hover
    · exact too_short hfirst ht hle htext (hsees.rest.symm.trans hsees'.rest)
  · exact hdelimited.unended hinfix s' hparse

/-- A CDATA section is read as it should be when there is no bracket in its text. -/
theorem cdata_iff {s : XmlPullParser} {t : Str} (h : Sees s.cursor (str "![CDATA[" ++ t)) :
    Delimited parseCData (str "]]>") s t ↔ ∀ x rest, First (str "]]>") t x rest → ']'.toUInt8 ∉ x := by
  obtain ⟨c₁, hsees₁, hrun⟩ := parseCData_run h
  obtain ⟨scan, c₂, hscan, htext, hclosed⟩ :=
    cdataLoop_sees hsees₁ [] List.not_mem_nil hsees₁.le_size
  have hparse := hrun scan c₂ hscan
  constructor
  · intro hdelimited x rest hfirst
    obtain ⟨s', hparse', hx, -⟩ := hdelimited.ends x rest hfirst
    obtain rfl := (Prod.mk.inj (hparse.symm.trans hparse')).2
    rw [← hx]
    exact htext
  · intro hplain
    refine ⟨fun x rest hfirst => ?_, fun hnone s' hparse' => ?_⟩
    · have hsize := hsees₁.le_size
      have hsees := hsees₁
      rw [hfirst.1] at hsize hsees
      obtain ⟨c₃, hloop, hsees₃⟩ := cdataLoop_plain (hplain x rest hfirst) hsees []
        (k := c₁.size) (by rw [List.length_append] at hsize; omega)
      exact ⟨_, hrun _ c₃ hloop, rfl, hsees₃⟩
    · have hbool := Except.ok.inj (Prod.mk.inj (hparse.symm.trans hparse')).1
      exact hnone (hclosed hbool)

/-- **Sections end at their first terminator** only as far as a comment does not end at all, and no
bracket stands in a CDATA section; a processing instruction does not. -/
theorem sections_iff (s : XmlPullParser) (t : Str) :
    (Sees s.cursor (str "!--" ++ t) →
      (Delimited parseComment (str "-->") s t ↔ ¬ str "-->" <:+: t)) ∧
    (Sees s.cursor (str "![CDATA[" ++ t) →
      (Delimited parseCData (str "]]>") s t ↔
        ∀ x rest, First (str "]]>") t x rest → ']'.toUInt8 ∉ x)) ∧
    (Sees s.cursor (str "?" ++ t) → ¬ Delimited parsePI (str "?>") s t) :=
  ⟨comment_iff, cdata_iff, pi_not⟩

theorem ofStream_sees {doc : Str} (h : CR ∉ doc) : Sees (ofStream doc).cursor doc :=
  ⟨Nat.zero_le 8, uncarried_eq_self h, rfl, rfl⟩

/-- The content `ab`, the text and the terminator of each of the three. -/
theorem sections_ab :
    (Delimited parseComment (str "-->") (ofStream (str "!--ab-->")) (str "ab-->") ↔
      ¬ str "-->" <:+: str "ab-->") ∧
    (Delimited parseCData (str "]]>") (ofStream (str "![CDATA[ab]]>")) (str "ab]]>") ↔
      ∀ x rest, First (str "]]>") (str "ab]]>") x rest → ']'.toUInt8 ∉ x) ∧
    ¬ Delimited parsePI (str "?>") (ofStream (str "?ab?>")) (str "ab?>") :=
  ⟨(sections_iff _ _).1 (ofStream_sees (by decide)),
    (sections_iff _ _).2.1 (ofStream_sees (by decide)),
    (sections_iff _ _).2.2 (ofStream_sees (by decide))⟩

/-- The comment `ab` has the text `a`. -/
theorem comment_loses :
    ¬ Delimited parseComment (str "-->") (ofStream (str "!--ab-->")) (str "ab-->") := fun h =>
  (comment_iff (ofStream_sees (by decide))).mp h ⟨str "ab", [], rfl⟩

end Wsrv.XmlPullParser
