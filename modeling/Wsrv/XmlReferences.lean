import Wsrv.XmlSections

/-!
# Character references

`escapeString` takes at most five characters and then one more, which should be
the semicolon.  It refuses what has less than three.  So the number of digits
decides, leading zeros included: a decimal reference needs two to four of them, a
hexadecimal one one to three (`charRef_iff`).
-/

namespace Wsrv.XmlPullParser

open Effect ReadAheadStreamAdapter

/-! ## References -/

/-- The value of a digit, and 16 where there is none. -/
def digitValue (d : UInt8) : Nat :=
  if isdigit d then d.toNat - 48
  else if 'a'.toUInt8 ≤ d ∧ d ≤ 'f'.toUInt8 then d.toNat - 87
  else if 'A'.toUInt8 ≤ d ∧ d ≤ 'F'.toUInt8 then d.toNat - 55
  else 16

/-- The number that some digits write. -/
def number (base : Nat) (digits : Str) : Nat :=
  digits.foldl (fun n d => n * base + digitValue d) 0

/-- A reference to a character, with the digits of its number. -/
structure CharRef (c : Char) where
  hexadecimal : Bool
  digits : Str
  ne : digits ≠ []
  digit : ∀ d ∈ digits, digitValue d < if hexadecimal then 16 else 10
  value : number (if hexadecimal then 16 else 10) digits = c.toNat

/-- What stands between the ampersand and the semicolon. -/
def CharRef.text {c : Char} (ref : CharRef c) : Str :=
  (if ref.hexadecimal then str "#x" else str "#") ++ ref.digits

/-- `escapeString` appends the character, and takes the reference and no more. -/
def Expands (s : ReadAheadStreamAdapter) (c : Char) (r : Str) : Prop :=
  ∃ s', escapeString s = (.ok (some (String.utf8EncodeChar c)), s') ∧ Sees s' r

/-! ## Encoding -/

theorem char_lt (c : Char) : c.toNat < 0x110000 := by
  rcases c.valid with h | h
  · exact h.trans (by decide)
  · exact h.2

/-- The four classes of characters. -/
theorem utf8Encode_char (c : Char) : utf8Encode c.toNat = some (String.utf8EncodeChar c) := by
  have hlt := char_lt c
  have hval : c.val.toNat = c.toNat := rfl
  simp only [utf8Encode, String.utf8EncodeChar, hval, Nat.shiftRight_eq_div_pow, Nat.pow_zero,
    Nat.div_one, Nat.reducePow]
  split_ifs
  · rfl
  · rfl
  · rfl
  · rfl
  · omega

/-! ## Digits -/

/-- A digit is one for `stoul`, and neither white space nor a sign nor a mark of the base. -/
theorem digit_facts {base : Nat} (hbase : base = 10 ∨ base = 16) {d : UInt8}
    (h : digitValue d < base) : isDigitOf base d = true ∧ (hexDecode d).toNat = digitValue d ∧
      isspace d = false ∧ d ≠ '-'.toUInt8 ∧ d ≠ '+'.toUInt8 ∧ d ≠ 'x'.toUInt8 ∧ d ≠ 'X'.toUInt8 ∧
        d ≠ ';'.toUInt8 := by
  rcases hbase with rfl | rfl
  · exact forall_byte (P := fun d => digitValue d < 10 → isDigitOf 10 d = true ∧
      (hexDecode d).toNat = digitValue d ∧ isspace d = false ∧ d ≠ '-'.toUInt8 ∧ d ≠ '+'.toUInt8 ∧
        d ≠ 'x'.toUInt8 ∧ d ≠ 'X'.toUInt8 ∧ d ≠ ';'.toUInt8) (by decide +kernel) d h
  · exact forall_byte (P := fun d => digitValue d < 16 → isDigitOf 16 d = true ∧
      (hexDecode d).toNat = digitValue d ∧ isspace d = false ∧ d ≠ '-'.toUInt8 ∧ d ≠ '+'.toUInt8 ∧
        d ≠ 'x'.toUInt8 ∧ d ≠ 'X'.toUInt8 ∧ d ≠ ';'.toUInt8) (by decide +kernel) d h

/-- `stoul` reads the number. -/
theorem stoul_digits {base : Nat} (hbase : base = 10 ∨ base = 16) {digits : Str}
    (hne : digits ≠ []) (h : ∀ d ∈ digits, digitValue d < base) :
    stoul base digits = some (number base digits) := by
  have hfacts : ∀ d ∈ digits, _ := fun d hd => digit_facts hbase (h d hd)
  have hspace : digits.dropWhile isspace = digits := by
    obtain ⟨d, ds, rfl⟩ := List.exists_cons_of_ne_nil hne
    rw [List.dropWhile_cons_of_neg (by simp [(hfacts d List.mem_cons_self).2.2.1])]
  have hsign : splitSign digits = (false, digits) := by
    obtain ⟨d, ds, rfl⟩ := List.exists_cons_of_ne_nil hne
    obtain ⟨-, -, -, hminus, hplus, -⟩ := hfacts d List.mem_cons_self
    rw [splitSign, if_neg hminus, if_neg hplus]
  have hmark : ¬ (base = 16 ∧ digits.head? = some '0'.toUInt8 ∧
      (digits.getD 1 0 = 'x'.toUInt8 ∨ digits.getD 1 0 = 'X'.toUInt8) ∧
        isDigitOf 16 (digits.getD 2 0) = true) := by
    rintro ⟨-, -, hx, -⟩
    rcases digits with _ | ⟨c, _ | ⟨d, ds⟩⟩
    · exact absurd rfl hne
    · have hnone : (0 : UInt8) = 'x'.toUInt8 ∨ (0 : UInt8) = 'X'.toUInt8 := hx
      revert hnone
      decide
    · obtain ⟨-, -, -, -, -, hlower, hupper, -⟩ := hfacts d (by simp)
      exact hx.elim hlower hupper
  have htake : digits.takeWhile (isDigitOf base) = digits :=
    List.takeWhile_eq_self_iff.mpr fun d hd => (hfacts d hd).1
  have hvalue : digits.foldl (fun n d => n * base + (hexDecode d).toNat) 0 = number base digits := by
    unfold number
    exact List.foldl_ext _ _ _ fun n d hd => by rw [(hfacts d hd).2.1]
  unfold stoul
  simp only [hspace, hsign, if_neg hmark, htake, if_neg hne, hvalue, Bool.false_eq_true, if_false]

/-! ## The scan -/

/-- Up to the semicolon, or five characters and the one behind them. -/
theorem escapeLoop_sees {q r : Str} (hq : ';'.toUInt8 ∉ q) {s : ReadAheadStreamAdapter}
    (h : Sees s (q ++ ';'.toUInt8 :: r)) (n : Nat) (acc : Str) :
    ∃ s', escapeLoop n acc s = (.ok (acc ++ q.take n), s') ∧
      Sees s' (if q.length ≤ n then r else q.drop (n + 1) ++ ';'.toUInt8 :: r) := by
  induction n generalizing q s acc with
  | zero =>
    cases q with
    | nil =>
      obtain ⟨s', hrun, hsees⟩ := next_sees h
      exact ⟨s', (bind_ok hrun).trans (by rw [List.take_nil, List.append_nil]; rfl), hsees⟩
    | cons c q =>
      obtain ⟨s', hrun, hsees⟩ := next_sees h
      exact ⟨s', (bind_ok hrun).trans (by rw [List.take_zero, List.append_nil]; rfl), hsees⟩
  | succ n ih =>
    cases q with
    | nil =>
      obtain ⟨s', hrun, hsees⟩ := next_sees h
      exact ⟨s', (bind_ok hrun).trans (by rw [List.take_nil, List.append_nil]; rfl), hsees⟩
    | cons c q =>
      rw [List.mem_cons, not_or] at hq
      obtain ⟨s₁, hrun₁, hsees₁⟩ := next_sees h
      obtain ⟨s', hrun, hsees⟩ := ih hq.2 hsees₁ (acc ++ [c])
      refine ⟨s', (bind_ok hrun₁).trans ?_, ?_⟩
      · simp only [if_neg (Ne.symm hq.1)]
        rw [hrun, List.take_succ_cons, List.append_assoc, List.singleton_append]
      · simpa using hsees

theorem escapeString_sees {q r : Str} (hq : ';'.toUInt8 ∉ q) {s : ReadAheadStreamAdapter}
    (h : Sees s (q ++ ';'.toUInt8 :: r)) :
    ∃ s', escapeString s = (.ok (reference (q.take 5)), s') ∧
      Sees s' (if q.length ≤ 5 then r else q.drop 6 ++ ';'.toUInt8 :: r) := by
  obtain ⟨s', hrun, hsees⟩ := escapeLoop_sees hq h 5 []
  exact ⟨s', (bind_ok hrun).trans rfl, hsees⟩

/-! ## The references that are read -/

/-- A number sign and a name have nothing in common. -/
theorem reference_number (q : Str) : reference ('#'.toUInt8 :: q) =
    if 2 ≤ q.length then
      (if q.getD 0 0 = 'x'.toUInt8 then stoul 16 (q.drop 1) else stoul 10 q).bind fun n =>
        utf8Encode (n % 2 ^ 32)
    else none := by
  have hname {name : Str} (hfirst : name.head? ≠ some '#'.toUInt8) : '#'.toUInt8 :: q ≠ name :=
    fun h => hfirst (h ▸ List.head?_cons)
  unfold reference
  rw [if_neg (hname (by decide)), if_neg (hname (by decide)), if_neg (hname (by decide)),
    if_neg (hname (by decide)), if_neg (hname (by decide))]
  simp only [List.length_cons, List.head?_cons, and_true, gt_iff_lt, Nat.lt_add_one_iff,
    List.getD_cons_succ, List.drop_succ_cons, List.drop_zero]

namespace CharRef

variable {c : Char} (ref : CharRef c)

theorem semicolon : ';'.toUInt8 ∉ ref.text := by
  have hdigits : ';'.toUInt8 ∉ ref.digits := fun hm => by
    have hd := ref.digit _ hm
    split at hd
    · exact (digit_facts (.inr rfl) hd).2.2.2.2.2.2.2 rfl
    · exact (digit_facts (.inl rfl) hd).2.2.2.2.2.2.2 rfl
  unfold text
  rw [List.mem_append, not_or]
  refine ⟨?_, hdigits⟩
  split <;> decide

/-- What a reference of at least three characters stands for. -/
theorem reference_text :
    reference ref.text = if 3 ≤ ref.text.length then some (String.utf8EncodeChar c) else none := by
  have hlt := char_lt c
  have hencode : utf8Encode (c.toNat % 2 ^ 32) = some (String.utf8EncodeChar c) := by
    rw [Nat.mod_eq_of_lt (by omega), utf8Encode_char]
  have hvalue := ref.value
  have hdigit := ref.digit
  unfold text
  cases hform : ref.hexadecimal with
  | true =>
    simp only [hform, if_true] at hvalue hdigit ⊢
    have hstoul := stoul_digits (.inr rfl) ref.ne hdigit
    have htext : str "#x" ++ ref.digits = '#'.toUInt8 :: 'x'.toUInt8 :: ref.digits := rfl
    rw [htext, reference_number, List.getD_cons_zero, if_pos rfl, List.drop_one, List.tail_cons,
      hstoul, hvalue, Option.bind_some, hencode]
    simp
  | false =>
    simp only [hform, Bool.false_eq_true, if_false] at hvalue hdigit ⊢
    have hstoul := stoul_digits (.inl rfl) ref.ne hdigit
    have htext : str "#" ++ ref.digits = '#'.toUInt8 :: ref.digits := rfl
    have hmark : ref.digits.getD 0 0 ≠ 'x'.toUInt8 := by
      obtain ⟨d, ds, hds⟩ := List.exists_cons_of_ne_nil ref.ne
      have hd := digit_facts (.inl rfl) (hdigit d (by rw [hds]; exact List.mem_cons_self))
      rw [hds, List.getD_cons_zero]
      exact hd.2.2.2.2.2.1
    rw [htext, reference_number, if_neg hmark, hstoul, hvalue, Option.bind_some, hencode]
    simp

end CharRef

/-- **A reference is read when it has three to five characters** before its semicolon. -/
theorem charRef_iff {c : Char} (ref : CharRef c) {s : ReadAheadStreamAdapter} {r : Str}
    (h : Sees s (ref.text ++ ';'.toUInt8 :: r)) :
    Expands s c r ↔ 3 ≤ ref.text.length ∧ ref.text.length ≤ 5 := by
  obtain ⟨s₁, hrun, hsees⟩ := escapeString_sees ref.semicolon h
  by_cases hlength : ref.text.length ≤ 5
  · rw [if_pos hlength] at hsees
    rw [List.take_of_length_le hlength, ref.reference_text] at hrun
    constructor
    · rintro ⟨s', hrun', -⟩
      have hsome := Except.ok.inj (Prod.mk.inj (hrun.symm.trans hrun')).1
      by_contra hshort
      rw [if_neg fun h3 => hshort ⟨h3, hlength⟩] at hsome
      cases hsome
    · rintro ⟨h3, -⟩
      rw [if_pos h3] at hrun
      exact ⟨s₁, hrun, hsees⟩
  · -- a character of the reference was taken for the semicolon
    refine ⟨?_, fun hshort => absurd hshort.2 hlength⟩
    rintro ⟨s', hrun', hsees'⟩
    obtain rfl := (Prod.mk.inj (hrun.symm.trans hrun')).2
    have hrest := hsees.rest.symm.trans hsees'.rest
    rw [if_neg hlength] at hrest
    have := congrArg List.length hrest
    rw [List.length_append, List.length_cons] at this
    omega

/-- `&#233;`. -/
def acuteRef : CharRef 'é' where
  hexadecimal := false
  digits := str "233"
  ne := by decide
  digit := by decide +kernel
  value := by decide +kernel

theorem acute_expands :
    Expands (ofStream (str "#233;s")).cursor 'é' (str "s") ↔
      3 ≤ acuteRef.text.length ∧ acuteRef.text.length ≤ 5 :=
  charRef_iff acuteRef (ofStream_sees (by decide))

/-- What `escapeString` gives decides. -/
theorem not_expands {s : ReadAheadStreamAdapter} {c : Char} {r : Str} {value : Option Str}
    (h : (escapeString s).1 = .ok value) (hne : value ≠ some (String.utf8EncodeChar c)) :
    ¬ Expands s c r := by
  rintro ⟨s', hrun, -⟩
  rw [hrun] at h
  exact hne (Except.ok.inj h).symm

/-- A tab, and a character behind the first plane. -/
theorem refs_fail :
    ¬ Expands (ofStream (str "#9;")).cursor '\t' [] ∧
      ¬ Expands (ofStream (str "#x1F600;")).cursor (Char.ofNat 0x1f600) [] :=
  ⟨@not_expands _ _ _ none (by decide +kernel) (by decide),
    @not_expands _ _ _ (utf8Encode 0x1f6) (by decide +kernel) (by decide +kernel)⟩

end Wsrv.XmlPullParser
