import Wsrv.Util

/-!
# The percent codec

`url_encode` leaves the unreserved characters alone, writes a space as `+` and
everything else as two digits, so that its text is free of separators.
A text that is encoded twice is the same only when it is unreserved
(`urlEncode_twice_iff`).

`percentDecode` is the inverse of the encoding (`percentDecode_urlEncode`) and
takes texts apart piece by piece (`percentDecode_append`); `url_decode` drops
the NUL bytes of what it gives (`urlDecode_eq`), so that texts without them are
decoded to themselves (`percentCodec`).
-/

namespace Wsrv

/-- The characters `url_encode` leaves alone. -/
def unreserved (c : UInt8) : Bool :=
  isdigit c || isalpha c || (str "-_.!~*'()").contains c

def Unreserved (s : Str) : Prop := ∀ c ∈ s, unreserved c = true

instance (s : Str) : Decidable (Unreserved s) := inferInstanceAs (Decidable (∀ c ∈ s, _))

/-! ## One byte -/

/-- What `url_encode` appends for one byte. -/
def encodeByte (c : UInt8) : Str :=
  if unreserved c then [c]
  else if c = ' '.toUInt8 then ['+'.toUInt8]
  else ['%'.toUInt8, hexDigit (c / 16), hexDigit (c % 16)]

/-- The characters of an encoded text. -/
def coded (c : UInt8) : Bool := unreserved c || c == '+'.toUInt8 || c == '%'.toUInt8

theorem hexDigit_unreserved {n : UInt8} (h : n < 16) : unreserved (hexDigit n) = true := by
  have hall : ∀ n : Fin 16, unreserved (hexDigit (UInt8.ofNat n)) = true := by decide +kernel
  simpa using hall ⟨n.toNat, UInt8.lt_iff_toNat_lt.mp h⟩

theorem encodeByte_coded (c : UInt8) : ∀ x ∈ encodeByte c, coded x = true := by
  intro x hx
  have hlt : ∀ n : UInt8, n < 16 → coded (hexDigit n) = true := fun n hn => by
    simp [coded, hexDigit_unreserved hn]
  unfold encodeByte at hx
  split_ifs at hx with h1 h2
  · obtain rfl := List.mem_singleton.mp hx
    simp [coded, h1]
  · obtain rfl := List.mem_singleton.mp hx
    decide
  · simp only [List.mem_cons, List.not_mem_nil, or_false] at hx
    rcases hx with rfl | rfl | rfl
    · decide
    · exact hlt _ (by
        rw [UInt8.lt_iff_toNat_lt, UInt8.toNat_div]
        have := c.toNat_lt
        simp
        omega)
    · exact hlt _ (by
        rw [UInt8.lt_iff_toNat_lt, UInt8.toNat_mod]
        simp
        omega)

theorem encodeByte_reserved {c : UInt8} (h : unreserved c = false) :
    ∃ x ∈ encodeByte c, unreserved x = false := by
  unfold encodeByte
  rw [if_neg (by simp [h])]
  split_ifs
  · exact ⟨_, List.mem_singleton.mpr rfl, by decide⟩
  · exact ⟨_, List.mem_cons_self, by decide⟩

theorem hexDecode_hexDigit (c : UInt8) :
    16 * hexDecode (hexDigit (c / 16)) + hexDecode (hexDigit (c % 16)) = c :=
  forall_byte (P := fun c => 16 * hexDecode (hexDigit (c / 16)) + hexDecode (hexDigit (c % 16)) = c)
    (by decide +kernel) c

/-! ## Encoding -/

theorem urlEncode_eq (s : Str) : urlEncode s = s.flatMap encodeByte := rfl

theorem urlEncode_cons (c : UInt8) (s : Str) : urlEncode (c :: s) = encodeByte c ++ urlEncode s :=
  List.flatMap_cons

theorem urlEncode_coded {s : Str} {x : UInt8} (h : x ∈ urlEncode s) : coded x = true := by
  obtain ⟨c, -, hx⟩ := List.mem_flatMap.mp h
  exact encodeByte_coded c x hx

theorem not_mem_urlEncode {x : UInt8} (h : coded x = false) (s : Str) : x ∉ urlEncode s :=
  fun hm => by simp [urlEncode_coded hm] at h

theorem urlEncode_unreserved {s : Str} (h : Unreserved s) : urlEncode s = s := by
  induction s with
  | nil => rfl
  | cons c s ih =>
    rw [urlEncode_cons, ih fun x hx => h x (List.mem_cons_of_mem _ hx), encodeByte,
      if_pos (h c List.mem_cons_self)]
    rfl

theorem urlEncode_reserved {s : Str} (h : ¬ Unreserved s) : ¬ Unreserved (urlEncode s) := by
  unfold Unreserved at h
  push Not at h
  obtain ⟨c, hc, hr⟩ := h
  obtain ⟨x, hx, hxr⟩ := encodeByte_reserved (Bool.eq_false_of_not_eq_true hr)
  intro hu
  simpa [hxr] using hu x (List.mem_flatMap.mpr ⟨c, hc, hx⟩)

theorem length_le_urlEncode (s : Str) : s.length ≤ (urlEncode s).length := by
  induction s with
  | nil => exact le_rfl
  | cons c s ih =>
    have hc : 1 ≤ (encodeByte c).length := by
      unfold encodeByte
      split_ifs <;> simp
    rw [urlEncode_cons, List.length_append, List.length_cons]
    omega

theorem length_lt_urlEncode {s : Str} (h : ∃ c ∈ s, c = '+'.toUInt8 ∨ c = '%'.toUInt8) :
    s.length < (urlEncode s).length := by
  obtain ⟨c, hc, hcode⟩ := h
  obtain ⟨a, b, rfl⟩ := List.append_of_mem hc
  have h3 : (encodeByte c).length = 3 := by rcases hcode with rfl | rfl <;> decide
  have ha := length_le_urlEncode a
  have hb := length_le_urlEncode b
  rw [urlEncode_eq] at ha hb ⊢
  simp only [List.flatMap_append, List.flatMap_cons, List.length_append, List.length_cons, h3]
  omega

/-- Encoded twice, a text with a reserved character has grown. -/
theorem length_lt_twice {s : Str} (h : ¬ Unreserved s) :
    s.length < (urlEncode (urlEncode s)).length := by
  have hr := urlEncode_reserved h
  unfold Unreserved at hr
  push Not at hr
  obtain ⟨x, hx, hxr⟩ := hr
  have hcode := urlEncode_coded hx
  simp only [coded, hxr, Bool.or_eq_true, beq_iff_eq, or_assoc] at hcode
  exact (length_le_urlEncode s).trans_lt
    (length_lt_urlEncode ⟨x, hx, hcode.resolve_left Bool.false_ne_true⟩)

/-- **A text survives being encoded twice exactly when it is unreserved.** -/
theorem urlEncode_twice_iff (s : Str) : urlEncode (urlEncode s) = s ↔ Unreserved s := by
  constructor
  · intro h
    by_contra hr
    have := length_lt_twice hr
    rw [h] at this
    omega
  · intro h
    rw [urlEncode_unreserved h, urlEncode_unreserved h]

/-! ## Decoding -/

/-- Recursion over a text with escapes. -/
theorem escape_induction {P : Str → Prop} (nil : P [])
    (char : ∀ c rest, c ≠ '%'.toUInt8 → P rest → P (c :: rest))
    (escape : ∀ a b rest, P rest → P ('%'.toUInt8 :: a :: b :: rest))
    (short : ∀ rest, rest.length < 2 → P ('%'.toUInt8 :: rest)) (s : Str) : P s := by
  induction hn : s.length using Nat.strong_induction_on generalizing s with
  | _ n ih =>
    match s with
    | [] => exact nil
    | c :: rest =>
      by_cases hc : c = '%'.toUInt8
      · subst hc
        match rest with
        | a :: b :: rest => exact escape a b rest (ih rest.length (by simp [← hn]; omega) rest rfl)
        | [a] => exact short [a] (by simp)
        | [] => exact short [] (by simp)
      · exact char c rest hc (ih rest.length (by simp [← hn]) rest rfl)

/-- The text that is encoded, its NUL bytes with it; `none` where an escape is cut short. -/
def percentDecode : Str → Option Str
  | [] => some []
  | c :: rest =>
    if c = '%'.toUInt8 then
      match rest with
      | a :: b :: rest => (percentDecode rest).map ((16 * hexDecode a + hexDecode b) :: ·)
      | _ => none
    else (percentDecode rest).map ((if c = '+'.toUInt8 then ' '.toUInt8 else c) :: ·)

theorem percentDecode_cons {c : UInt8} (hc : c ≠ '%'.toUInt8) (rest : Str) :
    percentDecode (c :: rest) =
      (percentDecode rest).map ((if c = '+'.toUInt8 then ' '.toUInt8 else c) :: ·) := by
  rw [percentDecode.eq_def]
  simp [hc]

theorem percentDecode_escape (a b : UInt8) (rest : Str) :
    percentDecode ('%'.toUInt8 :: a :: b :: rest) =
      (percentDecode rest).map ((16 * hexDecode a + hexDecode b) :: ·) := by
  rw [percentDecode.eq_def]
  rfl

theorem percentDecode_short {rest : Str} (h : rest.length < 2) :
    percentDecode ('%'.toUInt8 :: rest) = none := by
  rw [percentDecode.eq_def]
  match rest, h with
  | [], _ => rfl
  | [_], _ => rfl

/-- **`url_decode` gives the text without its NUL bytes.** -/
theorem urlDecodeLoop_eq {s : Str} (hs : 0 ∉ s) :
    urlDecodeLoop s = (percentDecode s).map (·.filter (· ≠ 0)) := by
  induction s using escape_induction with
  | nil => rfl
  | char c rest hc ih =>
    have hc0 : (if c = '+'.toUInt8 then ' '.toUInt8 else c) ≠ 0 := by
      split_ifs
      · decide
      · exact fun h => hs (by simp [h])
    have hloop : urlDecodeLoop (c :: rest) =
        (urlDecodeLoop rest).map ((if c = '+'.toUInt8 then ' '.toUInt8 else c) :: ·) := by
      rw [urlDecodeLoop.eq_def]
      by_cases h : c = '+'.toUInt8 <;> simp [h, hc]
    rw [hloop, percentDecode_cons hc, ih fun hm => hs (List.mem_cons_of_mem _ hm),
      Option.map_map, Option.map_map]
    congr 1
    funext t
    simp [hc0]
  | escape a b rest ih =>
    have hloop : urlDecodeLoop ('%'.toUInt8 :: a :: b :: rest) =
        (urlDecodeLoop rest).map (if 16 * hexDecode a + hexDecode b = 0 then (·)
          else ((16 * hexDecode a + hexDecode b) :: ·)) := by
      rw [urlDecodeLoop.eq_def]
      rfl
    rw [hloop, percentDecode_escape, ih fun hm => hs (by simp [hm]), Option.map_map,
      Option.map_map]
    congr 1
    funext t
    split_ifs with h <;> simp [h]
  | short rest h =>
    rw [percentDecode_short h, urlDecodeLoop.eq_def]
    match rest, h with
    | [], _ => rfl
    | [_], _ => rfl

theorem urlDecode_eq (s : Str) :
    urlDecode s = (percentDecode (cstr s)).map (·.filter (· ≠ 0)) :=
  urlDecodeLoop_eq fun hm => by simpa using List.mem_takeWhile_imp hm

/-- A decoded text has no NUL byte. -/
theorem urlDecode_no_nul (s t : Str) (h : urlDecode s = some t) : 0 ∉ t := by
  rw [urlDecode_eq] at h
  obtain ⟨u, -, rfl⟩ := Option.map_eq_some_iff.mp h
  simp

theorem cstr_of_no_nul {s : Str} (h : 0 ∉ s) : cstr s = s := by
  refine List.takeWhile_eq_self_iff.mpr fun c hc => ?_
  simpa using fun h0 : c = 0 => h (h0 ▸ hc)

/-- What follows a complete text is decoded on its own. -/
theorem percentDecode_append {a x : Str} (h : percentDecode a = some x) (b : Str) :
    percentDecode (a ++ b) = (percentDecode b).map (x ++ ·) := by
  induction a using escape_induction generalizing x with
  | nil =>
    obtain rfl : [] = x := Option.some.inj h
    simp
  | char c rest hc ih =>
    rw [percentDecode_cons hc] at h
    obtain ⟨y, hy, rfl⟩ := Option.map_eq_some_iff.mp h
    rw [List.cons_append, percentDecode_cons hc, ih hy, Option.map_map]
    rfl
  | escape c d rest ih =>
    rw [percentDecode_escape] at h
    obtain ⟨y, hy, rfl⟩ := Option.map_eq_some_iff.mp h
    rw [List.cons_append, List.cons_append, List.cons_append, percentDecode_escape, ih hy,
      Option.map_map]
    rfl
  | short rest hr => simp [percentDecode_short hr] at h

/-- An escape is three characters for one. -/
theorem length_le_percentDecode {s t : Str} (h : percentDecode s = some t) :
    s.length ≤ 3 * t.length := by
  induction s using escape_induction generalizing t with
  | nil => simp
  | char c rest hc ih =>
    rw [percentDecode_cons hc] at h
    obtain ⟨y, hy, rfl⟩ := Option.map_eq_some_iff.mp h
    have := ih hy
    simp only [List.length_cons]
    omega
  | escape c d rest ih =>
    rw [percentDecode_escape] at h
    obtain ⟨y, hy, rfl⟩ := Option.map_eq_some_iff.mp h
    have := ih hy
    simp only [List.length_cons]
    omega
  | short rest hr => simp [percentDecode_short hr] at h

/-! ## There and back -/

theorem percentDecode_encodeByte (c : UInt8) : percentDecode (encodeByte c) = some [c] := by
  unfold encodeByte
  split_ifs with h1 h2
  · have hp : c ≠ '%'.toUInt8 := by
      rintro rfl
      exact absurd h1 (by decide)
    have hplus : c ≠ '+'.toUInt8 := by
      rintro rfl
      exact absurd h1 (by decide)
    rw [percentDecode_cons hp, if_neg hplus]
    rfl
  · rw [h2]
    rfl
  · rw [percentDecode_escape, hexDecode_hexDigit]
    rfl

theorem percentDecode_urlEncode (s : Str) : percentDecode (urlEncode s) = some s := by
  induction s with
  | nil => rfl
  | cons c s ih =>
    rw [urlEncode_cons, percentDecode_append (percentDecode_encodeByte c), ih]
    rfl

theorem urlEncode_injective : Function.Injective urlEncode := fun s t h => by
  have hdecode := congrArg percentDecode h
  rw [percentDecode_urlEncode, percentDecode_urlEncode] at hdecode
  exact Option.some.inj hdecode

/-! ## The texts that are written -/

def lowerHex (c : UInt8) : Bool := isdigit c || (decide ('a'.toUInt8 ≤ c) && decide (c ≤ 'f'.toUInt8))

/-- Unreserved characters, plus signs and complete escapes. -/
inductive PercentText : Str → Prop
  | nil : PercentText []
  | char {c : UInt8} {t : Str} (hc : unreserved c = true) (h : PercentText t) : PercentText (c :: t)
  | plus {t : Str} (h : PercentText t) : PercentText ('+'.toUInt8 :: t)
  | escape {a b : UInt8} {t : Str} (ha : lowerHex a = true) (hb : lowerHex b = true)
      (h : PercentText t) : PercentText ('%'.toUInt8 :: a :: b :: t)

theorem lowerHex_escape (c : UInt8) :
    lowerHex (hexDigit (c / 16)) = true ∧ lowerHex (hexDigit (c % 16)) = true :=
  forall_byte (P := fun c => lowerHex (hexDigit (c / 16)) = true ∧ lowerHex (hexDigit (c % 16)) = true)
    (by decide +kernel) c

theorem percentText_urlEncode (s : Str) : PercentText (urlEncode s) := by
  induction s with
  | nil => exact .nil
  | cons c s ih =>
    rw [urlEncode_cons]
    unfold encodeByte
    split_ifs with hc
    · exact .char hc ih
    · exact .plus ih
    · exact .escape (lowerHex_escape c).1 (lowerHex_escape c).2 ih

/-- **The percent codec**: the text that is written is decoded to the bytes, and no other bytes
are written so. -/
theorem percentCodec {s : Str} (h : 0 ∉ s) :
    PercentText (urlEncode s) ∧ urlDecode (urlEncode s) = some s ∧ ∀ t, urlEncode t = urlEncode s → t = s := by
  have hfilter : s.filter (· ≠ 0) = s :=
    List.filter_eq_self.mpr fun c hc => by simpa using fun h0 : c = 0 => h (h0 ▸ hc)
  have hdecode : urlDecode (urlEncode s) = some s := by
    rw [urlDecode_eq, cstr_of_no_nul (not_mem_urlEncode (by decide) s), percentDecode_urlEncode,
      Option.map_some, hfilter]
  exact ⟨percentText_urlEncode s, hdecode, fun t ht => urlEncode_injective ht⟩

/-- Two bytes of UTF-8, a space and a percent sign. -/
theorem percentCodec_utf8 :
    urlEncode [0xc3, 0xa9, 32, 37] = str "%c3%a9+%25" ∧
      urlDecode (urlEncode [0xc3, 0xa9, 32, 37]) = some [0xc3, 0xa9, 32, 37] :=
  ⟨by decide +kernel, (percentCodec (by decide)).2.1⟩

end Wsrv
