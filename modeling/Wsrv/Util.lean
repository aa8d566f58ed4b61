import Wsrv.Message

/-!
# String utilities

The functions of `util.cpp` that the request parser uses, and the operations of
the standard library with a domain: `substr` and `compare` with an offset, and
`stoi`.  Outside of the domain the library throws.

`url_decode` reads a C string by its terminator.  After a `%` that is not
followed by two characters it steps over the terminator, and what happens next
is undefined.
-/

namespace Wsrv

/-! ## Standard strings -/

/-- The `std::string` made of `s.c_str()`, which ends before the first NUL. -/
def cstr (s : Str) : Str := s.takeWhile (· ≠ 0)

/-- `s.substr(pos, n)`; `none` for the length is `npos`. -/
def substr (s : Str) (pos : Nat) (n : Option Nat) : Except Exception Str :=
  if s.length < pos then .error (.outOfRange (str "basic_string::substr"))
  else .ok (match n with
    | none => s.drop pos
    | some n => (s.drop pos).take n)

/-- `s.compare(pos, n, t) == 0`. -/
def compareAt (s : Str) (pos n : Nat) (t : Str) : Except Exception Bool :=
  if s.length < pos then .error (.outOfRange (str "basic_string::compare"))
  else .ok ((s.drop pos).take n == t)

/-- `s.find(c)`. -/
def find (s : Str) (c : UInt8) : Option Nat :=
  if c ∈ s then some (s.idxOf c) else none

/-- The digits at the front, as a number. -/
def leadingNumber (s : Str) : Nat :=
  (s.takeWhile isdigit).foldl (fun n c => n * 10 + (c - '0'.toUInt8).toNat) 0

/-- The optional sign that `strtol` and `strtoul` accept: whether it is a minus, and the rest. -/
def splitSign (s : Str) : Bool × Str :=
  match s with
  | c :: rest => if c = '-'.toUInt8 then (true, rest) else if c = '+'.toUInt8 then (false, rest) else (false, s)
  | [] => (false, s)

/-- `std::stoi`. -/
def stoi (s : Str) : Except Exception Int :=
  let (minus, digits) := splitSign (s.dropWhile isspace)
  if (digits.takeWhile isdigit) = [] then .error (.invalidArgument (str "stoi"))
  else
    let v : Int := if minus then -leadingNumber digits else leadingNumber digits
    if v < -2 ^ 31 ∨ 2 ^ 31 ≤ v then .error (.outOfRange (str "stoi")) else .ok v

/-- `strtoul(s, NULL, 10)`. -/
def strtoul (s : Str) : Nat :=
  let (minus, digits) := splitSign (s.dropWhile isspace)
  let v := leadingNumber digits
  if 2 ^ 64 ≤ v then 2 ^ 64 - 1
  else if minus then (2 ^ 64 - v) % 2 ^ 64 else v

theorem substr_ok {s : Str} {pos : Nat} (n : Option Nat) (h : pos ≤ s.length) :
    ∃ t, substr s pos n = .ok t := by
  unfold substr
  rw [if_neg (by omega)]
  exact ⟨_, rfl⟩

theorem find_lt {s : Str} {c : UInt8} {i : Nat} (h : find s c = some i) : i < s.length := by
  unfold find at h
  split at h
  · rename_i hc
    obtain rfl := Option.some.inj h
    exact List.idxOf_lt_length_iff.mpr hc
  · cases h

/-! ## Decimal numbers -/

theorem digit_toUInt8 {c : Char} (h : c.isDigit = true) :
    isdigit c.toUInt8 = true ∧ (c.toUInt8 - '0'.toUInt8).toNat = c.toNat - '0'.toNat := by
  simp only [Char.isDigit, Bool.and_eq_true, decide_eq_true_eq] at h
  have h0 : 48 ≤ c.toNat := h.1
  have h9 : c.toNat ≤ 57 := h.2
  obtain ⟨n, hn⟩ : ∃ n, n = c.toNat - 48 ∧ n < 10 := ⟨c.toNat - 48, rfl, by omega⟩
  have hc : c.toUInt8 = UInt8.ofNat (n + 48) := by
    rw [Char.toUInt8, hn.1, Nat.sub_add_cancel h0]
    rfl
  rw [hc, show c.toNat - '0'.toNat = n from hn.1.symm]
  have hall : ∀ n : Fin 10, isdigit (UInt8.ofNat (n + 48)) = true ∧
      (UInt8.ofNat (n + 48) - '0'.toUInt8).toNat = n := by decide +kernel
  exact hall ⟨n, hn.2⟩

theorem toString_isdigit (n : Nat) : ∀ c ∈ toString n, isdigit c = true := by
  intro c hc
  obtain ⟨d, hd, rfl⟩ := List.mem_map.mp hc
  exact (digit_toUInt8 (Nat.isDigit_of_mem_toDigits (by decide) (by decide) hd)).1

theorem leadingNumber_toString (n : Nat) : leadingNumber (toString n) = n := by
  have hfold (cs : List Char) (init : Nat) (h : ∀ c ∈ cs, c.isDigit = true) :
      (cs.map Char.toUInt8).foldl (fun n c => n * 10 + (c - '0'.toUInt8).toNat) init =
        Nat.ofDigitChars 10 cs init := by
    induction cs generalizing init with
    | nil => rfl
    | cons c cs ih =>
      rw [List.map_cons, List.foldl_cons, ih _ fun d hd => h d (List.mem_cons_of_mem _ hd),
        (digit_toUInt8 (h c List.mem_cons_self)).2, Nat.ofDigitChars_cons, Nat.mul_comm]
  rw [leadingNumber, List.takeWhile_eq_self_iff.mpr (toString_isdigit n), toString,
    hfold _ 0 fun c hc => Nat.isDigit_of_mem_toDigits (by decide) (by decide) hc,
    Nat.ofDigitChars_ten_toDigits]

/-- **`stoi` reads a number back that fits an `int`**, and throws at a larger one. -/
theorem stoi_toString (n : Nat) :
    stoi (toString n) = if n < 2 ^ 31 then .ok n else .error (.outOfRange (str "stoi")) := by
  have hdigits := toString_isdigit n
  have hne : toString n ≠ [] := by simp [toString, Nat.toDigits_ne_nil]
  obtain ⟨c, cs, hcs⟩ := List.exists_cons_of_ne_nil hne
  have hc : isdigit c = true := hdigits c (by simp [hcs])
  have hspace : isspace c = false :=
    forall_byte (P := fun c => isdigit c = true → isspace c = false) (by decide +kernel) c hc
  have hminus : c ≠ '-'.toUInt8 := by
    rintro rfl
    exact absurd hc (by decide)
  have hplus : c ≠ '+'.toUInt8 := by
    rintro rfl
    exact absurd hc (by decide)
  have hsign : splitSign ((toString n).dropWhile isspace) = (false, toString n) := by
    rw [hcs, List.dropWhile_cons_of_neg (by simp [hspace]), splitSign, if_neg hminus, if_neg hplus]
  have htake : (toString n).takeWhile isdigit ≠ [] := by
    rw [List.takeWhile_eq_self_iff.mpr hdigits]
    exact hne
  unfold stoi
  simp only [hsign, if_neg htake, leadingNumber_toString, Bool.false_eq_true, if_false]
  split_ifs <;> first | rfl | omega

/-! ## Splitting, joining and trimming -/

/-- The loop of `split`; `strchr` finds the terminator of the delimiters too. -/
def splitLoop (delimiters : Str) : Str → Str → List Str
  | [], token => if token = [] then [] else [token]
  | c :: rest, token =>
    if c = 0 ∨ c ∈ delimiters then
      if token = [] then splitLoop delimiters rest [] else token :: splitLoop delimiters rest []
    else splitLoop delimiters rest (token ++ [c])

/-- `split(s, delimeters)`: the non-empty pieces. -/
def split (s delimiters : Str) : List Str := splitLoop delimiters s []

def join (delimiter : Str) : List Str → Str
  | [] => []
  | [p] => p
  | p :: ps => p ++ delimiter ++ join delimiter ps

def trimChars : Str := str " \t\n\r"

/-- A string of nothing but such characters is left as it is. -/
def ltrim (s : Str) : Str :=
  if s.all (trimChars.contains ·) then s else s.dropWhile (trimChars.contains ·)

def rtrim (s : Str) : Str :=
  if s.all (trimChars.contains ·) then s else s.rdropWhile (trimChars.contains ·)

def trim (s : Str) : Str := rtrim (ltrim s)

def startsWith (src pfx : Str) : Bool :=
  if pfx.length ≤ src.length then src.take pfx.length == pfx else false

/-- The pieces between the occurrences of one character, with the empty ones. -/
def pieces (delim : UInt8) : Str → Str → List Str
  | [], token => [token]
  | c :: rest, token =>
    if c = delim then token :: pieces delim rest [] else pieces delim rest (token ++ [c])

@[simp] theorem modifyHead_same {α : Type} (l : List α) : l.modifyHead (fun x => x) = l :=
  congrFun List.modifyHead_id l

theorem splitLoop_eq (delimiters s token : Str) :
    splitLoop delimiters s token =
      ((s.splitOnP fun c => decide (c = 0 ∨ c ∈ delimiters)).modifyHead (token ++ ·)).filter
        (· ≠ []) := by
  induction s generalizing token with
  | nil => by_cases h : token = [] <;> simp [splitLoop, h]
  | cons c s ih =>
    rw [splitLoop, List.splitOnP_cons_eq_if_modifyHead]
    by_cases hc : c = 0 ∨ c ∈ delimiters
    · by_cases ht : token = [] <;> simp [hc, ht, ih, -Bool.decide_or]
    · simp only [hc, decide_false, Bool.false_eq_true, if_false, ih]
      cases h : s.splitOnP fun c => decide (c = 0 ∨ c ∈ delimiters) with
      | nil => exact absurd h (List.splitOnP_ne_nil _ _)
      | cons p ps => simp

/-- `split` at one character, in a string without a NUL. -/
theorem split_singleton {s : Str} (d : UInt8) (h : 0 ∉ s) :
    split s [d] = (s.splitOn d).filter (· ≠ []) := by
  have hp : s.splitOnP (fun c => decide (c = 0 ∨ c ∈ [d])) = s.splitOn d := by
    rw [List.splitOn_eq_splitOnP]
    induction s with
    | nil => rfl
    | cons c s ih =>
      have hc : c ≠ 0 := fun hc => h (by simp [hc])
      rw [List.splitOnP_cons_eq_if_modifyHead, List.splitOnP_cons_eq_if_modifyHead,
        ih fun hm => h (List.mem_cons_of_mem _ hm)]
      simp [hc]
  rw [split, splitLoop_eq, hp]
  simp

theorem pieces_splitOn (d : UInt8) (s token : Str) :
    pieces d s token = (s.splitOn d).modifyHead (token ++ ·) := by
  induction s generalizing token with
  | nil => simp [pieces]
  | cons c s ih =>
    rw [pieces, List.splitOn_cons_eq_if_modifyHead]
    by_cases hc : c = d
    · simp [hc, ih]
    · simp only [hc, if_false, beq_iff_eq, ih]
      cases h : s.splitOn d with
      | nil => exact absurd h (List.splitOn_ne_nil _ _)
      | cons p ps => simp

theorem mem_join {d : Str} {ps : List Str} {c : UInt8} (hc : c ∈ join d ps) :
    c ∈ d ∨ ∃ p ∈ ps, c ∈ p := by
  induction ps using join.induct with
  | case1 => simp [join] at hc
  | case2 p => exact .inr ⟨p, by simp, by simpa [join] using hc⟩
  | case3 p ps hne ih =>
    rw [join.eq_3 d p ps hne, List.mem_append, List.mem_append] at hc
    rcases hc with (hc | hc) | hc
    · exact .inr ⟨p, List.mem_cons_self, hc⟩
    · exact .inl hc
    · rcases ih hc with h | ⟨q, hq, hcq⟩
      · exact .inl h
      · exact .inr ⟨q, List.mem_cons_of_mem _ hq, hcq⟩

theorem join_eq_intercalate (d : UInt8) (ps : List Str) : join [d] ps = [d].intercalate ps := by
  induction ps with
  | nil => rfl
  | cons p ps ih =>
    cases ps with
    | nil => simp [join]
    | cons q ps => rw [join, ih, List.intercalate_cons_cons]; simp

/-- The pieces hold what the text holds, except for the character it is cut at. -/
theorem mem_of_splitOn {d : UInt8} {s p : Str} (hp : p ∈ s.splitOn d) {c : UInt8} (hc : c ∈ p) :
    c ∈ s ∧ c ≠ d := by
  induction s generalizing p with
  | nil => simp_all
  | cons x s ih =>
    rw [List.splitOn_cons_eq_if_modifyHead] at hp
    cases h : s.splitOn d with
    | nil => exact absurd h (List.splitOn_ne_nil _ _)
    | cons q ps =>
      rw [h] at hp ih
      by_cases hx : x = d <;> simp only [hx, beq_iff_eq, if_true, if_false, List.modifyHead_cons,
        List.mem_cons] at hp
      · rcases hp with rfl | hp
        · simp at hc
        · have := ih (List.mem_cons.mpr hp) hc
          exact ⟨List.mem_cons_of_mem _ this.1, this.2⟩
      · rcases hp with rfl | hp
        · rcases List.mem_cons.mp hc with rfl | hc
          · exact ⟨List.mem_cons_self, hx⟩
          · have := ih List.mem_cons_self hc
            exact ⟨List.mem_cons_of_mem _ this.1, this.2⟩
        · have := ih (List.mem_cons_of_mem _ hp) hc
          exact ⟨List.mem_cons_of_mem _ this.1, this.2⟩

/-- `tokenize(s, delim, cb)` for a one character delimiter: `cb` changes what it has captured and
says whether to go on. -/
def tokenize {α : Type} (cb : Str → α → Bool × α) : List Str → α → Bool × α
  | [], a => (true, a)
  | p :: ps, a =>
    match cb p a with
    | (false, a) => (false, a)
    | (true, a) => tokenize cb ps a

/-! ## Percent encoding -/

/-- One digit of `hexchar`. -/
def hexDigit (n : UInt8) : UInt8 := if n ≤ 9 then n + '0'.toUInt8 else n + ('a'.toUInt8 - 10)

def urlEncode (s : Str) : Str :=
  s.flatMap fun c =>
    if isdigit c || isalpha c || (str "-_.!~*'()").contains c then [c]
    else if c = ' '.toUInt8 then ['+'.toUInt8]
    else ['%'.toUInt8, hexDigit (c / 16), hexDigit (c % 16)]

/-- `hex_decode`: a character that is no digit counts as 0. -/
def hexDecode (c : UInt8) : UInt8 :=
  let ch := tolower c
  if 'a'.toUInt8 ≤ ch ∧ ch ≤ 'f'.toUInt8 then 10 + ch - 'a'.toUInt8
  else if '0'.toUInt8 ≤ ch ∧ ch ≤ '9'.toUInt8 then ch - '0'.toUInt8
  else 0

/-- The loop of `url_decode` on the characters before the terminator; `none` where it reads on
behind the terminator.  A NUL that is decoded adds nothing, because it goes through `sprintf`. -/
def urlDecodeLoop : Str → Option Str
  | [] => some []
  | c :: rest =>
    if c = '+'.toUInt8 then (urlDecodeLoop rest).map (' '.toUInt8 :: ·)
    else if c = '%'.toUInt8 then
      match rest with
      | a :: b :: rest =>
        let val := 16 * hexDecode a + hexDecode b
        (urlDecodeLoop rest).map (if val = 0 then (·) else (val :: ·))
      | _ => none
    else (urlDecodeLoop rest).map (c :: ·)

def urlDecode (src : Str) : Option Str := urlDecodeLoop (cstr src)

example : urlDecode (str "a%2Fb+c") = some (str "a/b c") := by decide +kernel

/-! ## Dictionaries -/

/-- What a list of pairs leaves in a dictionary under a key. -/
theorem foldl_insert_getElem? (kvs : List (Str × Str)) (d : Dictionary) (key : Str) :
    (kvs.foldl (fun d kv => d.insert kv.1 kv.2) d)[key]? = d[key]? ∧
        (∀ kv ∈ kvs, kv.1 ≠ key) ∨
      ∃ v, (kvs.foldl (fun d kv => d.insert kv.1 kv.2) d)[key]? = some v ∧ (key, v) ∈ kvs := by
  induction kvs generalizing d with
  | nil => exact .inl ⟨rfl, by simp⟩
  | cons kv kvs ih =>
    rw [List.foldl_cons]
    rcases ih (d.insert kv.1 kv.2) with ⟨h, hne⟩ | ⟨v, h, hmem⟩
    · rw [Std.ExtTreeMap.getElem?_insert] at h
      by_cases hk : kv.1 = key
      · refine .inr ⟨kv.2, ?_, ?_⟩
        · rw [h, if_pos (by rw [hk]; exact Std.ReflCmp.compare_self)]
        · rw [← hk]
          exact List.mem_cons_self
      · refine .inl ⟨?_, ?_⟩
        · rw [h, if_neg (fun hc => hk (Std.LawfulEqCmp.eq_of_compare hc))]
        · intro kv' hmem
          rcases List.mem_cons.mp hmem with rfl | hmem
          · exact hk
          · exact hne kv' hmem
    · exact .inr ⟨v, h, List.mem_cons_of_mem _ hmem⟩

/-- Of the pairs with a new key the first one is kept. -/
theorem foldl_insertIfNew_getElem? (kvs : List (Str × Str)) (d : Dictionary) (key : Str) :
    (kvs.foldl (fun d kv => d.insertIfNew kv.1 kv.2) d)[key]? =
      (d[key]?).or ((kvs.find? fun kv => kv.1 == key).map Prod.snd) := by
  induction kvs generalizing d with
  | nil => simp
  | cons kv kvs ih =>
    rw [List.foldl_cons, ih, Std.ExtTreeMap.getElem?_insertIfNew]
    by_cases hk : kv.1 = key
    · subst hk
      rw [List.find?_cons_of_pos (by simp)]
      cases hd : d[kv.1]? with
      | none =>
        have hmem : kv.1 ∉ d := by
          rw [Std.ExtTreeMap.mem_iff_isSome_getElem?, hd]
          simp
        simp [hmem]
      | some v =>
        have hmem : kv.1 ∈ d := by
          rw [Std.ExtTreeMap.mem_iff_isSome_getElem?, hd]
          rfl
        simp [hmem]
    · rw [List.find?_cons_of_neg (by simpa using hk),
        if_neg fun h => hk (Std.LawfulEqCmp.eq_of_compare h.1)]

/-- Pairs with different keys are all kept. -/
theorem foldl_insertIfNew_eq_some_iff {kvs : List (Str × Str)} (hkeys : (kvs.map Prod.fst).Nodup)
    (k v : Str) :
    (kvs.foldl (fun d kv => d.insertIfNew kv.1 kv.2) (∅ : Dictionary))[k]? = some v ↔
      (k, v) ∈ kvs := by
  rw [foldl_insertIfNew_getElem?, Std.ExtTreeMap.getElem?_empty, Option.none_or]
  induction kvs with
  | nil => simp
  | cons kv kvs ih =>
    rw [List.map_cons, List.nodup_cons] at hkeys
    by_cases hk : kv.1 = k
    · subst hk
      have hnone : (kv.1, v) ∉ kvs := fun hm => hkeys.1 (List.mem_map.mpr ⟨_, hm, rfl⟩)
      rw [List.find?_cons_of_pos (by simp), List.mem_cons, or_iff_left hnone]
      simp [Prod.ext_iff, eq_comm]
    · have hne : (k, v) ≠ kv := fun he => hk (by rw [← he])
      rw [List.find?_cons_of_neg (by simpa using hk), ih hkeys.2, List.mem_cons, or_iff_right hne]

end Wsrv
