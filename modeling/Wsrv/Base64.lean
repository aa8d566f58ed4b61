import Wsrv.Text
import Wsrv.Lib.Base64

/-!
# Base 64 of the mailer

`base64_encode` and `base64_decode` shift the whole text through one `int`,
which is 32 bits and shifts right with its sign.  `valb` is the number of bits
that wait in it, less the size of a digit; the bits above have been read and
are never looked at again.
-/

namespace Wsrv

/-! ## The two loops -/

/-- `b` -/
def alphabet64 : Str := str "ABCDEFGHIJKLMNOPQRSTUVWXYZabcdefghijklmnopqrstuvwxyz0123456789+/"

/-- The local variables of either function. -/
structure BitScan where
  val : BitVec 32 := 0
  valb : Int
  out : Str := []

/-- `(val>>shift)&mask` -/
def shiftMask (val : BitVec 32) (shift : Nat) (mask : BitVec 32) : Nat :=
  (val.sshiftRight shift &&& mask).toNat

/-- `while (valb>=0)` -/
def pushSextets (v : BitScan) : BitScan :=
  if 0 ≤ v.valb then
    pushSextets { v with
      out := v.out ++ [alphabet64.getD (shiftMask v.val v.valb.toNat 0x3f) 0], valb := v.valb - 6 }
  else v
termination_by (v.valb + 6).toNat
decreasing_by omega

def encodeTurn (v : BitScan) (c : UInt8) : BitScan :=
  pushSextets { v with val := (v.val <<< 8) + BitVec.ofNat 32 c.toNat, valb := v.valb + 8 }

/-- `while (out.size()%4)` -/
def padOut (out : Str) : Str :=
  if out.length % 4 ≠ 0 then padOut (out ++ ['='.toUInt8]) else out
termination_by (4 - out.length % 4) % 4
decreasing_by simp only [List.length_append, List.length_singleton]; omega

def base64Encode (s : Str) : Str :=
  let v := s.foldl encodeTurn { valb := -6 }
  padOut (if v.valb > -6 then
      v.out ++ [alphabet64.getD (shiftMask (v.val <<< 8) (v.valb + 8).toNat 0x3f) 0]
    else v.out)

/-- `T` -/
def decodeTable : List Int :=
  (List.range 64).foldl (fun t i => t.set (alphabet64.getD i 0).toNat i) (List.replicate 256 (-1))

def decodeLoop : Str → BitScan → BitScan
  | [], v => v
  | c :: s, v =>
    let t := decodeTable.getD c.toNat (-1)
    if t = -1 then v
    else
      let val := (v.val <<< 6) + BitVec.ofInt 32 t
      let valb := v.valb + 6
      if 0 ≤ valb then
        decodeLoop s { val, valb := valb - 8, out := v.out ++ [UInt8.ofNat (shiftMask val valb.toNat 0xff)] }
      else decodeLoop s { v with val, valb }

def base64Decode (s : Str) : Str := (decodeLoop s { valb := -8 }).out

/-! ## The accumulator -/

/-- Bits that the `int` still has are not changed by its sign. -/
theorem shiftMask_eq (val : BitVec 32) {shift w : Nat} (h : shift + w ≤ 32) :
    shiftMask val shift (BitVec.ofNat 32 (2 ^ w - 1)) = val.toNat / 2 ^ shift % 2 ^ w := by
  have hmask : val.sshiftRight shift &&& BitVec.ofNat 32 (2 ^ w - 1) =
      val >>> shift &&& BitVec.ofNat 32 (2 ^ w - 1) := by
    apply BitVec.eq_of_getLsbD_eq
    intro i hi
    rw [BitVec.getLsbD_and, BitVec.getLsbD_and, BitVec.getLsbD_sshiftRight,
      BitVec.getLsbD_ushiftRight, BitVec.getLsbD_ofNat, Nat.testBit_two_pow_sub_one]
    by_cases hw : i < w
    · have hbit : shift + i < 32 := by omega
      simp [hbit, Nat.not_le.mpr hi]
    · simp [hw]
  have hw : 2 ^ w - 1 < 2 ^ 32 := by
    have hle := Nat.pow_le_pow_right (n := 2) (by decide) (show w ≤ 32 by omega)
    omega
  rw [shiftMask, hmask, BitVec.toNat_and, BitVec.toNat_ushiftRight, BitVec.toNat_ofNat,
    Nat.mod_eq_of_lt hw, Nat.and_two_pow_sub_one_eq_mod, Nat.shiftRight_eq_div_pow]

theorem shiftMask_six (val : BitVec 32) {shift : Nat} (h : shift + 6 ≤ 32) :
    shiftMask val shift 0x3f = val.toNat / 2 ^ shift % 64 := shiftMask_eq val h

theorem shiftMask_eight (val : BitVec 32) {shift : Nat} (h : shift + 8 ≤ 32) :
    shiftMask val shift 0xff = val.toNat / 2 ^ shift % 256 := shiftMask_eq val h

/-- What is shifted out at the top is lost. -/
theorem toNat_shift_add (val : BitVec 32) (k n : Nat) :
    ((val <<< k) + BitVec.ofNat 32 n).toNat = (val.toNat * 2 ^ k + n) % 2 ^ 32 := by
  rw [BitVec.toNat_add, BitVec.toNat_shiftLeft, BitVec.toNat_ofNat, Nat.shiftLeft_eq, ← Nat.add_mod]

/-! ## Encoding -/

theorem alphabet64_eq : alphabet64 = Base64.alphabet := by decide

theorem alphabet64_getD {n : Nat} (h : n < 64) : alphabet64.getD n 0 = Base64.digit n := by
  rw [← Base64.length_alphabet] at h
  rw [alphabet64_eq, Base64.digit, List.getD_eq_getElem _ _ h, List.getD_eq_getElem _ _ h]

/-- One turn of the inner loop, and its end. -/
theorem pushSextets_push (val : BitVec 32) {valb : Int} (out : Str) (h : 0 ≤ valb) (h' : valb < 26) :
    pushSextets ⟨val, valb, out⟩ =
      pushSextets ⟨val, valb - 6, out ++ [Base64.digit (val.toNat / 2 ^ valb.toNat % 64)]⟩ := by
  rw [pushSextets, if_pos h, shiftMask_six val (show valb.toNat + 6 ≤ 32 by omega),
    alphabet64_getD (Nat.mod_lt _ (by decide))]

theorem pushSextets_stop (val : BitVec 32) {valb : Int} (out : Str) (h : valb < 0) :
    pushSextets ⟨val, valb, out⟩ = ⟨val, valb, out⟩ := by
  rw [pushSextets, if_neg (show ¬ 0 ≤ valb by omega)]

/-- The accumulator behind a byte. -/
def shiftIn (val : BitVec 32) (c : UInt8) : BitVec 32 := (val <<< 8) + BitVec.ofNat 32 c.toNat

theorem toNat_shiftIn (val : BitVec 32) (c : UInt8) :
    (shiftIn val c).toNat = (val.toNat * 256 + c.toNat) % 2 ^ 32 := toNat_shift_add val 8 c.toNat

/-- The first byte of three leaves two of its bits. -/
theorem encodeTurn_first (val : BitVec 32) (out : Str) (a : UInt8) :
    encodeTurn ⟨val, -6, out⟩ a = ⟨shiftIn val a, -4, out ++ [Base64.digit (Base64.first a)]⟩ := by
  have ha := a.toNat_lt
  have hsextet : (shiftIn val a).toNat / 2 ^ 2 % 64 = Base64.first a := by
    rw [toNat_shiftIn, Base64.first]
    omega
  change pushSextets ⟨shiftIn val a, 2, out⟩ = _
  rw [pushSextets_push _ _ (by decide) (by decide), pushSextets_stop _ _ (by decide)]
  exact congrArg (fun n => BitScan.mk _ _ (out ++ [Base64.digit n])) hsextet

/-- The second leaves four. -/
theorem encodeTurn_second (val : BitVec 32) (out : Str) (a c : UInt8) :
    encodeTurn ⟨shiftIn val a, -4, out⟩ c =
      ⟨shiftIn (shiftIn val a) c, -2, out ++ [Base64.digit (Base64.second a c)]⟩ := by
  have ha := a.toNat_lt
  have hc := c.toNat_lt
  have hsextet : (shiftIn (shiftIn val a) c).toNat / 2 ^ 4 % 64 = Base64.second a c := by
    rw [toNat_shiftIn, toNat_shiftIn, Base64.second]
    omega
  change pushSextets ⟨shiftIn (shiftIn val a) c, 4, out⟩ = _
  rw [pushSextets_push _ _ (by decide) (by decide), pushSextets_stop _ _ (by decide)]
  exact congrArg (fun n => BitScan.mk _ _ (out ++ [Base64.digit n])) hsextet

/-- The third leaves none. -/
theorem encodeTurn_third (val : BitVec 32) (out : Str) (a c : UInt8) :
    encodeTurn ⟨shiftIn val a, -2, out⟩ c =
      ⟨shiftIn (shiftIn val a) c, -6,
        out ++ [Base64.digit (Base64.third a c), Base64.digit (Base64.fourth c)]⟩ := by
  have ha := a.toNat_lt
  have hc := c.toNat_lt
  have hthird : (shiftIn (shiftIn val a) c).toNat / 2 ^ 6 % 64 = Base64.third a c := by
    rw [toNat_shiftIn, toNat_shiftIn, Base64.third]
    omega
  have hfourth : (shiftIn (shiftIn val a) c).toNat / 2 ^ 0 % 64 = Base64.fourth c := by
    rw [toNat_shiftIn, toNat_shiftIn, Base64.fourth]
    omega
  change pushSextets ⟨shiftIn (shiftIn val a) c, 6, out⟩ = _
  rw [pushSextets_push _ _ (by decide) (by decide), pushSextets_push _ _ (by decide) (by decide),
    pushSextets_stop _ _ (by decide), List.append_assoc]
  exact congrArg₂ (fun n m => BitScan.mk _ _ (out ++ [Base64.digit n, Base64.digit m])) hthird hfourth

theorem encode_group (val : BitVec 32) (out : Str) (a c d : UInt8) :
    encodeTurn (encodeTurn (encodeTurn ⟨val, -6, out⟩ a) c) d =
      ⟨shiftIn (shiftIn (shiftIn val a) c) d, -6, out ++ [Base64.digit (Base64.first a),
        Base64.digit (Base64.second a c), Base64.digit (Base64.third c d),
        Base64.digit (Base64.fourth d)]⟩ := by
  rw [encodeTurn_first, encodeTurn_second, encodeTurn_third, List.append_assoc, List.append_assoc]
  rfl

/-- What stands behind the loop. -/
def encodeRest (v : BitScan) : Str :=
  padOut (if v.valb > -6 then
      v.out ++ [alphabet64.getD (shiftMask (v.val <<< 8) (v.valb + 8).toNat 0x3f) 0]
    else v.out)

theorem encodeRest_bits (val : BitVec 32) {valb : Int} (out : Str) (h : -6 < valb) (h' : valb ≤ 18) :
    encodeRest ⟨val, valb, out⟩ =
      padOut (out ++ [Base64.digit ((val <<< 8).toNat / 2 ^ (valb + 8).toNat % 64)]) := by
  rw [encodeRest, if_pos h, shiftMask_six _ (show (valb + 8).toNat + 6 ≤ 32 by omega),
    alphabet64_getD (Nat.mod_lt _ (by decide))]

theorem encodeRest_none (val : BitVec 32) (out : Str) : encodeRest ⟨val, -6, out⟩ = padOut out := rfl

theorem padOut_stop {out : Str} (h : out.length % 4 = 0) : padOut out = out := by
  rw [padOut, if_neg (by omega)]

theorem padOut_one {out : Str} (h : out.length % 4 = 3) : padOut out = out ++ [Base64.pad] := by
  rw [padOut, if_pos (by omega), padOut_stop (by simp; omega)]
  rfl

theorem padOut_two {out : Str} (h : out.length % 4 = 2) :
    padOut out = out ++ [Base64.pad, Base64.pad] := by
  rw [padOut, if_pos (by omega), padOut_one (by simp; omega), List.append_assoc]
  rfl

/-- Two bits of a byte are left, and four bits that are zero follow them. -/
theorem encodeRest_one (val : BitVec 32) {out : Str} (h : out.length % 4 = 0) (a : UInt8) :
    encodeRest (encodeTurn ⟨val, -6, out⟩ a) = out ++ Base64.encode [a] := by
  have hsextet : (shiftIn val a <<< 8).toNat / 2 ^ 4 % 64 = Base64.second a 0 := by
    rw [BitVec.toNat_shiftLeft, Nat.shiftLeft_eq, toNat_shiftIn, Base64.second]
    change _ = a.toNat % 4 * 16 + 0
    omega
  rw [encodeTurn_first, encodeRest_bits _ _ (by decide) (by decide), padOut_two (by simp; omega),
    Base64.encode, List.append_assoc, List.append_assoc]
  exact congrArg (fun n => out ++ [Base64.digit (Base64.first a), Base64.digit n, Base64.pad, Base64.pad])
    hsextet

theorem encodeRest_two (val : BitVec 32) {out : Str} (h : out.length % 4 = 0) (a c : UInt8) :
    encodeRest (encodeTurn (encodeTurn ⟨val, -6, out⟩ a) c) = out ++ Base64.encode [a, c] := by
  have hsextet : (shiftIn (shiftIn val a) c <<< 8).toNat / 2 ^ 6 % 64 = Base64.third c 0 := by
    rw [BitVec.toNat_shiftLeft, Nat.shiftLeft_eq, toNat_shiftIn, Base64.third]
    change _ = c.toNat % 16 * 4 + 0
    omega
  rw [encodeTurn_first, encodeTurn_second, encodeRest_bits _ _ (by decide) (by decide),
    padOut_one (by simp; omega), Base64.encode, List.append_assoc, List.append_assoc,
    List.append_assoc]
  exact congrArg (fun n => out ++ [Base64.digit (Base64.first a), Base64.digit (Base64.second a c),
    Base64.digit n, Base64.pad]) hsextet

/-- Whatever was shifted in before, three bytes become their four digits. -/
theorem encode_from (s : Str) (val : BitVec 32) {out : Str} (h : out.length % 4 = 0) :
    encodeRest (s.foldl encodeTurn ⟨val, -6, out⟩) = out ++ Base64.encode s := by
  induction s using Base64.encode.induct generalizing val out with
  | case1 => rw [List.foldl_nil, encodeRest_none, padOut_stop h, Base64.encode, List.append_nil]
  | case2 a => exact encodeRest_one val h a
  | case3 a c => exact encodeRest_two val h a c
  | case4 a c d s ih =>
    rw [List.foldl_cons, List.foldl_cons, List.foldl_cons, encode_group, ih _ (by simp; omega),
      Base64.encode, List.append_assoc]
    rfl

theorem base64Encode_eq (s : Str) : base64Encode s = Base64.encode s := encode_from s 0 rfl

/-! ## Decoding -/

theorem decodeTable_digit {n : Nat} (h : n < 64) :
    decodeTable.getD (Base64.digit n).toNat (-1) = n := by
  have hall : ∀ n : Fin 64, decodeTable.getD (Base64.digit n.1).toNat (-1) = (n.1 : Int) := by
    decide +kernel
  exact hall ⟨n, h⟩

theorem decodeTable_pad : decodeTable.getD Base64.pad.toNat (-1) = -1 := by decide +kernel

/-- The accumulator behind a digit. -/
def shiftInDigit (val : BitVec 32) (n : Nat) : BitVec 32 := (val <<< 6) + BitVec.ofNat 32 n

theorem toNat_shiftInDigit (val : BitVec 32) (n : Nat) :
    (shiftInDigit val n).toNat = (val.toNat * 64 + n) % 2 ^ 32 := toNat_shift_add val 6 n

/-- A digit that leaves fewer than eight bits. -/
theorem decodeLoop_keep {n : Nat} (hn : n < 64) (s : Str) (val : BitVec 32) {valb : Int}
    (h : valb + 6 < 0) (out : Str) :
    decodeLoop (Base64.digit n :: s) ⟨val, valb, out⟩ =
      decodeLoop s ⟨shiftInDigit val n, valb + 6, out⟩ := by
  rw [decodeLoop]
  simp only [decodeTable_digit hn, if_neg (show ¬ (n : Int) = -1 by omega),
    if_neg (show ¬ 0 ≤ valb + 6 by omega), BitVec.ofInt_natCast]
  rfl

/-- A digit that completes a byte. -/
theorem decodeLoop_push {n : Nat} (hn : n < 64) (s : Str) (val : BitVec 32) {valb : Int}
    (h : 0 ≤ valb + 6) (h' : valb + 6 ≤ 24) (out : Str) {c : UInt8}
    (hc : (shiftInDigit val n).toNat / 2 ^ (valb + 6).toNat % 256 = c.toNat) :
    decodeLoop (Base64.digit n :: s) ⟨val, valb, out⟩ =
      decodeLoop s ⟨shiftInDigit val n, valb + 6 - 8, out ++ [c]⟩ := by
  rw [decodeLoop]
  simp only [decodeTable_digit hn, if_neg (show ¬ (n : Int) = -1 by omega), if_pos h,
    BitVec.ofInt_natCast]
  rw [shiftMask_eight _ (show (valb + 6).toNat + 8 ≤ 32 by omega)]
  rw [show (val <<< 6 + BitVec.ofNat 32 n) = shiftInDigit val n from rfl, hc, UInt8.ofNat_toNat]

theorem decodeLoop_pad (s : Str) (v : BitScan) : decodeLoop (Base64.pad :: s) v = v := by
  rw [decodeLoop]
  simp only [decodeTable_pad, if_pos]

/-- The bits that follow the first digit of a group. -/
theorem decode_first (s : Str) (val : BitVec 32) (out : Str) (a d : UInt8) :
    decodeLoop (Base64.digit (Base64.first a) :: Base64.digit (Base64.second a d) :: s)
        ⟨val, -8, out⟩ =
      decodeLoop s ⟨shiftInDigit (shiftInDigit val (Base64.first a)) (Base64.second a d), -4,
        out ++ [a]⟩ := by
  have ha := a.toNat_lt
  have hd := d.toNat_lt
  rw [decodeLoop_keep (Base64.first_lt a) _ _ (by decide),
    decodeLoop_push (Base64.second_lt a d) _ _ (by decide) (by decide) _ (c := a)]
  · rfl
  · change _ / 2 ^ 4 % 256 = _
    rw [toNat_shiftInDigit, toNat_shiftInDigit, Base64.first, Base64.second]
    omega

theorem decode_third (s : Str) (val : BitVec 32) (out : Str) (a c d : UInt8) :
    decodeLoop (Base64.digit (Base64.third c d) :: s)
        ⟨shiftInDigit val (Base64.second a c), -4, out⟩ =
      decodeLoop s ⟨shiftInDigit (shiftInDigit val (Base64.second a c)) (Base64.third c d), -6,
        out ++ [c]⟩ := by
  have ha := a.toNat_lt
  have hc := c.toNat_lt
  have hd := d.toNat_lt
  rw [decodeLoop_push (Base64.third_lt c d) _ _ (by decide) (by decide) _ (c := c)]
  · rfl
  · change _ / 2 ^ 2 % 256 = _
    rw [toNat_shiftInDigit, toNat_shiftInDigit, Base64.second, Base64.third]
    omega

theorem decode_fourth (s : Str) (val : BitVec 32) (out : Str) (c d : UInt8) :
    decodeLoop (Base64.digit (Base64.fourth d) :: s)
        ⟨shiftInDigit val (Base64.third c d), -6, out⟩ =
      decodeLoop s ⟨shiftInDigit (shiftInDigit val (Base64.third c d)) (Base64.fourth d), -8,
        out ++ [d]⟩ := by
  have hc := c.toNat_lt
  have hd := d.toNat_lt
  rw [decodeLoop_push (Base64.fourth_lt d) _ _ (by decide) (by decide) _ (c := d)]
  · rfl
  · change _ / 2 ^ 0 % 256 = _
    rw [toNat_shiftInDigit, toNat_shiftInDigit, Base64.third, Base64.fourth]
    omega

theorem decode_from (s : Str) (val : BitVec 32) (out : Str) :
    (decodeLoop (Base64.encode s) ⟨val, -8, out⟩).out = out ++ s := by
  induction s using Base64.encode.induct generalizing val out with
  | case1 => rw [Base64.encode, decodeLoop, List.append_nil]
  | case2 a => rw [Base64.encode, decode_first, decodeLoop_pad]
  | case3 a c =>
    rw [Base64.encode, decode_first, decode_third, decodeLoop_pad, List.append_assoc,
      List.singleton_append]
  | case4 a c d s ih =>
    rw [Base64.encode, decode_first, decode_third, decode_fourth, ih]
    simp only [List.append_assoc, List.cons_append, List.nil_append]

/-- **Base 64 of the mailer** is that of the standard, and decoding gives the bytes back. -/
theorem base64_correct (s : Str) :
    base64Encode s = Base64.encode s ∧ (base64Encode s).length = 4 * ((s.length + 2) / 3) ∧
      (∃ digits k, k ≤ 2 ∧ base64Encode s = digits ++ List.replicate k '='.toUInt8 ∧
        ∀ d ∈ digits, d ∈ Base64.alphabet) ∧
      base64Decode (base64Encode s) = s := by
  rw [base64Encode_eq]
  exact ⟨rfl, Base64.length_encode s, Base64.encode_padded s, decode_from s 0 []⟩

end Wsrv
