import Mathlib.Data.List.GetD
import Mathlib.Tactic.Ring

/-!
# Base 64

The standard encoding of RFC 4648: three bytes are four digits of six bits, and
what is left over, one byte or two, is padded to four characters.
-/

namespace Base64

def upper : List UInt8 := (List.range 26).map fun i => UInt8.ofNat (65 + i)
def lower : List UInt8 := (List.range 26).map fun i => UInt8.ofNat (97 + i)
def decimal : List UInt8 := (List.range 10).map fun i => UInt8.ofNat (48 + i)

/-- `A` to `Z`, `a` to `z`, `0` to `9`, `+` and `/`. -/
def alphabet : List UInt8 := upper ++ lower ++ decimal ++ [43, 47]

/-- The character `=`. -/
def pad : UInt8 := 61

def digit (n : Nat) : UInt8 := alphabet.getD n pad

/-- The 24 bits of three bytes, six by six. -/
def first (a : UInt8) : Nat := a.toNat / 4
def second (a b : UInt8) : Nat := a.toNat % 4 * 16 + b.toNat / 16
def third (b c : UInt8) : Nat := b.toNat % 16 * 4 + c.toNat / 64
def fourth (c : UInt8) : Nat := c.toNat % 64

def encode : List UInt8 → List UInt8
  | [] => []
  | [a] => [digit (first a), digit (second a 0), pad, pad]
  | [a, b] => [digit (first a), digit (second a b), digit (third b 0), pad]
  | a :: b :: c :: s =>
    digit (first a) :: digit (second a b) :: digit (third b c) :: digit (fourth c) :: encode s

theorem first_lt (a : UInt8) : first a < 64 := by
  have ha := a.toNat_lt
  unfold first
  omega

theorem second_lt (a b : UInt8) : second a b < 64 := by
  have hb := b.toNat_lt
  unfold second
  omega

theorem third_lt (b c : UInt8) : third b c < 64 := by
  have hc := c.toNat_lt
  unfold third
  omega

theorem fourth_lt (c : UInt8) : fourth c < 64 := Nat.mod_lt _ (by decide)

theorem length_alphabet : alphabet.length = 64 := rfl

theorem digit_mem {n : Nat} (h : n < 64) : digit n ∈ alphabet := by
  rw [← length_alphabet] at h
  rw [digit, List.getD_eq_getElem _ _ h]
  exact List.getElem_mem h

/-- **The length** is four characters for every three bytes begun. -/
theorem length_encode (s : List UInt8) : (encode s).length = 4 * ((s.length + 2) / 3) := by
  induction s using encode.induct with
  | case1 => rfl
  | case2 a => simp [encode]
  | case3 a b => simp [encode]
  | case4 a b c s ih =>
    simp only [encode, List.length_cons, ih]
    omega

/-- **Padding** stands at the end only, behind the digits. -/
theorem encode_padded (s : List UInt8) :
    ∃ digits k, k ≤ 2 ∧ encode s = digits ++ List.replicate k pad ∧ ∀ d ∈ digits, d ∈ alphabet := by
  induction s using encode.induct with
  | case1 => exact ⟨[], 0, by decide, rfl, by simp⟩
  | case2 a =>
    refine ⟨[digit (first a), digit (second a 0)], 2, le_rfl, by rw [encode]; rfl, ?_⟩
    simp only [List.forall_mem_cons]
    exact ⟨digit_mem (first_lt a), digit_mem (second_lt a 0), fun _ h => nomatch h⟩
  | case3 a b =>
    refine ⟨[digit (first a), digit (second a b), digit (third b 0)], 1, by decide, by rw [encode]; rfl, ?_⟩
    simp only [List.forall_mem_cons]
    exact ⟨digit_mem (first_lt a), digit_mem (second_lt a b), digit_mem (third_lt b 0),
      fun _ h => nomatch h⟩
  | case4 a b c s ih =>
    obtain ⟨digits, k, hk, hencode, hdigits⟩ := ih
    refine ⟨digit (first a) :: digit (second a b) :: digit (third b c) :: digit (fourth c) :: digits,
      k, hk, by rw [encode, hencode]; rfl, ?_⟩
    simp only [List.forall_mem_cons]
    exact ⟨digit_mem (first_lt a), digit_mem (second_lt a b), digit_mem (third_lt b c),
      digit_mem (fourth_lt c), hdigits⟩

end Base64
