import Mathlib

/-!
# Byte strings

`std::string` is a list of bytes, `std::map<std::string, std::string>` the
extensional tree map of core Lean over the byte order, so that two
dictionaries are equal exactly when every lookup agrees.  A `char` is compared
as an unsigned byte: every test of the source is on ASCII values, where the
sign of `char` makes no difference.
-/

namespace Wsrv

abbrev Str := List UInt8

/-- A literal of the source. -/
def str (s : String) : Str := s.toList.map Char.toUInt8

instance : LawfulBEq Str := List.instLawfulBEq

abbrev Dictionary := Std.ExtTreeMap Str Str

def CR : UInt8 := '\r'.toUInt8
def LF : UInt8 := '\n'.toUInt8

/-- A property of bytes that holds of all 256 of them. -/
theorem forall_byte {P : UInt8 → Prop} (h : ∀ n : Fin 256, P (UInt8.ofNat n)) (c : UInt8) : P c := by
  have := h ⟨c.toNat, c.toNat_lt⟩
  rwa [UInt8.ofNat_toNat] at this

/-! ## `<cctype>` in the classic locale -/

def isdigit (c : UInt8) : Bool := decide ('0'.toUInt8 ≤ c) && decide (c ≤ '9'.toUInt8)

def isalpha (c : UInt8) : Bool :=
  (decide ('a'.toUInt8 ≤ c) && decide (c ≤ 'z'.toUInt8)) ||
    (decide ('A'.toUInt8 ≤ c) && decide (c ≤ 'Z'.toUInt8))

def isalnum (c : UInt8) : Bool := isalpha c || isdigit c

/-- Space, `\t`, `\n`, `\v`, `\f` and `\r`. -/
def isspace (c : UInt8) : Bool := c == 32 || (decide (9 ≤ c) && decide (c ≤ 13))

def tolower (c : UInt8) : UInt8 :=
  if decide ('A'.toUInt8 ≤ c) && decide (c ≤ 'Z'.toUInt8) then c + 32 else c

/-- `std::to_string` of an unsigned number. -/
def toString (n : Nat) : Str := (Nat.toDigits 10 n).map Char.toUInt8

end Wsrv
