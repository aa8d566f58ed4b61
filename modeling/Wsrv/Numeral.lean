import Wsrv.Text

/-!
# Numbers in a text

`std::stod` hands the bytes up to the first zero byte to `strtod`, which skips
white space and converts the longest prefix that is a numeral: decimal,
hexadecimal, an infinity or a NaN.  It throws where there is none, and where the
value is out of the range of `double`.  What stands behind the numeral is not
looked at, so that `"12abc"` is twelve.
-/

namespace Wsrv

/-! ## The longest prefix -/

section Prefix

variable {α : Type}

/-- The longest prefix with the property. -/
def longestPrefix (p : List α → Bool) : List α → Option (List α)
  | [] => if p [] then some [] else none
  | a :: s =>
    match longestPrefix (fun t => p (a :: t)) s with
    | some t => some (a :: t)
    | none => if p [] then some [] else none

end Prefix

/-! ## Numerals -/

def isxdigit (c : UInt8) : Bool :=
  isdigit c || (decide ('a'.toUInt8 ≤ tolower c) && decide (tolower c ≤ 'f'.toUInt8))

/-- What stands behind an optional sign. -/
def unsigned : Str → Str
  | [] => []
  | c :: s => if c = '+'.toUInt8 ∨ c = '-'.toUInt8 then s else c :: s

/-- Nothing, or the letter, an optional sign and digits. -/
def isExponent (mark : UInt8) : Str → Bool
  | [] => true
  | c :: s => decide (tolower c = mark) && decide (unsigned s ≠ []) && (unsigned s).all isdigit

/-- Digits, among which may stand a point, and an exponent. -/
def isSignificand (digit : UInt8 → Bool) (mark : UInt8) (s : Str) : Bool :=
  let whole := s.takeWhile digit
  match s.dropWhile digit with
  | [] => decide (whole ≠ [])
  | c :: rest =>
    if c = '.'.toUInt8 then
      decide (whole ≠ [] ∨ rest.takeWhile digit ≠ []) && isExponent mark (rest.dropWhile digit)
    else decide (whole ≠ []) && isExponent mark (c :: rest)

/-- `12`, `-1.5`, `.5e+3`. -/
def isDecimal (s : Str) : Bool := isSignificand isdigit 'e'.toUInt8 (unsigned s)

/-- `0x1.8p3` behind the sign. -/
def isHexadecimal : Str → Bool
  | zero :: x :: s =>
    decide (zero = '0'.toUInt8) && decide (tolower x = 'x'.toUInt8) &&
      isSignificand isxdigit 'p'.toUInt8 s
  | _ => false

/-- Letters, digits and underscores, and the closing parenthesis. -/
def isPayload : Str → Bool
  | [] => false
  | c :: s =>
    (decide (c = ')'.toUInt8) && decide (s = [])) ||
      ((isalnum c || decide (c = '_'.toUInt8)) && isPayload s)

/-- `inf`, `infinity`, `nan` and `nan(...)` in letters of either case. -/
def isSpecial (s : Str) : Bool :=
  decide (s.map tolower = str "inf") || decide (s.map tolower = str "infinity") ||
    (decide ((s.take 3).map tolower = str "nan") &&
      match s.drop 3 with
      | [] => true
      | c :: rest => decide (c = '('.toUInt8) && isPayload rest)

/-- The subject sequence of `strtod`. -/
def isNumeral (s : Str) : Bool :=
  isDecimal s || isHexadecimal (unsigned s) || isSpecial (unsigned s)

/-- `s.c_str()` up to its end. -/
def cStr (s : Str) : Str := s.takeWhile (· ≠ 0)

/-- What `strtod` converts of the text. -/
def numeralOf (s : Str) : Option Str := longestPrefix isNumeral ((cStr s).dropWhile isspace)

/-- `std::stod`, where `value` is the number of a numeral or `none` when it is out of range; `none`
where an exception is thrown. -/
def stod {Double : Type} (value : Str → Option Double) (s : Str) : Option Double :=
  (numeralOf s).bind value

example : numeralOf (str " -1.5e3,7") = some (str "-1.5e3") := by decide +kernel
example : numeralOf (str "0x.") = some (str "0") := by decide +kernel

/-! ## White space around a numeral -/

/-- The text without the white space around it. -/
def strip (s : Str) : Str := (s.dropWhile isspace).rdropWhile isspace

/-- A decimal numeral and nothing else but white space around it. -/
def isNumberText (s : Str) : Bool := isDecimal (strip s)

end Wsrv
