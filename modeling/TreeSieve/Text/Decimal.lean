import TreeSieve.Text.Blank

/-!
# Decimal digits

Every script with decimal digits has ten of them at consecutive code points.

* `Text.digitValue?` is the value of a decimal digit of any script.
* `Text.parseInt?` reads an integer: blanks around it, one sign and single underscores between
  digits are allowed, and there is a limit to the number of digits.
-/

namespace TreeSieve.Text

/-- The code points of the digits zero. -/
def zeroDigits : List Nat :=
  [0x30, 0x660, 0x6F0, 0x7C0, 0x966, 0x9E6, 0xA66, 0xAE6, 0xB66, 0xBE6,
   0xC66, 0xCE6, 0xD66, 0xDE6, 0xE50, 0xED0, 0xF20, 0x1040, 0x1090, 0x17E0,
   0x1810, 0x1946, 0x19D0, 0x1A80, 0x1A90, 0x1B50, 0x1BB0, 0x1C40, 0x1C50, 0xA620,
   0xA8D0, 0xA900, 0xA9D0, 0xA9F0, 0xAA50, 0xABF0, 0xFF10, 0x104A0, 0x10D30, 0x11066,
   0x110F0, 0x11136, 0x111D0, 0x112F0, 0x11450, 0x114D0, 0x11650, 0x116C0, 0x11730, 0x118E0,
   0x11950, 0x11C50, 0x11D50, 0x11DA0, 0x16A60, 0x16AC0, 0x16B50, 0x1D7CE, 0x1D7D8, 0x1D7E2,
   0x1D7EC, 0x1D7F6, 0x1E140, 0x1E2F0, 0x1E950, 0x1FBF0]

/-- The value of a decimal digit. -/
def digitValue? (c : Char) : Option Nat :=
  (zeroDigits.find? fun first => first ≤ c.toNat && c.toNat < first + 10).map (c.toNat - ·)

/-- Whether a character is a decimal digit. -/
def isDecimalDigit (c : Char) : Bool := (digitValue? c).isSome

/-- Reads digits after `value`; an underscore must stand between two digits. -/
def digitsFrom (value : Nat) : Text → Option Nat
  | [] => some value
  | '_' :: c :: rest =>
    match digitValue? c with
    | some d => digitsFrom (value * 10 + d) rest
    | none => none
  | c :: rest =>
    match digitValue? c with
    | some d => digitsFrom (value * 10 + d) rest
    | none => none

/-- Reads a natural number, which begins with a digit. -/
def parseNat? : Text → Option Nat
  | [] => none
  | c :: rest =>
    match digitValue? c with
    | some d => digitsFrom d rest
    | none => none

/-- The largest number of digits in which a number may be written. -/
def maxDigits : Nat := 4300

/-- What is said about a number with more digits than that. -/
def tooManyDigits (digits : Nat) : Text :=
  lit "Exceeds the limit (4300 digits) for integer string conversion: value has " ++ ofNat digits
    ++ lit " digits; use sys.set_int_max_str_digits() to increase the limit"

/-- Whether a character may stand around a number: a blank that is no information separator. -/
def isNumberMargin (c : Char) : Bool := isBlank c && !('\x1c' ≤ c && c ≤ '\x1f')

/-- Reads a natural number that does not have too many digits. -/
def parseShortNat? (t : Text) : Option Nat :=
  if t.countP isDecimalDigit ≤ maxDigits then parseNat? t else none

/-- Reads an integer. -/
def parseInt? (t : Text) : Option Int :=
  match dropEndWhile isNumberMargin (t.dropWhile isNumberMargin) with
  | '+' :: digits => (parseShortNat? digits).map Int.ofNat
  | '-' :: digits => (parseShortNat? digits).map fun n => -Int.ofNat n
  | digits => (parseShortNat? digits).map Int.ofNat

end TreeSieve.Text
