import PageTokens.Alphabet

/-!
# Numerals

A run of regular characters is a numeral if it has one of three forms:

* radix, `base#digits`: decimal digits, a `#`, and letters or digits. The digits need not be digits
  of that base;
* real, an optional minus, digits or none, a point, at least one digit, and optionally an exponent:
  `e` or `E`, an optional sign, at least one digit;
* integer, an optional minus and at least one digit.

There is no plus sign, and a point with nothing behind it makes no numeral. Digits and letters are
those of ASCII.
-/

namespace PageTokens

/-- The forms of numerals. -/
inductive Numeral where
  /-- `-42` -/
  | integer
  /-- `-1.2e-7` -/
  | real
  /-- `16#ffFE` -/
  | radix
  deriving DecidableEq, Repr

namespace Numeral

/-- One or more decimal digits. -/
def isDigits (t : Text) : Bool :=
  !t.isEmpty && t.all Char.isDigit

/-- The text without its minus sign, if it begins with one. -/
def withoutMinus : Text → Text
  | '-' :: t => t
  | t => t

/-- The text without its sign, if it begins with one. -/
def withoutSign : Text → Text
  | '+' :: t => t
  | t => withoutMinus t

/-- What may follow the fraction of a real: nothing, or an exponent. -/
def isExponent : Text → Bool
  | [] => true
  | c :: t => (c == 'e' || c == 'E') && isDigits (withoutSign t)

/-- What follows the point of a real: digits, at least one, and perhaps an exponent. -/
def isFraction (t : Text) : Bool :=
  !(t.takeWhile Char.isDigit).isEmpty && isExponent (t.dropWhile Char.isDigit)

/-- Optional minus, digits. -/
def isInteger (t : Text) : Bool :=
  isDigits (withoutMinus t)

/-- Optional minus, digits or none, point, fraction. -/
def isReal (t : Text) : Bool :=
  match (withoutMinus t).dropWhile Char.isDigit with
  | '.' :: fraction => isFraction fraction
  | _ => false

/-- Digits, `#`, letters or digits; the first `#` counts. -/
def isRadix (t : Text) : Bool :=
  match t.dropWhile (· != '#') with
  | _ :: digits =>
    isDigits (t.takeWhile (· != '#')) && !digits.isEmpty && digits.all Char.isAlphanum
  | [] => false

/-- The form of a numeral, or `none` if the text is no numeral. -/
def classify? (t : Text) : Option Numeral :=
  if isRadix t then some .radix
  else if isReal t then some .real
  else if isInteger t then some .integer
  else none

end Numeral

end PageTokens
