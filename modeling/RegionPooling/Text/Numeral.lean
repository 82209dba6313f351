/-!
# Numerals

Natural numbers in decimal digits, read up to a limit. A single `+` may stand in front.
-/

namespace RegionPooling.Text

/-- Why a text is not a numeral. -/
inductive NumeralError where
  | empty
  | invalidDigit
  | tooLarge
  deriving DecidableEq

def NumeralError.message : NumeralError → String
  | empty => "cannot parse integer from empty string"
  | invalidDigit => "invalid digit found in string"
  | tooLarge => "number too large to fit in target type"

/-- The value of a decimal digit. -/
def digitValue (c : Char) : Nat := c.toNat - '0'.toNat

/--
Appends the digits of a text to the number read so far. The first character that is no
digit or leads past the limit decides the error.
-/
def readDigits (limit : Nat) : Nat → List Char → Except NumeralError Nat
  | value, [] => .ok value
  | value, c :: rest =>
    if c.isDigit then
      let next := value * 10 + digitValue c
      if next ≤ limit then readDigits limit next rest else .error .tooLarge
    else .error .invalidDigit

/-- Reads a numeral of at most `limit`. -/
def readNumeral (limit : Nat) : List Char → Except NumeralError Nat
  | [] => .error .empty
  | ['+'] => .error .invalidDigit
  | '+' :: digits => readDigits limit 0 digits
  | digits => readDigits limit 0 digits

/-- Reads a whole number of either sign that has to lie between 0 and the limit. -/
def readWithin (limit : Nat) : List Char → Option Nat
  -- Of the negative numbers only minus zero lies within the bounds.
  | '-' :: digits =>
    if digits ≠ [] ∧ digits.all (· == '0') then some 0 else none
  | text => (readNumeral limit text).toOption

end RegionPooling.Text
