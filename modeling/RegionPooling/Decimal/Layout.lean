import RegionPooling.Decimal.Shortest
import RegionPooling.Text.Parts

/-!
# Layouts of decimal numbers

How the digits of a number are laid out as text: positional, with zeros filled in around
the point, or scientific, with one digit before the point and the exponent at the end. A
`Layout` records the choices of one written form, and `Layout.render` writes numbers with
the shortest digits in that form.

Four forms are in use. `plain` and `scientific` appear in messages; `jsonSingle` and
`jsonDouble` in documents, where the two widths differ in how far positional notation goes.
-/

namespace RegionPooling

/-- The choices of one written form of numbers. -/
structure Layout where
  /-- Between two equally near shortest decimals. -/
  tie : Tie
  /-- Exponents of the first digit from which and up to which the form is positional. -/
  positional : Int → Bool
  /-- What follows the last digit of a positional whole number. -/
  afterWhole : String
  /-- What stands before an exponent that is not negative. -/
  plus : String
  /-- Not-a-number. -/
  nan : String
  /-- Infinity by its sign. -/
  infinity : Bool → String

namespace Layout

/-- Positional throughout, as in messages. -/
def plain : Layout where
  tie := .up
  positional _ := true
  afterWhole := ""
  plus := ""
  nan := "NaN"
  infinity negative := if negative then "-inf" else "inf"

/-- Scientific throughout, as in reports. -/
def scientific : Layout := { plain with positional := fun _ => false }

/-- Numbers of a document; what is not finite has no written form there and becomes `null`. -/
def json (lowest highest : Int) : Layout where
  tie := .toEven
  positional e := decide (lowest ≤ e) && decide (e ≤ highest)
  afterWhole := ".0"
  plus := "+"
  nan := "null"
  infinity _ := "null"

/-- Four-byte numbers of a document. -/
def jsonSingle : Layout := json (-6) 12

/-- Eight-byte numbers of a document. -/
def jsonDouble : Layout := json (-5) 15

/-! ## Digits -/

def zeros (n : Nat) : List Char := List.replicate n '0'

/-- The digits, first digit first, with the point after `exponent + 1` of them. -/
def writePositional (l : Layout) (digits : List Char) (exponent : Int) : List Char :=
  if exponent < 0 then "0.".toList ++ zeros ((-exponent).toNat - 1) ++ digits
  else
    let whole := exponent.toNat + 1
    if digits.length ≤ whole then digits ++ zeros (whole - digits.length) ++ l.afterWhole.toList
    else digits.take whole ++ '.' :: digits.drop whole

/-- A whole number in decimal digits. -/
def writeInt (n : Int) : List Char :=
  if n < 0 then '-' :: Nat.toDigits 10 n.natAbs else Nat.toDigits 10 n.natAbs

/-- The first digit, the others after the point if there are any, and the exponent. -/
def writeScientific (l : Layout) (digits : List Char) (exponent : Int) : List Char :=
  digits.take 1 ++ (if digits.length ≤ 1 then [] else '.' :: digits.drop 1)
    ++ 'e' :: (if exponent < 0 then [] else l.plus.toList) ++ writeInt exponent

/-- The digits of a decimal and the exponent of the first one. -/
def digitsAndExponent (d : Decimal) : List Char × Int :=
  let digits := Nat.toDigits 10 d.significand
  (digits, d.exponent + (digits.length - 1 : Nat))

def sign (negative : Bool) : List Char := if negative then ['-'] else []

/-! ## Numbers -/

/-- The magnitude at a finite index, by its shortest digits. -/
def writeMagnitude (l : Layout) (f : Format) (index : Nat) : List Char :=
  let (digits, exponent) :=
    if index = 0 then (['0'], 0)
    else
      let (digits, exponent) := digitsAndExponent (f.shortestDecimal l.tie index)
      (Text.dropEndWhile (· == '0') digits, exponent)
  if l.positional exponent then l.writePositional digits exponent
  else l.writeScientific digits exponent

/-- The text of a number in this layout. -/
def render {f : Format} (l : Layout) : Binary f → String
  | .nan => l.nan
  | .number negative index _ =>
    if index = f.infinityIndex then l.infinity negative
    else String.ofList (sign negative ++ l.writeMagnitude f index)

/-- The scientific form with exactly `places` digits after the point. -/
def renderRounded {f : Format} (places : Nat) : Binary f → String
  | .nan => scientific.nan
  | .number negative index _ =>
    if index = f.infinityIndex then scientific.infinity negative
    else
      let (digits, exponent) :=
        if index = 0 then (zeros (places + 1), 0)
        else
          let (digits, exponent) := digitsAndExponent (f.roundedDecimal places index)
          (digits.take (places + 1), exponent)
      String.ofList (sign negative ++ scientific.writeScientific digits exponent)

end Layout

end RegionPooling
