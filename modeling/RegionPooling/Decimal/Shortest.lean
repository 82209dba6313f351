import RegionPooling.Binary.Number

/-!
# Decimals of binary numbers

Two ways to turn a binary number into decimal digits. `Format.shortestDecimal` takes the
fewest digits that still read back as the same number, and of those the nearest to it.
`Format.roundedDecimal` takes a given number of digits. Both work on ratios of naturals.

For a given number of digits only two decimals can be the nearest, the neighbours of the
number on that grid, so the search tries two candidates for each length.
-/

namespace RegionPooling

-- The powers of the natural numbers themselves, whatever else is in scope.
attribute [local instance (2000)] instPowNat

/-- The decimal `significand * 10 ^ exponent`. -/
structure Decimal where
  significand : Nat
  exponent : Int
  deriving DecidableEq

namespace Decimal

/-- The index of the nearest number of a format. -/
def index (f : Format) (d : Decimal) : Nat :=
  f.nearestIndex (d.significand * 10 ^ d.exponent.toNat * f.unitsPerOne)
    (10 ^ (-d.exponent).toNat)

/-- The nearest number of a format, with a sign. -/
def toBinary {f : Format} (negative : Bool) (d : Decimal) : Binary f :=
  .number negative (d.index f) (f.nearestIndex_le ..)

/-- The exponent of the first digit of the positive ratio `num / den`. -/
def leadingExponent (num den : Nat) : Int :=
  if den ≤ num then ((Nat.toDigits 10 (num / den)).length : Int) - 1
  else -((Nat.toDigits 10 ((den - 1) / num)).length : Int)

/-- The ratio `num / den` divided by `10 ^ exponent`, again as a ratio. -/
def onGrid (num den : Nat) (exponent : Int) : Nat × Nat :=
  (num * 10 ^ (-exponent).toNat, den * 10 ^ exponent.toNat)

end Decimal

/-- Which of two equally near decimals is taken. -/
inductive Tie where
  /-- The one that ends in an even digit. -/
  | toEven
  /-- The larger one. -/
  | up
  deriving DecidableEq

namespace Format

/--
The neighbour of the number at `index` on the grid of multiples of `10 ^ exponent`, if one
of its two neighbours reads back as that number.
-/
def neighbour? (f : Format) (tie : Tie) (index : Nat) (exponent : Int) : Option Decimal :=
  let (num, den) := Decimal.onGrid (f.units index) f.unitsPerOne exponent
  let lower : Decimal := ⟨num / den, exponent⟩
  let upper : Decimal := ⟨num / den + 1, exponent⟩
  match decide (lower.index f = index), decide (upper.index f = index) with
  | true, true =>
    -- Both read back: the nearer one is taken, and `tie` decides half way between them.
    let twice := 2 * (num % den)
    if twice < den then some lower
    else if den < twice then some upper
    else if tie = .toEven ∧ num / den % 2 = 0 then some lower
    else some upper
  | true, false => some lower
  | false, true => some upper
  | false, false => none

/-- A number of decimal digits with which every number of the format reads back. -/
def enoughDigits (f : Format) : Nat := f.fractionBits * 30103 / 100000 + 3

/-- The number at `index` written out exactly. -/
def exactDecimal (f : Format) (index : Nat) : Decimal :=
  ⟨f.units index * 5 ^ f.unitExponent, -(f.unitExponent : Int)⟩

/--
The fewest digits that read back as the positive number at `index`; of those the nearest,
with `tie` between two equally near. Should no short decimal do, the exact one does.
-/
def shortestDecimal (f : Format) (tie : Tie) (index : Nat) : Decimal :=
  let leading := Decimal.leadingExponent (f.units index) f.unitsPerOne
  let found := (List.range f.enoughDigits).findSome? fun (further : Nat) =>
    f.neighbour? tie index (leading - further)
  found.getD (f.exactDecimal index)

/--
The positive number at `index` rounded to `places` digits after the first; a tie goes to
the even digit.
-/
def roundedDecimal (f : Format) (places : Nat) (index : Nat) : Decimal :=
  let exponent := Decimal.leadingExponent (f.units index) f.unitsPerOne - places
  let (num, den) := Decimal.onGrid (f.units index) f.unitsPerOne exponent
  ⟨divToEven num den, exponent⟩

end Format

end RegionPooling
