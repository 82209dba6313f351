import RegionPooling.Json.Value
import RegionPooling.Text.Numeral

/-!
# Numerals of a document

A numeral is a whole part, an optional fraction and an optional exponent, each kept as its
digits. `Numeral.value?` says which number it stands for.

A numeral without fraction and exponent that fits a machine word is a whole number. Every
other one is floating-point: as many leading digits as fit a word form the significand, and
the significand is then multiplied or divided by a power of ten, both in eight-byte
arithmetic. The result can therefore be off the nearest number by a little.
-/

namespace RegionPooling

/-- The parts of a numeral; the exponent is signed already. -/
structure Numeral where
  negative : Bool
  whole : List Char
  fraction : Option (List Char)
  exponent : Option Int
  deriving DecidableEq

namespace Numeral

/-! ## Leading digits -/

/-- The largest significand. -/
def significandLimit : Nat := 0xFFFFFFFFFFFFFFFF

/-- The significand gathered so far, and whether a digit has been left out. -/
structure Gathered where
  significand : Nat
  exponent : Int
  full : Bool

/-- Takes in one digit of the whole part; once full, it counts as a power of ten only. -/
def Gathered.addWhole (g : Gathered) (digit : Char) : Gathered :=
  let next := g.significand * 10 + Text.digitValue digit
  if !g.full && next ≤ significandLimit then { g with significand := next }
  else { g with exponent := g.exponent + 1, full := true }

/-- Takes in one digit of the fraction; once full, it is dropped. -/
def Gathered.addFraction (g : Gathered) (digit : Char) : Gathered :=
  let next := g.significand * 10 + Text.digitValue digit
  if !g.full && next ≤ significandLimit then
    { g with significand := next, exponent := g.exponent - 1 }
  else { g with full := true }

/-- The significand of the whole part. -/
def gatherWhole (n : Numeral) : Gathered := n.whole.foldl .addWhole ⟨0, 0, false⟩

/-- The significand of the whole part and the fraction, with the exponent. -/
def gather (n : Numeral) : Gathered :=
  let whole := n.gatherWhole
  -- The fraction is tried anew: a small digit can fit where a large one did not.
  let all := (n.fraction.getD []).foldl .addFraction { whole with full := false }
  { all with exponent := all.exponent + n.exponent.getD 0 }

/-! ## Powers of ten -/

/-- The largest exponent of a power of ten in the format. -/
def largestPower : Nat := 308

def tenPower (exponent : Nat) : Double := Decimal.toBinary false ⟨1, exponent⟩

/--
Multiplies by a power of ten, or divides if the exponent is negative; nothing if the result
is too large. A very small power takes more than one division.
-/
def scale (x : Double) (exponent : Int) : Option Double :=
  if exponent.natAbs ≤ largestPower then
    if 0 ≤ exponent then
      let y := x * tenPower exponent.toNat
      if y.isFinite then some y else none
    else some (x / tenPower exponent.natAbs)
  -- Zero stays zero under every power, also under those that have no number.
  else if x.numEq (.zero false) then some x
  else if 0 ≤ exponent then none
  else scale (x / tenPower largestPower) (exponent + largestPower)
termination_by exponent.natAbs
decreasing_by simp only [largestPower] at *; omega

/-! ## Value -/

/-- A whole number if a machine word holds it; `-0` and what is too low are not whole. -/
def wholeNumber (negative : Bool) (significand : Nat) : Number :=
  if !negative then .whole significand
  else if 0 < significand ∧ significand ≤ 0x8000000000000000 then .whole (-significand)
  else .real (Binary.ofNat significand : Double).neg

/-- The number that the numeral stands for, or nothing if it is too large. -/
def value? (n : Numeral) : Option Number :=
  let whole := n.gatherWhole
  if n.fraction.isNone && n.exponent.isNone && !whole.full then
    some (wholeNumber n.negative whole.significand)
  else
    let all := n.gather
    (scale (Binary.ofNat all.significand) all.exponent).map fun x =>
      .real (if n.negative then x.neg else x)

end Numeral

end RegionPooling
