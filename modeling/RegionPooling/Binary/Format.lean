/-!
# Binary formats

A binary interchange format stores a sign, an exponent and a fraction. Leaving the sign
aside, the remaining bits form one natural number, the *index* of the value. Indices are
in the order of the values they stand for, and neighbouring values have neighbouring
indices: `0` is zero, `infinityIndex` is infinity, and everything between is finite.

Every finite value is a whole number of *units*, the unit being the smallest positive
value of the format. `Format.units` turns an index into that whole number. It is a
`significand` of few bits, doubled some number of times.
-/

namespace RegionPooling

-- The powers of the natural numbers themselves, whatever else is in scope.
attribute [local instance (2000)] instPowNat

/-- A binary interchange format, given by the widths of its two fields. -/
structure Format where
  fractionBits : Nat
  exponentBits : Nat
  two_le_exponentBits : 2 ≤ exponentBits := by decide

namespace Format

/-- Four-byte numbers. -/
def single : Format := { fractionBits := 23, exponentBits := 8 }

/-- Eight-byte numbers. -/
def double : Format := { fractionBits := 52, exponentBits := 11 }

/-- The number of fractions that share one exponent. -/
def fractions (f : Format) : Nat := 2 ^ f.fractionBits

/-- The index of infinity: exponent field all ones, fraction zero. -/
def infinityIndex (f : Format) : Nat := (2 ^ f.exponentBits - 1) * f.fractions

/-- The number `1` is two to this power, counted in units. -/
def unitExponent (f : Format) : Nat := 2 ^ (f.exponentBits - 1) - 2 + f.fractionBits

/-- The number `1`, counted in units. -/
def unitsPerOne (f : Format) : Nat := 2 ^ f.unitExponent

/--
The bits of a value from the leading one on. Below `fractions` the index has them all; above,
the fraction gets its leading one.
-/
@[specialize f]
def significand (f : Format) (index : Nat) : Nat :=
  if index < f.fractions then index else f.fractions + index % f.fractions

/-- How often the significand is doubled: once for every exponent above the second. -/
@[specialize f]
def doublings (f : Format) (index : Nat) : Nat := index / f.fractions - 1

/-- The value at an index, counted in units. -/
@[specialize f]
def units (f : Format) (index : Nat) : Nat := f.significand index * 2 ^ f.doublings index

theorem units_zero (f : Format) : f.units 0 = 0 := by
  have : 0 < f.fractions := Nat.pow_pos (by decide)
  simp [units, significand, this]

end Format

/-! ## Powers of two -/

/-- The powers of two that are kept at hand. -/
def powersOfTwo : Array Nat := ((List.range 512).map fun i => 2 ^ i).toArray

/-- Two to a power, looked up where it is kept at hand. -/
@[inline]
def twoPow (n : Nat) : Nat := if h : n < powersOfTwo.size then powersOfTwo[n] else 2 ^ n

theorem twoPow_eq (n : Nat) : twoPow n = 2 ^ n := by
  unfold twoPow
  split
  · simp [powersOfTwo]
  · rfl

end RegionPooling
