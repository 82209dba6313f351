import RegionPooling.Proofs.Pooling.Footprint
import RegionPooling.Proofs.Pooling.Reference

/-!
# Corners hold the nearest point of the axis

The pixels of an axis lie at the whole numbers from zero to its length less one. A position
outside of them is interpolated at the nearest end, and any other one at itself. The corners of a
position say where that is without any error: the lower pixel and the fraction add up to it, as
rational numbers. The lower pixel is a whole number that was cut down to a size, and the fraction
is a difference that has no more bits than the position.

The infinities lie beyond the ends of every axis. Not-a-number lies nowhere, and is left out.

Main results:

* `Corners.fraction_exact` — the fraction is not rounded.
* `Corners.hold_end`, `Corners.hold_between` — the two kinds of corners.
* `Corners.holds_nearest` — what the corners of a position are.
-/

namespace RegionPooling

open Reference (clampTo)

namespace Corners

/-- The corners are two pixels of an axis of this length, or the same one twice, and with the
fraction they hold the point. -/
structure Hold (c : Corners) (length : Nat) (point : ℚ) : Prop where
  upper_lt : c.upper < length
  lower_le : c.lower ≤ c.upper
  upper_le : c.upper ≤ c.lower + 1
  fraction_nonneg : .zero false ≤ c.fraction
  fraction_lt_one : c.fraction < Binary.ofNat 1
  /-- There is nothing to interpolate between a pixel and itself. -/
  fraction_eq_zero : c.upper = c.lower → c.fraction = .zero false
  add_eq : (c.lower : ℚ) + c.fraction.value = point

variable {position : Single} {length : Nat}

/-- An end of the axis, with no fraction. -/
theorem hold_end {pixel : Nat} {point : ℚ} (hpixel : pixel < length) (hpoint : point = pixel) :
    Hold ⟨pixel, pixel, .zero false⟩ length point where
  upper_lt := hpixel
  lower_le := le_refl pixel
  upper_le := Nat.le_succ pixel
  fraction_nonneg := by
    show (.zero false : Single) ≤ .zero false
    decide
  fraction_lt_one := by
    show (.zero false : Single) < Binary.ofNat 1
    decide +kernel
  fraction_eq_zero _ := rfl
  add_eq := by rw [Binary.value_zero, add_zero, hpoint]

/-- Between the ends a position is finite, and its fraction is not rounded. -/
theorem fraction_exact (h : position ≠ .nan) (hnonneg : 0 ≤ position.value)
    (hbetween : ⌊position.value⌋₊ < length - 1) (hlt : length < addressable) :
    Single.Exact (position - position.floor) (Int.fract position.value) := by
  have hfinite : position.isFinite = true := by
    by_contra hinfinite
    -- Infinity is not below the length of any axis.
    rw [Binary.eq_infinity h hinfinite hnonneg, Single.value_infinity] at hbetween
    have hfloor : ⌊(2 : ℚ) ^ 128⌋₊ = 2 ^ 128 := by exact_mod_cast Nat.floor_natCast (2 ^ 128)
    unfold addressable at hlt
    omega
  exact Single.exact_sub_floor hfinite hnonneg

/-- Two pixels that the position lies between. -/
theorem hold_between (h : position ≠ .nan) (hnonneg : 0 ≤ position.value)
    (hbetween : ⌊position.value⌋₊ < length - 1) (hlt : length < addressable) :
    Hold ⟨⌊position.value⌋₊, ⌊position.value⌋₊ + 1, position - position.floor⟩ length
      position.value := by
  have hfraction := fraction_exact h hnonneg hbetween hlt
  have hfloor : (⌊position.value⌋₊ : ℚ) = ⌊position.value⌋ := by
    exact_mod_cast Int.natCast_floor_eq_floor hnonneg
  exact {
    upper_lt := by dsimp only; omega
    lower_le := Nat.le_succ _
    upper_le := Nat.le_refl _
    fraction_nonneg := by
      rw [Binary.le_iff_value_le (Binary.zero_ne_nan _) hfraction.ne_nan, Binary.value_zero,
        hfraction.value_eq]
      exact Int.fract_nonneg _
    fraction_lt_one := (hfraction.lt_iff Single.exact_one).mpr (Int.fract_lt_one _)
    fraction_eq_zero := fun hsame => absurd hsame (Nat.succ_ne_self _)
    add_eq := by rw [hfraction.value_eq, hfloor, Int.floor_add_fract] }

/--
The corners of a position hold the nearest point of the axis. They are pixels, next to each other
or the same one; the fraction is at least zero and below one, and it is zero where the pixels are
the same; and the lower pixel and the fraction add up to the point without any rounding. This holds
of every position that is a number, also of an infinite one, and for every axis that has a pixel.
-/
theorem holds_nearest (h : position ≠ .nan) (hpos : 0 < length) (hlt : length < addressable) :
    (around position length).Hold length (clampTo length position.value) := by
  have hlast : ((length - 1 : Nat) : ℚ) = length - 1 := by
    rw [Nat.cast_sub hpos, Nat.cast_one]
  have hlast0 : (0 : ℚ) ≤ length - 1 := hlast ▸ Nat.cast_nonneg _
  rcases around_cases h hlt with ⟨hneg, heq⟩ | ⟨hnonneg, hbeyond, heq⟩ | ⟨hnonneg, hbetween, heq⟩
  · -- Before the first pixel.
    rw [heq]
    refine hold_end hpos ?_
    rw [clampTo, min_eq_left (hneg.le.trans hlast0), max_eq_left hneg.le, Nat.cast_zero]
  · -- From the last pixel on.
    rw [heq]
    refine hold_end (Nat.sub_lt hpos Nat.one_pos) ?_
    have hge : (length : ℚ) - 1 ≤ position.value := by
      rw [← hlast]
      exact (Nat.le_floor_iff hnonneg).mp hbeyond
    rw [clampTo, min_eq_right hge, max_eq_right hlast0, hlast]
  · -- Between two pixels.
    have hle : position.value ≤ length - 1 := by
      rw [← hlast]
      exact ((Nat.floor_lt hnonneg).mp hbetween).le
    rw [heq, clampTo, min_eq_left hle, max_eq_right hnonneg]
    exact hold_between h hnonneg hbetween hlt

/-- The largest number below one: the bits behind the point are all that it has. -/
def belowOne : Single := .number false (127 * 2 ^ 23 - 1) (by decide)

/-- Between the first two pixels of a row of four thousand millions. -/
theorem belowOne_holds_nearest :
    belowOne ≠ .nan ∧ 0 < 0xFFFFFFFF ∧ 0xFFFFFFFF < addressable ∧
      (around belowOne 0xFFFFFFFF).Hold 0xFFFFFFFF (clampTo 0xFFFFFFFF belowOne.value) := by
  have hnan : belowOne ≠ .nan := by decide
  have hpos : 0 < 0xFFFFFFFF := by decide
  have hlt : 0xFFFFFFFF < addressable := by decide
  exact ⟨hnan, hpos, hlt, holds_nearest hnan hpos hlt⟩

end Corners

end RegionPooling
