import Mathlib.Algebra.Order.Field.Power
import Mathlib.Data.Nat.Digits.Defs
import Mathlib.Tactic.NormNum
import RegionPooling.Decimal.Shortest
import RegionPooling.Proofs.Binary.Midpoint

/-!
# The values of decimals

A decimal stands for a rational number, `Decimal.value`. Its index in a format is that of the
nearest value (`Decimal.index_eq_nearest`), and as a binary number it is a rounding of its value
(`Decimal.isRounding_toBinary`).

`Decimal.leadingExponent` is what its name says: it gives the powers of ten that a ratio lies
between (`Decimal.leadingExponent_spec`).
-/

namespace RegionPooling.Decimal

/-- The number that a decimal stands for. -/
def value (d : Decimal) : ℚ := d.significand * 10 ^ d.exponent

theorem value_nonneg (d : Decimal) : 0 ≤ d.value := by
  unfold value
  positivity

/-- The next decimal with the same exponent. -/
theorem value_succ (n : Nat) (e : Int) : value ⟨n + 1, e⟩ = value ⟨n, e⟩ + 10 ^ e := by
  rw [value, value, Nat.cast_succ]
  ring

/-- Zeros at the end of the significand may be counted in the exponent. -/
theorem value_eq_of_significand {d : Decimal} {s t : Nat} (h : d.significand = s * 10 ^ t) :
    d.value = value ⟨s, d.exponent + t⟩ := by
  rw [value, value, h, zpow_add₀ (by norm_num), zpow_natCast]
  push_cast
  ring

theorem value_natCast (s k : Nat) : value ⟨s, (k : Int)⟩ = s * 10 ^ k := by
  rw [value, zpow_natCast]

theorem value_neg_natCast (s k : Nat) : value ⟨s, -(k : Int)⟩ = s / 10 ^ k := by
  rw [value, zpow_neg, zpow_natCast, div_eq_mul_inv]

/-- A whole number with one more zero, after the point. -/
theorem value_tenths (n : Nat) : value ⟨n * 10, -1⟩ = n := by
  rw [value, zpow_neg_one]
  push_cast
  ring

/-- An upper bound of a decimal is one of its power of ten. -/
theorem exponent_lt_of_value_lt {s : Nat} {e n : Int} (hs : 0 < s) (h : value ⟨s, e⟩ < 10 ^ n) :
    e < n := by
  have hone : (1 : ℚ) ≤ s := by exact_mod_cast hs
  have hlt : (10 : ℚ) ^ e < 10 ^ n := by
    calc (10 : ℚ) ^ e ≤ value ⟨s, e⟩ := le_mul_of_one_le_left (by positivity) hone
      _ < 10 ^ n := h
  exact (zpow_lt_zpow_iff_right₀ (by norm_num)).mp hlt

/-- A power of ten is a quotient of two natural ones, of which one is `1`. -/
theorem zpow_eq (e : Int) :
    (10 : ℚ) ^ e = ((10 ^ e.toNat : Nat) : ℚ) / ((10 ^ (-e).toNat : Nat) : ℚ) := by
  rcases le_total 0 e with h | h
  · obtain ⟨n, rfl⟩ := Int.eq_ofNat_of_zero_le h
    simp
  · obtain ⟨n, hn⟩ := Int.eq_ofNat_of_zero_le (Int.neg_nonneg_of_nonpos h)
    obtain rfl : e = -n := by omega
    simp

theorem index_eq_nearest (f : Format) (d : Decimal) : d.index f = f.nearest d.value := by
  have hden : 0 < 10 ^ (-d.exponent).toNat := Nat.pow_pos (by decide)
  refine f.nearestIndex_eq_nearest hden ?_
  have hne : ((10 ^ (-d.exponent).toNat : Nat) : ℚ) ≠ 0 := Nat.cast_ne_zero.mpr hden.ne'
  rw [value, zpow_eq, Nat.cast_mul, Nat.cast_mul]
  field_simp

/-- A decimal as a binary number is its value, rounded. -/
theorem isRounding_toBinary {f : Format} (s : Bool) (d : Decimal) :
    Binary.IsRounding ((if s then -1 else 1) * d.value) (d.toBinary s : Binary f) := by
  have hden : 0 < 10 ^ (-d.exponent).toNat := Nat.pow_pos (by decide)
  have hU := (Binary.unitsPerOne_pos f).ne'
  refine ⟨s, _, _, hden, rfl, ?_⟩
  have hne : ((10 ^ (-d.exponent).toNat : Nat) : ℚ) ≠ 0 := Nat.cast_ne_zero.mpr hden.ne'
  rw [value, zpow_eq]
  cases s
  · simp only [Binary.signed, Bool.false_eq_true, if_false, one_mul]
    push_cast
    field_simp
  · simp only [Binary.signed, if_true]
    push_cast
    field_simp

/-! ## The exponent of the first digit -/

/-- The digits of a number tell which powers of ten it lies between. -/
theorem toDigits_bounds {n : Nat} (h : 0 < n) :
    10 ^ ((Nat.toDigits 10 n).length - 1) ≤ n ∧ n < 10 ^ (Nat.toDigits 10 n).length := by
  have hpos : 0 < (Nat.toDigits 10 n).length := Nat.length_toDigits_pos
  refine ⟨?_, (Nat.length_toDigits_le_iff (by decide) hpos).mp (Nat.le_refl _)⟩
  by_contra hlt
  rcases Nat.eq_zero_or_pos ((Nat.toDigits 10 n).length - 1) with hone | hmore
  · rw [hone, Nat.pow_zero] at hlt
    omega
  · have := (Nat.length_toDigits_le_iff (by decide) hmore).mpr (Nat.lt_of_not_le hlt)
    omega

/-- The exponent of the first digit: the largest power of ten up to the ratio. -/
theorem leadingExponent_spec {num den : Nat} (hnum : 0 < num) (hden : 0 < den) :
    (10 : ℚ) ^ leadingExponent num den ≤ num / den ∧
      (num / den : ℚ) < 10 ^ (leadingExponent num den + 1) := by
  have hnum' : (0 : ℚ) < num := Nat.cast_pos.mpr hnum
  have hden' : (0 : ℚ) < den := Nat.cast_pos.mpr hden
  unfold leadingExponent
  split
  · -- The digits of the whole part.
    rename_i hle
    obtain ⟨hlower, hupper⟩ := toDigits_bounds (Nat.div_pos hle hden)
    have hpos : 0 < (Nat.toDigits 10 (num / den)).length := Nat.length_toDigits_pos
    generalize (Nat.toDigits 10 (num / den)).length = length at hlower hupper hpos
    rw [show (length : Int) - 1 = (length - 1 : Nat) by omega,
      show ((length - 1 : Nat) : Int) + 1 = length by omega, zpow_natCast, zpow_natCast]
    constructor
    · rw [le_div_iff₀ hden']
      exact_mod_cast (Nat.le_div_iff_mul_le hden).mp hlower
    · rw [div_lt_iff₀ hden']
      exact_mod_cast (Nat.div_lt_iff_lt_mul hden).mp hupper
  · -- The digits of the reciprocal, and so the zeros after the point.
    rename_i hlt
    have hquotient : 0 < (den - 1) / num := Nat.div_pos (by omega) hnum
    obtain ⟨hlower, hupper⟩ := toDigits_bounds hquotient
    have hpos : 0 < (Nat.toDigits 10 ((den - 1) / num)).length := Nat.length_toDigits_pos
    generalize (Nat.toDigits 10 ((den - 1) / num)).length = length at hlower hupper hpos
    have hlower := (Nat.le_div_iff_mul_le hnum).mp hlower
    have hupper := (Nat.div_lt_iff_lt_mul hnum).mp hupper
    rw [show -(length : Int) + 1 = -(length - 1 : Nat) by omega, zpow_neg, zpow_neg,
      zpow_natCast, zpow_natCast]
    constructor
    · rw [inv_le_comm₀ (by positivity) (by positivity), inv_div, div_le_iff₀ hnum']
      exact_mod_cast (show den ≤ 10 ^ length * num by omega)
    · rw [lt_inv_comm₀ (by positivity) (by positivity), inv_div, lt_div_iff₀ hnum']
      exact_mod_cast (show 10 ^ (length - 1) * num < den by omega)

end RegionPooling.Decimal
