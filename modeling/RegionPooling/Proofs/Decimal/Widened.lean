import RegionPooling.Proofs.Binary.Conversion
import RegionPooling.Proofs.Decimal.Reading

/-!
# Decimals of widened numbers

A four-byte number that is widened to eight bytes has a longer shortest decimal than before, of up
to eighteen digits. Not all of these decimals are read back as the eight-byte number they came
from, as the significand, the power of ten and their product are each rounded on the way. But the
four roundings together miss the number by a few parts in `2 ^ 51`, and the four-byte numbers next
to it are a part in `2 ^ 24` away, so that the way back to four bytes ends where it began.

Main results:

* `Decimal.exists_scale` — what is read of a decimal whose significand fits a machine word.
* `Single.widened_reads_back` — any decimal with the value of the shortest one is read back.
-/

namespace RegionPooling

namespace Decimal

open Binary (IsRounding)

/-! ## Reading a long significand -/

/-- The error of the significand and that of the scaling, put together. -/
theorem add_error {q r y : ℚ} (hq : 0 < q) (hr : |r - q| ≤ q / 2 ^ 53)
    (hy : |y - r| ≤ (2 ^ 10 + 1) / 2 ^ 62 * r) : |y - q| ≤ q / 2 ^ 51 := by
  obtain ⟨hlower, hupper⟩ := abs_le.mp hr
  obtain ⟨hlower', hupper'⟩ := abs_le.mp hy
  rw [abs_le]
  constructor
  · linarith
  · linarith

/-- What is off by a small part is at least half and at most double. -/
theorem half_le_and_le_double {q r : ℚ} (hq : 0 < q) (h : |r - q| ≤ q / 2 ^ 53) :
    q / 2 ≤ r ∧ r ≤ 2 * q := by
  obtain ⟨hlower, hupper⟩ := abs_le.mp h
  constructor
  · linarith
  · linarith

/-- A significand of up to sixty-four bits, rounded. -/
theorem ofNat_error {s : Nat} (hs : 0 < s) (hword : s ≤ 2 ^ 64) :
    (Binary.ofNat s : Double).isFinite = true ∧
      |(Binary.ofNat s : Double).value - s| ≤ s / 2 ^ 53 := by
  have hone : (1 : ℚ) ≤ s := by exact_mod_cast hs
  have hword : (s : ℚ) ≤ 2 ^ 64 := by exact_mod_cast hword
  exact error_of_pos (Binary.isRounding_ofNat s) (le_trans (by norm_num) hone)
    (hword.trans (by norm_num))

section Scale

variable {s k : Nat}

theorem exists_scale_mul (hs : 0 < s) (hword : s ≤ 2 ^ 64) (hk : k ≤ 70)
    (hlow : 1 / 2 ^ 200 ≤ (s * 10 ^ k : ℚ)) (hhigh : (s * 10 ^ k : ℚ) ≤ 2 ^ 200) :
    ∃ y, Numeral.scale (Binary.ofNat s) k = some y ∧ y.isFinite = true ∧
      |y.value - s * 10 ^ k| ≤ s * 10 ^ k / 2 ^ 51 := by
  have hspos : (0 : ℚ) < s := Nat.cast_pos.mpr hs
  have hppos : (0 : ℚ) < 10 ^ k := by positivity
  obtain ⟨hfinite, herror⟩ := ofNat_error hs hword
  obtain ⟨hpower, hten, -⟩ := tenPower_error hk
  obtain ⟨hslow, hshigh⟩ := half_le_and_le_double hspos herror
  obtain ⟨htlow, hthigh⟩ := half_le_and_le_double hppos hten
  have hrounding := Binary.isRounding_mul hfinite hpower
  generalize (Binary.ofNat s : Double).value = a at *
  generalize (Numeral.tenPower k).value = t at *
  have hapos : 0 < a := by linarith
  have htpos : 0 < t := by linarith
  -- Each factor is off by less than a half, so the product stays where the error is relative.
  have hbelow : (s : ℚ) / 2 * (10 ^ k / 2) ≤ a * t :=
    mul_le_mul hslow htlow (by positivity) hapos.le
  have habove : a * t ≤ 2 * s * (2 * 10 ^ k) := mul_le_mul hshigh hthigh htpos.le (by positivity)
  obtain ⟨hfinite', herror'⟩ := error_of_pos hrounding (by linarith) (by linarith)
  have hsignificand : |a * 10 ^ k - s * 10 ^ k| ≤ s * 10 ^ k / 2 ^ 53 := by
    rw [← sub_mul, abs_mul, abs_of_pos hppos, mul_div_right_comm]
    exact mul_le_mul_of_nonneg_right herror hppos.le
  exact ⟨_, scale_natCast (hk.trans (by decide)) hfinite', hfinite',
    add_error (mul_pos hspos hppos) hsignificand (mul_error hapos hppos hten herror')⟩

theorem exists_scale_div (hs : 0 < s) (hword : s ≤ 2 ^ 64) (hk : k ≤ 70) (hk0 : k ≠ 0)
    (hlow : 1 / 2 ^ 200 ≤ (s / 10 ^ k : ℚ)) (hhigh : (s / 10 ^ k : ℚ) ≤ 2 ^ 200) :
    ∃ y, Numeral.scale (Binary.ofNat s) (-k) = some y ∧ y.isFinite = true ∧
      |y.value - s / 10 ^ k| ≤ s / 10 ^ k / 2 ^ 51 := by
  have hspos : (0 : ℚ) < s := Nat.cast_pos.mpr hs
  have hppos : (0 : ℚ) < 10 ^ k := by positivity
  obtain ⟨hfinite, herror⟩ := ofNat_error hs hword
  obtain ⟨hpower, hten, -⟩ := tenPower_error hk
  obtain ⟨hslow, hshigh⟩ := half_le_and_le_double hspos herror
  obtain ⟨htlow, hthigh⟩ := half_le_and_le_double hppos hten
  have htpos : 0 < (Numeral.tenPower k).value := by linarith
  have hrounding := Binary.isRounding_div hfinite hpower htpos.ne'
  generalize (Binary.ofNat s : Double).value = a at *
  generalize (Numeral.tenPower k).value = t at *
  have hapos : 0 < a := by linarith
  have hquarter : (s : ℚ) / 2 / (2 * 10 ^ k) = s / 10 ^ k / 4 := by
    field_simp
    norm_num
  have hfourfold : 2 * (s : ℚ) / (10 ^ k / 2) = 4 * (s / 10 ^ k) := by
    field_simp
    norm_num
  have hbelow : (s : ℚ) / 2 / (2 * 10 ^ k) ≤ a / t :=
    div_le_div₀ hapos.le hslow htpos hthigh
  have habove : a / t ≤ 2 * s / (10 ^ k / 2) :=
    div_le_div₀ (by positivity) hshigh (by positivity) htlow
  obtain ⟨hfinite', herror'⟩ := error_of_pos hrounding (by linarith) (by linarith)
  have hsignificand : |a / 10 ^ k - s / 10 ^ k| ≤ s / 10 ^ k / 2 ^ 53 := by
    rw [← sub_div, abs_div, abs_of_pos hppos, div_right_comm]
    exact div_le_div_of_nonneg_right herror hppos.le
  exact ⟨_, scale_neg_natCast _ (hk.trans (by decide)) hk0, hfinite',
    add_error (div_pos hspos hppos) hsignificand (div_error hapos hppos hten herror')⟩

end Scale

/-- A decimal that is neither tiny nor huge is read as a number close to it, also where its
significand has more bits than an eight-byte number. -/
theorem exists_scale {s : Nat} {e : Int} (hs : 0 < s) (hword : s ≤ 2 ^ 64) (he : e.natAbs ≤ 70)
    (hlow : 1 / 2 ^ 200 ≤ value ⟨s, e⟩) (hhigh : value ⟨s, e⟩ ≤ 2 ^ 200) :
    ∃ y, Numeral.scale (Binary.ofNat s) e = some y ∧ y.isFinite = true ∧
      |y.value - value ⟨s, e⟩| ≤ value ⟨s, e⟩ / 2 ^ 51 := by
  obtain ⟨k, hk, rfl | ⟨rfl, hk0⟩⟩ : ∃ k : Nat, k ≤ 70 ∧ (e = k ∨ e = -k ∧ k ≠ 0) :=
    ⟨e.natAbs, by omega, by omega⟩
  · rw [value_natCast] at hlow hhigh ⊢
    exact exists_scale_mul hs hword hk hlow hhigh
  · rw [value_neg_natCast] at hlow hhigh ⊢
    exact exists_scale_div hs hword hk hk0 hlow hhigh

end Decimal

/-! ## The shortest decimal of a widened number -/

namespace Single

open Format (double single valueAt)

variable {i j : Nat}

/-- The place of a four-byte number among the eight-byte ones. -/
theorem exists_widened_index (hi : i + 1 < single.infinityIndex) (negative : Bool) :
    ∃ j h, ((.number negative (i + 1) hi.le : Single).convert : Double) =
        .number negative (j + 1) h ∧
      j + 1 < double.infinityIndex ∧ double.valueAt (j + 1) = single.valueAt (i + 1) := by
  have hfinite : (.number false (i + 1) hi.le : Single).isFinite = true := decide_eq_true hi
  obtain ⟨y, hy, hvalue⟩ := exists_double_value_eq hfinite
  obtain ⟨t, j, hj, rfl, hne⟩ := Binary.exists_eq_number hy
  have hpos : 0 < single.valueAt (i + 1) := by
    have hunits : (0 : ℚ) < single.units (i + 1) := Nat.cast_pos.mpr (single.units_succ_pos i)
    exact div_pos hunits (Binary.unitsPerOne_pos single)
  have hvalue' : (.number false (i + 1) hi.le : Single).value = single.valueAt (i + 1) := rfl
  rw [hvalue'] at hvalue
  obtain rfl := Binary.negative_eq_false (hvalue ▸ hpos)
  have hsame : double.valueAt j = single.valueAt (i + 1) := hvalue
  -- Conversion finds the index by its value.
  obtain ⟨h, hconvert⟩ := Binary.convert_number (g := double) (s := negative) hi.le hi.ne
  have hindex : double.nearest (single.units (i + 1) / single.unitsPerOne) = j := by
    have hnearest := double.nearest_units hj
    rwa [show (double.units j / double.unitsPerOne : ℚ) =
      single.units (i + 1) / single.unitsPerOne from hsame] at hnearest
  cases j with
  | zero =>
    have hzero : double.valueAt 0 = 0 := by
      rw [valueAt, double.units_zero, Nat.cast_zero, zero_div]
    rw [← hsame, hzero] at hpos
    exact absurd hpos (lt_irrefl 0)
  | succ j =>
    refine ⟨j, hj, ?_, lt_of_le_of_ne hj hne, hsame⟩
    simp only [hconvert, hindex]

/-- What is known of the shortest decimal of a widened number. -/
structure WidenedDecimal (i : Nat) (d : Decimal) : Prop where
  significand_pos : 0 < d.significand
  significand_le : d.significand ≤ 10 ^ 18
  exponent : -62 ≤ d.exponent
  value_low : (1 : ℚ) / 2 ^ 200 ≤ d.value
  value_high : d.value < 10 ^ (40 : Int)
  near : |d.value - single.valueAt (i + 1)| ≤ single.valueAt (i + 1) / 2 ^ 52

theorem widenedDecimal_shortest (tie : Tie) (hi : i + 1 < single.infinityIndex)
    (hj : j + 1 < double.infinityIndex)
    (hvalue : double.valueAt (j + 1) = single.valueAt (i + 1)) :
    WidenedDecimal i (double.shortestDecimal tie (j + 1)) := by
  have henough : double.enoughDigits = 18 := rfl
  obtain ⟨hexponent, hsignificand, lower, hlower, hneighbour⟩ :=
    double.shortestDecimal_spec_of_fine tie hj ⟨17, by decide, by decide⟩
  have hspos := double.shortestDecimal_significand_pos tie j
  generalize double.shortestDecimal tie (j + 1) = d at *
  obtain ⟨hbelow, habove⟩ := hneighbour.value_bounds hlower
  rw [hvalue] at hbelow habove
  obtain ⟨hlow, hhigh⟩ := valueAt_bounds hi
  -- No number is below `10 ^ -45`, and eighteen digits reach seventeen places further down.
  have hleading : -45 ≤ Decimal.leadingExponent (double.units (j + 1)) double.unitsPerOne := by
    have hupper := (Decimal.leadingExponent_spec (double.units_succ_pos j)
      double.unitsPerOne_pos).2
    have hpower := lt_of_le_of_lt (hlow.trans_eq hvalue.symm) hupper
    have := (zpow_lt_zpow_iff_right₀ (by norm_num)).mp hpower
    omega
  have hvalueLow : (1 : ℚ) / 2 ^ 200 ≤ d.value := by
    have hlow : (2 : ℚ) * (1 / 2 ^ 200) ≤ single.valueAt (i + 1) := le_trans (by norm_num) hlow
    linarith
  have hvalueHigh : d.value < 10 ^ (40 : Int) := by
    have hhigh : 2 * single.valueAt (i + 1) < 2 * 10 ^ (39 : Int) := by linarith
    exact habove.trans_lt (hhigh.trans (by norm_num))
  have hvpos : 0 < d.value := lt_of_lt_of_le (by positivity) hvalueLow
  rw [henough] at hexponent hsignificand
  refine ⟨hspos, hsignificand, by omega, hvalueLow, hvalueHigh, ?_⟩
  -- The decimal is read as the number, so the number is the decimal, rounded.
  have hrounding := Decimal.isRounding_toBinary (f := .double) false d
  have hbinary : (d.toBinary false : Double).value = single.valueAt (i + 1) := by
    rw [← hvalue, Decimal.toBinary]
    simp only [hneighbour.reads]
    rfl
  have hsign : (if false = true then -1 else 1) * d.value = d.value := by simp
  rw [hsign] at hrounding
  have herror := (Decimal.error_of_pos hrounding (le_trans (by norm_num) hvalueLow)
    (hvalueHigh.le.trans (by norm_num))).2
  rw [hbinary] at herror
  rw [abs_sub_comm]
  linarith

/-- Any decimal with the value of the shortest one is read as an eight-byte number that is rounded
to the four-byte number it came from. -/
theorem widened_reads_back (hi : i + 1 < single.infinityIndex) {d : Decimal}
    (h : WidenedDecimal i d) {s : Nat} {e : Int} (hs : 0 < s) (hword : s ≤ 2 ^ 64)
    (he : e.natAbs ≤ 70) (hvalue : Decimal.value ⟨s, e⟩ = d.value) :
    ∃ y, Numeral.scale (Binary.ofNat s) e = some y ∧
      ∃ h, (y.convert : Single) = .number false (i + 1) h := by
  have hhigh : d.value ≤ 2 ^ 200 := h.value_high.le.trans (by norm_num)
  obtain ⟨y, hscale, hfinite, herror⟩ := Decimal.exists_scale hs hword he
    (hvalue ▸ h.value_low) (hvalue ▸ hhigh)
  rw [hvalue] at herror
  have hvpos : 0 < d.value := lt_of_lt_of_le (by positivity) h.value_low
  obtain ⟨hlower, hupper⟩ := abs_le.mp herror
  obtain ⟨hnearLower, hnearUpper⟩ := abs_le.mp h.near
  have hypos : 0 < y.value := by linarith
  -- Both errors together are far less than half a step of the four-byte numbers.
  have hnearest : single.nearest y.value = i + 1 := by
    have hstep := step_pos i
    have hrange := valueAt_succ_le i
    refine single.nearest_of_near hi ?_
    rw [← step_eq, abs_lt]
    constructor
    · linarith
    · linarith
  obtain ⟨hindex, hconvert⟩ := Decimal.convert_eq hfinite hypos
  refine ⟨y, hscale, hi.le, ?_⟩
  simp only [hconvert, hnearest]

end Single

end RegionPooling
