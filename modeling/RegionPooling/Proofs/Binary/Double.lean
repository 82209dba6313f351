import Mathlib.Tactic.NormNum
import RegionPooling.Proofs.Binary.Midpoint
import RegionPooling.Proofs.Binary.Operations

/-!
# Eight-byte numbers

What numerals need to know of the format of eight bytes: which numbers are exact in it, how
large the relative error of a result is, and where conversion to another format leads.

Main results:

* `Double.exists_value_eq` — numbers of at most 53 bits are values of the format.
* `Double.relative_error` — results that are neither tiny nor huge are off by a part in `2 ^ 53`.
* `Binary.convert_number` — conversion goes to the nearest value.
-/

namespace RegionPooling

/-! ## Conversion -/

/-- Conversion of a finite number goes to the nearest value of the other format. -/
theorem Binary.convert_number {f g : Format} {s : Bool} {i : Nat} (h : i ≤ f.infinityIndex)
    (hi : i ≠ f.infinityIndex) : ∃ h', ((number s i h : Binary f).convert : Binary g) =
      number s (g.nearest (f.units i / f.unitsPerOne)) h' := by
  have hpos : 0 < 2 ^ f.unitExponent := Nat.pow_pos (by decide)
  have hindex : g.nearestIndex (f.significand i * 2 ^ (f.doublings i + g.unitExponent))
      (2 ^ f.unitExponent) = g.nearest (f.units i / f.unitsPerOne) := by
    refine g.nearestIndex_eq_nearest hpos ?_
    have hU := (unitsPerOne_pos f).ne'
    rw [show (2 ^ f.unitExponent : Nat) = f.unitsPerOne from rfl, Format.units, Nat.pow_add,
      show (2 ^ g.unitExponent : Nat) = g.unitsPerOne from rfl]
    push_cast
    field_simp
  refine ⟨hindex ▸ g.nearestIndex_le .., ?_⟩
  simp only [convert, if_neg hi, ofScaled_eq, ofUnits, hindex]

namespace Double

open Binary (IsRounding)

/-! ## Constants -/

theorem fractions_eq : (Format.double.fractions : ℚ) = 2 ^ 52 := by
  rw [Format.fractions, Nat.cast_pow, Nat.cast_ofNat]
  rfl

theorem unitsPerOne_eq : (Format.double.unitsPerOne : ℚ) = 2 ^ 1074 := by
  rw [Format.unitsPerOne, Nat.cast_pow, Nat.cast_ofNat]
  rfl

theorem limit_eq : Format.double.limit = 2 ^ 1024 := by
  have hindex : Format.double.infinityIndex = 2046 * Format.double.fractions + 2 ^ 52 := rfl
  have hunits := Format.double.units_shift 2046 (n := 2 ^ 52) (by decide)
    (Or.inr (Nat.le_refl _))
  have hsplit : (2 : ℚ) ^ 52 * 2 ^ 2046 = 2 ^ 1024 * 2 ^ 1074 := by
    rw [← pow_add, ← pow_add]
  rw [Format.limit, hindex, hunits, unitsPerOne_eq, Nat.cast_mul, Nat.cast_pow, Nat.cast_pow,
    Nat.cast_ofNat, hsplit, mul_div_cancel_right₀ _ (by positivity)]

/-! ## Exact numbers -/

/-- Numbers of at most 53 bits, doubled or halved, are values of the format. -/
theorem exists_value_eq {m up down : Nat} (hm : m ≤ 2 ^ 53) (hup : up ≤ 900) (hdown : down ≤ 1074) :
    ∃ y : Double, y.isFinite = true ∧ y.value = m * 2 ^ up / 2 ^ down := by
  have hvalue : ((m * 2 ^ (up + (1074 - down)) : Nat) : ℚ) / Format.double.unitsPerOne =
      m * 2 ^ up / 2 ^ down := by
    have hsplit : (2 : ℚ) ^ 1074 = 2 ^ (1074 - down) * 2 ^ down := by
      rw [← pow_add]
      congr 1
      omega
    rw [unitsPerOne_eq, hsplit, pow_add, Nat.cast_mul, Nat.cast_mul, Nat.cast_pow, Nat.cast_pow,
      Nat.cast_ofNat]
    field_simp
  have hlimit : ((m * 2 ^ (up + (1074 - down)) : Nat) : ℚ) / Format.double.unitsPerOne <
      Format.double.limit := by
    have hone : (1 : ℚ) ≤ 2 ^ down := one_le_pow₀ (by norm_num)
    have hm : (m : ℚ) ≤ 2 ^ 53 := by exact_mod_cast hm
    rw [hvalue, limit_eq]
    calc (m : ℚ) * 2 ^ up / 2 ^ down ≤ m * 2 ^ up := div_le_self (by positivity) hone
      _ ≤ 2 ^ 53 * 2 ^ 900 := by
          gcongr
          norm_num
      _ = 2 ^ 953 := by rw [← pow_add]
      _ < 2 ^ 1024 := pow_lt_pow_right₀ (by norm_num) (by omega)
  obtain ⟨y, hy, heq⟩ := Binary.exists_value_eq hm _ hlimit false
  refine ⟨y, hy, ?_⟩
  rw [← hvalue, heq]
  rfl

/-- A result that could be exact is exact. -/
theorem exact_of_isRounding {q : ℚ} {x : Double} (h : IsRounding q x) {m up down : Nat}
    (hm : m ≤ 2 ^ 53) (hup : up ≤ 900) (hdown : down ≤ 1074) (hq : q = m * 2 ^ up / 2 ^ down) :
    x.isFinite = true ∧ x.value = q := by
  obtain ⟨y, hy, hvalue⟩ := exists_value_eq hm hup hdown
  have hqy : q = y.value := by rw [hq, hvalue]
  exact ⟨h.isFinite_of_abs_le hy (by rw [hqy]), h.value_eq (Binary.ne_nan_of_isFinite hy) hqy⟩

theorem ofNat_exact {n : Nat} (hn : n ≤ 2 ^ 53) :
    (Binary.ofNat n : Double).isFinite = true ∧ (Binary.ofNat n : Double).value = n :=
  exact_of_isRounding (Binary.isRounding_ofNat n) hn (Nat.zero_le 900) (Nat.zero_le 1074) (by simp)

/-! ## Errors -/

/-- Results that are neither tiny nor huge have a small relative error. -/
theorem relative_error {q : ℚ} {x : Double} (h : IsRounding q x) (hlow : 1 / 2 ^ 250 ≤ |q|)
    (hhigh : |q| ≤ 2 ^ 250) : x.isFinite = true ∧ |x.value - q| ≤ |q| / 2 ^ 53 := by
  obtain ⟨y, hy, hvalue⟩ := exists_value_eq (m := 1) (by decide) (show 250 ≤ 900 by decide)
    (Nat.zero_le 1074)
  have hy250 : y.value = 2 ^ 250 := by rw [hvalue, Nat.cast_one, one_mul, pow_zero, div_one]
  have hfinite : x.isFinite = true :=
    h.isFinite_of_abs_le hy (hhigh.trans (hy250 ▸ le_abs_self _))
  refine ⟨hfinite, ?_⟩
  have hdouble : 2 * (2 : ℚ) ^ 52 = 2 ^ 53 := by rw [← pow_succ']
  rcases h.error_cases hfinite with hcase | ⟨hsmall, -⟩
  · rwa [fractions_eq, hdouble] at hcase
  · -- So small a result would be among the smallest numbers of the format.
    exfalso
    rw [fractions_eq, hdouble, unitsPerOne_eq] at hsmall
    have hlt : (2 : ℚ) ^ 53 / 2 ^ 1074 < 1 / 2 ^ 250 := by
      rw [div_lt_div_iff₀ (by positivity) (by positivity), one_mul, ← pow_add]
      exact pow_lt_pow_right₀ (by norm_num) (by omega)
    exact absurd (hlow.trans_lt hsmall) (not_lt.mpr hlt.le)

end Double

end RegionPooling
