import RegionPooling.Proofs.Binary.Value

/-!
# Operations on values

Every operation on finite numbers rounds the exact result of the operation on their values.
This module says so for sums, differences, products, quotients and whole numbers.

Main results:

* `Binary.isRounding_add`, `isRounding_sub`, `isRounding_mul`, `isRounding_div`,
  `isRounding_ofNat`, `isRounding_ofInt`.
* `Binary.add_error` — sums of finite numbers lose no more than a relative error.
-/

namespace RegionPooling.Binary

variable {f : Format}

/-! ## Signs -/

theorem signed_mul (s t : Bool) (a b : Nat) :
    signed s a * signed t b = signed (s != t) (a * b) := by
  cases s <;> cases t <;> simp [signed]

theorem signed_mul_natCast (s : Bool) (a b : Nat) : signed s (a * b) = signed s a * (b : Int) := by
  cases s <;> simp [signed]

theorem signed_sign (n : Int) : signed (decide (n < 0)) n.natAbs = n := by
  unfold signed
  by_cases h : n < 0
  · simp only [h, decide_true, if_true]
    omega
  · simp only [h, decide_false, Bool.false_eq_true, if_false]
    omega

/-! ## Arithmetic -/

/-- What a finite number is. -/
theorem exists_eq_number {x : Binary f} (h : x.isFinite = true) :
    ∃ (s : Bool) (i : Nat) (hi : i ≤ f.infinityIndex), x = number s i hi ∧ i ≠ f.infinityIndex := by
  cases x with
  | nan => cases h
  | number s i hi =>
    have hlt : i < f.infinityIndex := by simpa [isFinite] using h
    exact ⟨s, i, hi, rfl, by omega⟩

/-- A positive value has no sign. -/
theorem negative_eq_false {s : Bool} {i : Nat} {hi : i ≤ f.infinityIndex}
    (h : 0 < (number s i hi : Binary f).value) : s = false := by
  cases s with
  | false => rfl
  | true =>
    have hnonneg : (0 : ℚ) ≤ f.units i / f.unitsPerOne := by positivity
    have hneg : (number true i hi : Binary f).value = -(f.units i / f.unitsPerOne) := by
      simp [value, signed, neg_div]
    linarith

/-- A number that is not finite is an infinity. -/
theorem exists_eq_infinity {x : Binary f} (hx : x ≠ nan) (hfinite : ¬ x.isFinite = true) :
    ∃ s, x = infinity s := by
  cases x with
  | nan => exact absurd rfl hx
  | number s i hi =>
    have hnot : ¬ i < f.infinityIndex := by simpa [isFinite] using hfinite
    obtain rfl : i = f.infinityIndex := by omega
    exact ⟨s, rfl⟩

/-- Of the infinities, the sign of the value tells which one it is. -/
theorem eq_infinity {x : Binary f} (hx : x ≠ nan) (hfinite : ¬ x.isFinite = true)
    (h : 0 ≤ x.value) : x = infinity false := by
  obtain ⟨s, rfl⟩ := exists_eq_infinity hx hfinite
  cases s with
  | false => rfl
  | true =>
    rw [value_infinity, if_pos rfl] at h
    linarith [limit_pos f]

theorem infinity_div {s : Bool} {y : Binary f} (hy : y.isFinite = true) (h : 0 < y.value) :
    infinity s / y = infinity s := by
  obtain ⟨t, j, hj, rfl, hj'⟩ := exists_eq_number hy
  rw [negative_eq_false h]
  show div (number s _ _) _ = _
  simp only [div, if_true, hj', if_false, Bool.bne_false]

/-- The sum of two finite numbers, before it is rounded, is a whole number of units. -/
theorem isRounding_add_units {x y : Binary f} (hx : x.isFinite = true) (hy : y.isFinite = true) :
    IsRounding (x.value + y.value) (x + y) ∧
      ∃ n : Int, x.value + y.value = signed (decide (n < 0)) n.natAbs / f.unitsPerOne := by
  obtain ⟨s, i, hi, rfl, hi'⟩ := exists_eq_number hx
  obtain ⟨t, j, hj, rfl, hj'⟩ := exists_eq_number hy
  have hsum : (number s i hi : Binary f).value + (number t j hj : Binary f).value =
      (signed s (f.units i) + signed t (f.units j) : Int) / f.unitsPerOne := by
    rw [value_number, value_number, ← add_div, Int.cast_add]
  rw [hsum, show (number s i hi + number t j hj : Binary f) = add _ _ from rfl,
    add_number hi' hj']
  generalize signed s (f.units i) + signed t (f.units j) = sum
  refine ⟨?_, sum, by rw [signed_sign]⟩
  -- A sum of zero has its own rule for the sign.
  by_cases hzero : sum = 0
  · refine ⟨s && t, 0, 1, Nat.one_pos, ?_, ?_⟩
    · simp only [hzero, if_true, ofUnits_zero]
    · cases hst : s && t <;> simp [hzero, signed]
  · refine ⟨decide (sum < 0), sum.natAbs, 1, Nat.one_pos, ?_, ?_⟩
    · simp only [hzero, if_false]
    · rw [signed_sign, Nat.cast_one, div_one]

theorem isRounding_add {x y : Binary f} (hx : x.isFinite = true) (hy : y.isFinite = true) :
    IsRounding (x.value + y.value) (x + y) :=
  (isRounding_add_units hx hy).1

/-- A finite sum is off by half of its last bit at most, however small it is. -/
theorem add_error {x y : Binary f} (hx : x.isFinite = true) (hy : y.isFinite = true)
    (hsum : (x + y).isFinite = true) :
    |(x + y).value - (x.value + y.value)| ≤ |x.value + y.value| / (2 * f.fractions) := by
  obtain ⟨hrounding, n, hn⟩ := isRounding_add_units hx hy
  exact hrounding.error_of_units hsum hn

theorem isFinite_neg {x : Binary f} (h : x.isFinite = true) : x.neg.isFinite = true := by
  obtain ⟨s, i, hi, rfl, hi'⟩ := exists_eq_number h
  simpa [neg, isFinite] using h

theorem isRounding_sub {x y : Binary f} (hx : x.isFinite = true) (hy : y.isFinite = true) :
    IsRounding (x.value - y.value) (x - y) := by
  have h := isRounding_add hx (isFinite_neg hy)
  rwa [value_neg, ← sub_eq_add_neg] at h

theorem isRounding_mul {x y : Binary f} (hx : x.isFinite = true) (hy : y.isFinite = true) :
    IsRounding (x.value * y.value) (x * y) := by
  obtain ⟨s, i, hi, rfl, hi'⟩ := exists_eq_number hx
  obtain ⟨t, j, hj, rfl, hj'⟩ := exists_eq_number hy
  refine ⟨s != t, f.units i * f.units j, f.unitsPerOne, f.unitsPerOne_pos, mul_number hi' hj', ?_⟩
  rw [← signed_mul, value_number, value_number, Int.cast_mul, div_mul_div_comm, div_div]

theorem isRounding_div {x y : Binary f} (hx : x.isFinite = true) (hy : y.isFinite = true)
    (hne : y.value ≠ 0) : IsRounding (x.value / y.value) (x / y) := by
  obtain ⟨s, i, hi, rfl, hi'⟩ := exists_eq_number hx
  obtain ⟨t, j, hj, rfl, hj'⟩ := exists_eq_number hy
  have hj0 : j ≠ 0 := by
    rintro rfl
    exact hne (value_zero t)
  have hunits : 0 < f.units j := by
    rw [← f.units_zero]
    exact f.units_strictMono (Nat.pos_of_ne_zero hj0)
  -- A quotient of units is no number of units, so the unit is a factor of the numerator.
  refine ⟨s != t, f.units i * f.unitsPerOne, f.units j, hunits, ?_, ?_⟩
  · show div _ _ = _
    simp only [div, hi', hj', hj0, if_false]
  · have hU := (unitsPerOne_pos f).ne'
    have hunits' : (f.units j : ℚ) ≠ 0 := Nat.cast_ne_zero.mpr hunits.ne'
    rw [value_number, value_number]
    cases s <;> cases t <;> simp [signed] <;> field_simp

theorem isRounding_ofInt (n : Int) : IsRounding (n : ℚ) (ofInt n : Binary f) := by
  refine ⟨decide (n < 0), n.natAbs * 2 ^ f.unitExponent, 1, Nat.one_pos, ?_, ?_⟩
  · rw [ofInt, ofScaled_eq, Nat.pow_zero]
  · have hU := (unitsPerOne_pos f).ne'
    have hsigned : signed (decide (n < 0)) (n.natAbs * 2 ^ f.unitExponent) =
        n * (f.unitsPerOne : Int) := by
      rw [signed_mul_natCast, signed_sign, Format.unitsPerOne]
    rw [hsigned, Nat.cast_one, div_one, Int.cast_mul, Int.cast_natCast, mul_div_cancel_right₀ _ hU]

theorem ofNat_eq_ofInt (n : Nat) : (ofNat n : Binary f) = ofInt n := by
  rw [ofNat, ofInt, Int.natAbs_natCast]
  congr 1

theorem isRounding_ofNat (n : Nat) : IsRounding (n : ℚ) (ofNat n : Binary f) := by
  rw [ofNat_eq_ofInt]
  exact_mod_cast isRounding_ofInt (f := f) (n : Int)

end RegionPooling.Binary
