import RegionPooling.Proofs.Binary.Order

/-!
# Distances

The distance of two numbers is the magnitude of their difference, rounded once. It does not depend
on which of the two comes first: the differences are opposite to each other, and rounding does not
care for the sign. It is never negative and never minus zero.

No distance is known of what is not a number, nor of an infinity to itself: then there is no number
as the result, also where the two operands are the same.

Main results:

* `Binary.abs_difference_comm` — the distance is symmetric.
* `Binary.abs_difference_self` — the distance of a number to itself.
-/

namespace RegionPooling.Binary

variable {f : Format} {x : Binary f}

/-! ## Magnitudes -/

theorem value_abs (x : Binary f) : x.abs.value = |x.value| := by
  cases x with
  | nan => exact abs_zero.symm
  | number s i hi =>
    rw [abs_value_number]
    simp [abs, value, signed]

theorem abs_value_nonneg (x : Binary f) : 0 ≤ x.abs.value := by
  rw [value_abs]
  exact abs_nonneg _

/-- A magnitude of zero has no sign. -/
theorem abs_eq_zero_of_value (hx : x.abs ≠ nan) (h : x.abs.value = 0) : x.abs = zero false := by
  obtain ⟨s, hs⟩ := exists_eq_zero hx h
  cases x with
  | nan => exact absurd rfl hx
  | number t i hi =>
    have hindex : i = 0 := by
      simp only [abs, zero, number.injEq] at hs
      exact hs.2
    subst hindex
    rfl

/-! ## Differences -/

theorem sub_nan (x : Binary f) : x - nan = nan := by
  cases x with
  | nan => rfl
  | number => rfl

/-- The magnitude of a sum of finite numbers: a sum of zero is no special case of it. -/
theorem abs_add_number {s t : Bool} {i j : Nat} {hi : i ≤ f.infinityIndex}
    {hj : j ≤ f.infinityIndex} (hi' : i ≠ f.infinityIndex) (hj' : j ≠ f.infinityIndex) :
    (add (number s i hi) (number t j hj)).abs =
      ofUnits false (signed s (f.units i) + signed t (f.units j)).natAbs 1 := by
  rw [add_number hi' hj']
  dsimp only
  split
  · rename_i hzero
    rw [hzero, Int.natAbs_zero, ofUnits_zero]
    rfl
  · rfl

theorem signed_not (s : Bool) (n : Nat) : signed (!s) n = -signed s n := by
  cases s
  · rfl
  · exact (Int.neg_neg _).symm

/-- Two numbers are as far apart the one way as the other. -/
theorem abs_difference_comm (x y : Binary f) : (x - y).abs = (y - x).abs := by
  cases x with
  | nan => rw [sub_nan]; rfl
  | number s i hi =>
    cases y with
    | nan => rw [sub_nan]; rfl
    | number t j hj =>
      show (add (number s i hi) (number (!t) j hj)).abs = (add (number t j hj) (number (!s) i hi)).abs
      by_cases hi' : i = f.infinityIndex
      · by_cases hj' : j = f.infinityIndex
        · -- Both are infinite: there is a distance only of opposite ones.
          have hsign : s ≠ !t ↔ t ≠ !s := by cases s <;> cases t <;> decide
          simp only [add, hi', hj', if_true, true_and, hsign]
          split
          · rfl
          · rfl
        · simp only [add, hi', hj', if_true, if_false, false_and]
          rfl
      · by_cases hj' : j = f.infinityIndex
        · simp only [add, hi', hj', if_true, if_false, false_and]
          rfl
        · -- The sums of units are opposite to each other.
          rw [abs_add_number hi' hj', abs_add_number hj' hi', signed_not, signed_not]
          congr 1
          omega

/-- A finite number has no distance to itself, and anything else none that is a number. -/
theorem abs_difference_self (x : Binary f) : (x - x).abs = if x.isFinite then zero false else nan := by
  by_cases hfinite : x.isFinite = true
  · obtain ⟨s, i, hi, rfl, hi'⟩ := exists_eq_number hfinite
    rw [if_pos hfinite]
    show (add (number s i hi) (number (!s) i hi)).abs = _
    rw [abs_add_number hi' hi', signed_not, Int.add_right_neg, Int.natAbs_zero, ofUnits_zero]
  · rw [if_neg hfinite]
    cases x with
    | nan => rfl
    | number s i hi =>
      obtain ⟨t, ht⟩ := exists_eq_infinity (by simp) hfinite
      rw [ht]
      -- An infinity and its opposite have no sum.
      show (add (infinity t) (infinity (!t))).abs = _
      simp [add, infinity, abs]

end RegionPooling.Binary
