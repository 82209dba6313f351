import RegionPooling.Proofs.Binary.Single
import RegionPooling.Pooling.Axis
import RegionPooling.Shape

/-!
# Axes and walks

What holds of the samples along one axis for any region, also for one whose coordinates are
infinite or no numbers.

Main results:

* `Axis.one_le_ratio` — at least one sample is announced for each bin.
* `lt_of_mem_walk` — every position of a walk lies below its end, so it is a number.
-/

namespace RegionPooling

open Binary (IsRounding)

/-! ## Walks -/

theorem lt_of_mem_walkFrom {stop step position p : Single}
    (h : p ∈ walkFrom stop step position) : p < stop := by
  fun_induction walkFrom stop step position with
  | case1 position hlt next ih =>
    rcases List.mem_cons.mp h with rfl | hrest
    · exact hlt
    · by_cases hnext : position < next
      · rw [if_pos hnext] at hrest
        exact ih hnext hrest
      · rw [if_neg hnext] at hrest
        exact absurd hrest List.not_mem_nil
  | case2 position hlt => exact absurd h List.not_mem_nil

theorem lt_of_mem_walk {start stop step p : Single} (h : p ∈ walk start stop step) : p < stop :=
  lt_of_mem_walkFrom h

theorem ne_nan_of_mem_walk {start stop step p : Single} (h : p ∈ walk start stop step) :
    p ≠ .nan := by
  rintro rfl
  exact Binary.not_nan_lt _ (lt_of_mem_walk h)

/-! ## Ratios -/

namespace Axis

/-- The length of a region is at least one pixel, whatever its ends are. -/
theorem one_le_extent (start stop : Single) :
    (stop - start).max (Binary.ofNat 1) ≠ .nan ∧
      1 ≤ ((stop - start).max (Binary.ofNat 1)).value := by
  obtain ⟨hfinite, hone⟩ := Single.one_exact
  have hnumber := Binary.ne_nan_of_isFinite hfinite
  unfold Binary.max
  -- The difference of two infinities is no number, and then the other operand counts.
  by_cases hnan : stop - start = .nan
  · rw [hnan, show (Binary.nan : Single).isNaN = true from rfl, if_pos rfl]
    exact ⟨hnumber, hone.ge⟩
  · have hfalse : (stop - start).isNaN = false := by
      cases hdifference : stop - start with
      | nan => exact absurd hdifference hnan
      | number => rfl
    rw [hfalse, if_neg (by decide)]
    by_cases hlt : stop - start < Binary.ofNat 1
    · rw [if_pos hlt]
      exact ⟨hnumber, hone.ge⟩
    · rw [if_neg hlt]
      refine ⟨hnan, ?_⟩
      rw [Binary.lt_iff_value_lt hnan hnumber, hone] at hlt
      exact not_lt.mp hlt

/-- The number of bins, as a number of four bytes. -/
theorem bins_bounds {bins : Nat} (h : 0 < bins) (hlt : bins < 2 ^ 64) :
    (Binary.ofNat bins : Single).isFinite = true ∧ 1 ≤ (Binary.ofNat bins : Single).value ∧
      (Binary.ofNat bins : Single).value ≤ 2 ^ 64 := by
  have hone : (2 : ℚ) ^ 0 ≤ (bins : Int) := by
    rw [pow_zero]
    exact_mod_cast h
  have hle : ((bins : Int) : ℚ) ≤ 2 ^ 64 := by exact_mod_cast hlt.le
  have hlower := Single.two_pow_le_value_ofInt (by decide) hone
  rw [pow_zero] at hlower
  refine ⟨Single.ofNat_isFinite (by omega), ?_, ?_⟩
  · rwa [Binary.ofNat_eq_ofInt]
  · rw [Binary.ofNat_eq_ofInt]
    exact Single.value_ofInt_le_two_pow (by decide) hle

/-- The width of a bin is positive, though it may be infinite. -/
theorem step_pos {x : Single} (hx : x ≠ .nan) (h : 1 ≤ x.value) {bins : Nat} (hbins : 0 < bins)
    (hlt : bins < 2 ^ 64) :
    x / Binary.ofNat bins ≠ .nan ∧ 0 < (x / Binary.ofNat bins).value := by
  obtain ⟨hfinite, hone, hlarge⟩ := bins_bounds hbins hlt
  by_cases hxfinite : x.isFinite = true
  · have hrounding := Binary.isRounding_div hxfinite hfinite (by linarith)
    refine ⟨hrounding.ne_nan, ?_⟩
    -- The quotient is too large to round to zero.
    obtain ⟨y, hy, hvalue⟩ := Single.exists_value_eq (n := 1) (k := 64) (by decide) (by decide)
    have hle := hrounding.le_value (Binary.ne_nan_of_isFinite hy) (by
      rw [hvalue, le_div_iff₀ (by linarith)]
      calc ((1 : Int) : ℚ) / 2 ^ 64 * (Binary.ofNat bins : Single).value
          ≤ ((1 : Int) : ℚ) / 2 ^ 64 * 2 ^ 64 := by gcongr
        _ ≤ x.value := by simpa using h)
    refine lt_of_lt_of_le ?_ hle
    rw [hvalue]
    positivity
  · -- An infinite length has infinite bins.
    rw [Binary.eq_infinity hx hxfinite (by linarith), Binary.infinity_div hfinite (by linarith)]
    exact ⟨by simp [Binary.infinity], Binary.limit_pos .single⟩

/-- The smallest whole number not below a positive one is at least one. -/
theorem one_le_clampToInt_ceil {x : Single} (hx : x ≠ .nan) (h : 0 < x.value) :
    1 ≤ x.ceil.clampToInt (-0x80000000) 0x7FFFFFFF := by
  by_cases hfinite : x.isFinite = true
  · obtain ⟨hceil, hvalue⟩ := Single.value_ceil hfinite
    have hpos : 0 < ⌈x.value⌉ := Int.ceil_pos.mpr h
    rw [Single.clampToInt_eq_max _ _ hceil hvalue]
    omega
  · rw [Binary.eq_infinity hx hfinite h.le]
    decide

/-- Each bin is announced at least one sample. -/
theorem one_le_ratio (start stop : Single) {bins : Nat} (hbins : 0 < bins)
    (hlt : bins < addressable) (samplingRatio : Int32) :
    1 ≤ (Axis.ofRegion start stop bins samplingRatio).ratio := by
  obtain ⟨hnan, hone⟩ := one_le_extent start stop
  obtain ⟨hstep, hpos⟩ := step_pos hnan hone hbins hlt
  simp only [ofRegion]
  split_ifs with hratio
  · exact Int32.lt_iff_toInt_lt.mp hratio
  · exact one_le_clampToInt_ceil hstep hpos

end Axis

end RegionPooling
