import RegionPooling.Proofs.Binary.Sums
import RegionPooling.Proofs.Pooling.Layout

/-!
# The error of an interpolated value

An interpolated value is a mean of four pixels whose weights are products of the two
distances from a corner. Computed in four-byte numbers, each weight is off by a little, and
so is each product and each sum; the pixels bound all these errors, since the weights are at
most one. What comes out is within `c / 2 ^ 19` of the range of the pixels, `c` being a bound
of their magnitudes.

Main results:

* `Corners.isWeight_fraction` — the distance from a corner is between zero and one, at any
  position that is a number.
* `Job.interpolated_error`, `Job.blended_mem` — the error and the range of an interpolated value.
-/

namespace RegionPooling

namespace Single

open Binary (IsRounding)

/-! ## Weights -/

/-- A number between zero and one that stands for such a number with an error. -/
structure IsWeight (w : Single) (exact error : ℚ) : Prop where
  isFinite : w.isFinite = true
  nonneg : 0 ≤ w.value
  le_one : w.value ≤ 1
  exact_nonneg : 0 ≤ exact
  exact_le_one : exact ≤ 1
  error_le : |w.value - exact| ≤ error

theorem IsWeight.mono {w : Single} {a ε δ : ℚ} (h : IsWeight w a ε) (hle : ε ≤ δ) :
    IsWeight w a δ :=
  { h with error_le := h.error_le.trans hle }

/-- What rounds a number between zero and one is a weight. -/
theorem isWeight_of_isRounding {q : ℚ} {x : Single} (h : IsRounding q x) (hq : 0 ≤ q)
    (hone : q ≤ 1) : x.isFinite = true ∧ 0 ≤ x.value ∧ x.value ≤ 1 := by
  obtain ⟨hfinite, hvalue⟩ := one_exact
  refine ⟨isFinite_of_abs_le h ?_, h.value_nonneg hq, ?_⟩
  · rw [abs_of_nonneg hq]
    exact hone.trans (by norm_num)
  · have hle := h.value_le (Binary.ne_nan_of_isFinite hfinite) (hone.trans hvalue.ge)
    rwa [hvalue] at hle

/-- What a weight leaves of one. -/
theorem IsWeight.complement {w : Single} {a : ℚ} (h : IsWeight w a 0) :
    IsWeight (Binary.ofNat 1 - w) (1 - a) (1 / 2 ^ 24) := by
  obtain ⟨hfinite, hvalue⟩ := one_exact
  have ha : w.value = a := by
    have := abs_nonpos_iff.mp h.error_le
    linarith
  have hrounding := Binary.isRounding_sub hfinite h.isFinite
  rw [hvalue, ha] at hrounding
  have hnonneg : 0 ≤ 1 - a := by linarith [h.exact_le_one]
  have hle : 1 - a ≤ 1 := by linarith [h.exact_nonneg]
  obtain ⟨hfinite', hnonneg', hle'⟩ := isWeight_of_isRounding hrounding hnonneg hle
  refine ⟨hfinite', hnonneg', hle', hnonneg, hle, ?_⟩
  have herror := add_error hfinite (Binary.isFinite_neg h.isFinite) hfinite'
  rw [Binary.value_neg, hvalue, ha, ← sub_eq_add_neg, abs_of_nonneg hnonneg] at herror
  exact herror.trans (by gcongr)

/-- The product of two weights. -/
theorem IsWeight.mul {u v : Single} {a b : ℚ} (hu : IsWeight u a (1 / 2 ^ 24))
    (hv : IsWeight v b (1 / 2 ^ 24)) : IsWeight (u * v) (a * b) (1 / 2 ^ 22) := by
  have hrounding := Binary.isRounding_mul hu.isFinite hv.isFinite
  have hnonneg := mul_nonneg hu.nonneg hv.nonneg
  have hle := mul_le_one₀ hu.le_one hv.nonneg hv.le_one
  obtain ⟨hfinite, hnonneg', hle'⟩ := isWeight_of_isRounding hrounding hnonneg hle
  refine ⟨hfinite, hnonneg', hle', mul_nonneg hu.exact_nonneg hv.exact_nonneg,
    mul_le_one₀ hu.exact_le_one hv.exact_nonneg hv.exact_le_one, ?_⟩
  have hround := Single.error_le (c := 1) hrounding hfinite (by rwa [abs_of_nonneg hnonneg])
    (Or.inr (by norm_num))
  have hleft : |(u.value - a) * v.value| ≤ 1 / 2 ^ 24 := by
    rw [abs_mul, abs_of_nonneg hv.nonneg]
    calc |u.value - a| * v.value ≤ 1 / 2 ^ 24 * 1 :=
        mul_le_mul hu.error_le hv.le_one hv.nonneg (by positivity)
      _ = 1 / 2 ^ 24 := mul_one _
  have hright : |a * (v.value - b)| ≤ 1 / 2 ^ 24 := by
    rw [abs_mul, abs_of_nonneg hu.exact_nonneg]
    calc a * |v.value - b| ≤ 1 * (1 / 2 ^ 24) :=
        mul_le_mul hu.exact_le_one hv.error_le (abs_nonneg _) zero_le_one
      _ = 1 / 2 ^ 24 := one_mul _
  -- The rounding of the product, and the error of each factor times the other one.
  have hsplit : (u * v).value - a * b = ((u * v).value - u.value * v.value) +
      (u.value - a) * v.value + a * (v.value - b) := by ring
  rw [hsplit]
  calc _ ≤ |(u * v).value - u.value * v.value| + |(u.value - a) * v.value| +
        |a * (v.value - b)| := abs_add_three _ _ _
    _ ≤ 1 / 2 ^ 23 + 1 / 2 ^ 24 + 1 / 2 ^ 24 := by gcongr
    _ = 1 / 2 ^ 22 := by norm_num

/-! ## Weighted sums -/

/-- The weighted number, with its error. -/
theorem IsWeight.mul_error {w p : Single} {a c : ℚ} (hw : IsWeight w a (1 / 2 ^ 22))
    (hp : p.isFinite = true) (hpc : |p.value| ≤ c) (hc : Moderate c) :
    (w * p).isFinite = true ∧ |(w * p).value - a * p.value| ≤ 6 * c / 2 ^ 24 := by
  have hrounding := Binary.isRounding_mul hw.isFinite hp
  have hle : |w.value * p.value| ≤ c := by
    rw [abs_mul, abs_of_nonneg hw.nonneg]
    calc w.value * |p.value| ≤ 1 * c := mul_le_mul hw.le_one hpc (abs_nonneg _) zero_le_one
      _ = c := one_mul c
  have hfinite : (w * p).isFinite = true :=
    isFinite_of_abs_le hrounding ((hle.trans hc.2).trans (by norm_num))
  refine ⟨hfinite, ?_⟩
  have hround := Single.error_le hrounding hfinite hle hc.1
  have hweight : |(w.value - a) * p.value| ≤ 1 / 2 ^ 22 * c := by
    rw [abs_mul]
    exact mul_le_mul hw.error_le hpc (abs_nonneg _) (by positivity)
  have hsplit : (w * p).value - a * p.value =
      ((w * p).value - w.value * p.value) + (w.value - a) * p.value := by ring
  rw [hsplit]
  calc _ ≤ |(w * p).value - w.value * p.value| + |(w.value - a) * p.value| := abs_add_le _ _
    _ ≤ c / 2 ^ 23 + 1 / 2 ^ 22 * c := add_le_add hround hweight
    _ = 6 * c / 2 ^ 24 := by ring

/-- The error of a sum of two numbers that stand for others. -/
theorem add_error_of {x y : Single} {p q δ ε b : ℚ} (hx : x.isFinite = true)
    (hy : y.isFinite = true) (hp : |x.value - p| ≤ δ) (hq : |y.value - q| ≤ ε)
    (hb : |p + q| + δ + ε ≤ b) (hlarge : b ≤ 2 ^ 127) :
    (x + y).isFinite = true ∧ |(x + y).value - (p + q)| ≤ δ + ε + b / 2 ^ 24 := by
  have hsum : |x.value + y.value| ≤ b := by
    have hsplit : x.value + y.value = (p + q) + (x.value - p) + (y.value - q) := by ring
    rw [hsplit]
    calc _ ≤ |p + q| + |x.value - p| + |y.value - q| := abs_add_three _ _ _
      _ ≤ |p + q| + δ + ε := by gcongr
      _ ≤ b := hb
  have hfinite : (x + y).isFinite = true :=
    isFinite_of_abs_le (Binary.isRounding_add hx hy) (hsum.trans hlarge)
  refine ⟨hfinite, ?_⟩
  have hround : |(x + y).value - (x.value + y.value)| ≤ b / 2 ^ 24 :=
    (add_error hx hy hfinite).trans (by gcongr)
  have hsplit : (x + y).value - (p + q) =
      (x.value - p) + (y.value - q) + ((x + y).value - (x.value + y.value)) := by ring
  rw [hsplit]
  calc _ ≤ |x.value - p| + |y.value - q| + |(x + y).value - (x.value + y.value)| :=
      abs_add_three _ _ _
    _ ≤ δ + ε + b / 2 ^ 24 := by gcongr

/-! ## Interpolation -/

/-- The mean of four numbers, weighted by the distances `a` and `b` from the first one. -/
def bilinear (a b topLeft topRight bottomLeft bottomRight : ℚ) : ℚ :=
  (1 - a) * (1 - b) * topLeft + a * (1 - b) * topRight + (1 - a) * b * bottomLeft
    + a * b * bottomRight

theorem bilinear_mem {a b p q r s least greatest : ℚ} (ha : 0 ≤ a ∧ a ≤ 1) (hb : 0 ≤ b ∧ b ≤ 1)
    (hp : least ≤ p ∧ p ≤ greatest) (hq : least ≤ q ∧ q ≤ greatest)
    (hr : least ≤ r ∧ r ≤ greatest) (hs : least ≤ s ∧ s ≤ greatest) :
    least ≤ bilinear a b p q r s ∧ bilinear a b p q r s ≤ greatest := by
  -- The four weights are not negative, and they add up to one.
  have htl : 0 ≤ (1 - a) * (1 - b) := mul_nonneg (by linarith) (by linarith)
  have htr : 0 ≤ a * (1 - b) := mul_nonneg ha.1 (by linarith)
  have hbl : 0 ≤ (1 - a) * b := mul_nonneg (by linarith) hb.1
  have hbr : 0 ≤ a * b := mul_nonneg ha.1 hb.1
  unfold bilinear
  constructor
  · calc least = (1 - a) * (1 - b) * least + a * (1 - b) * least + (1 - a) * b * least
          + a * b * least := by ring
      _ ≤ _ := by
        gcongr
        · exact hp.1
        · exact hq.1
        · exact hr.1
        · exact hs.1
  · calc _ ≤ (1 - a) * (1 - b) * greatest + a * (1 - b) * greatest + (1 - a) * b * greatest
            + a * b * greatest := by
          gcongr
          · exact hp.2
          · exact hq.2
          · exact hr.2
          · exact hs.2
      _ = greatest := by ring

/-- The mean and what is added up on the way to it are no larger than the four numbers. -/
theorem abs_bilinear_le {a b p q r s c : ℚ} (ha : 0 ≤ a ∧ a ≤ 1) (hb : 0 ≤ b ∧ b ≤ 1)
    (hp : |p| ≤ c) (hq : |q| ≤ c) (hr : |r| ≤ c) (hs : |s| ≤ c) :
    |(1 - a) * (1 - b) * p + a * (1 - b) * q| ≤ c ∧
      |(1 - a) * (1 - b) * p + a * (1 - b) * q + (1 - a) * b * r| ≤ c ∧
      |bilinear a b p q r s| ≤ c := by
  have hc : 0 ≤ c := (abs_nonneg p).trans hp
  have hzero : |(0 : ℚ)| ≤ c := by rwa [abs_zero]
  -- The partial sums are means too, with zeros for what is still missing.
  have hmean {q r s : ℚ} (hq : |q| ≤ c) (hr : |r| ≤ c) (hs : |s| ≤ c) :
      |bilinear a b p q r s| ≤ c :=
    abs_le.mpr (bilinear_mem ha hb (abs_le.mp hp) (abs_le.mp hq) (abs_le.mp hr) (abs_le.mp hs))
  refine ⟨?_, ?_, hmean hq hr hs⟩
  · simpa [bilinear] using hmean hq hzero hzero
  · simpa [bilinear] using hmean hq hr hzero

/-- The interpolated value as it is computed, with its error: each of the four products is off
by six of the parts of which `2 ^ 24` make up the bound, each of the three sums by two. -/
theorem interpolation_error {x y p q r s : Single} {a b c : ℚ} (hx : IsWeight x a 0)
    (hy : IsWeight y b 0) (hc : Moderate c) (hp : p.isFinite = true ∧ |p.value| ≤ c)
    (hq : q.isFinite = true ∧ |q.value| ≤ c) (hr : r.isFinite = true ∧ |r.value| ≤ c)
    (hs : s.isFinite = true ∧ |s.value| ≤ c) :
    let left := Binary.ofNat 1 - x
    let top := Binary.ofNat 1 - y
    let result := left * top * p + x * top * q + left * y * r + x * y * s
    result.isFinite = true ∧
      |result.value - bilinear a b p.value q.value r.value s.value| ≤ c / 2 ^ 19 := by
  intro left top result
  have hx' : IsWeight x a (1 / 2 ^ 24) := hx.mono (by positivity)
  have hy' : IsWeight y b (1 / 2 ^ 24) := hy.mono (by positivity)
  have hleft := hx.complement
  have htop := hy.complement
  have htl := hleft.mul htop
  have htr := hx'.mul htop
  have hbl := hleft.mul hy'
  have hbr := hx'.mul hy'
  obtain ⟨hptl, hetl⟩ := htl.mul_error hp.1 hp.2 hc
  obtain ⟨hptr, hetr⟩ := htr.mul_error hq.1 hq.2 hc
  obtain ⟨hpbl, hebl⟩ := hbl.mul_error hr.1 hr.2 hc
  obtain ⟨hpbr, hebr⟩ := hbr.mul_error hs.1 hs.2 hc
  have hc0 := hc.nonneg
  have hclarge := hc.2
  obtain ⟨htwo, hthree, hfour⟩ := abs_bilinear_le ⟨hx.exact_nonneg, hx.exact_le_one⟩
    ⟨hy.exact_nonneg, hy.exact_le_one⟩ hp.2 hq.2 hr.2 hs.2
  have hsmall : 2 * c ≤ 2 ^ 127 := by linarith
  -- Twice the bound leaves room for the errors within the sums.
  obtain ⟨hf, he⟩ := add_error_of (b := 2 * c) hptl hptr hetl hetr (by linarith) hsmall
  obtain ⟨hf', he'⟩ := add_error_of (b := 2 * c) hf hpbl he hebl (by linarith) hsmall
  obtain ⟨hf'', he''⟩ := add_error_of (b := 2 * c) hf' hpbr he' hebr
    (show |bilinear a b p.value q.value r.value s.value| + _ + _ ≤ _ by linarith) hsmall
  refine ⟨hf'', he''.trans ?_⟩
  linarith

end Single

/-! ## Corners -/

/-- Everywhere but at not-a-number the distance from the lower corner is between zero and one;
beyond the last pixel it is zero, so infinite positions are no exception. -/
theorem Corners.isWeight_fraction {position : Single} (h : position ≠ .nan) {length : Nat}
    (hlength : length < addressable) :
    Single.IsWeight (Corners.around position length).fraction
      (Corners.around position length).fraction.value 0 := by
  suffices hbounds : (Corners.around position length).fraction.isFinite = true ∧
      0 ≤ (Corners.around position length).fraction.value ∧
      (Corners.around position length).fraction.value ≤ 1 from
    ⟨hbounds.1, hbounds.2.1, hbounds.2.2, hbounds.2.1, hbounds.2.2, by rw [sub_self, abs_zero]⟩
  have hzero : (.zero false : Single).isFinite = true ∧ (0 : ℚ) ≤ (.zero false : Single).value ∧
      (.zero false : Single).value ≤ 1 := by
    rw [Binary.value_zero]
    exact ⟨rfl, le_refl _, zero_le_one⟩
  simp only [Corners.around]
  split_ifs with hbelow hlast
  · exact hzero
  · exact hzero
  · by_cases hfinite : position.isFinite = true
    · obtain ⟨hfloor, hvalue⟩ := Single.value_floor hfinite
      have hrounding := Binary.isRounding_sub hfinite hfloor
      rw [hvalue] at hrounding
      exact Single.isWeight_of_isRounding hrounding (Int.fract_nonneg _)
        (Int.fract_lt_one _).le
    · -- At the infinities one of the first two cases applies.
      exfalso
      obtain ⟨s, rfl⟩ := Binary.exists_eq_infinity h hfinite
      cases s with
      | false =>
        have hclamp : (Binary.infinity false : Single).floor.clampToInt 0 0xFFFFFFFFFFFFFFFF =
            0xFFFFFFFFFFFFFFFF := rfl
        rw [hclamp] at hlast
        unfold addressable at hlength
        omega
      | true => exact hbelow rfl

namespace Job

/-- The interpolated value of one channel, as it is before any rounding. -/
def blended (job : Job) (e : Extents) (batch : Nat) (y x : Corners) (channel : Nat) : ℚ :=
  Single.bilinear x.fraction.value y.fraction.value
    (job.pixel e batch y.lower x.lower channel).value
    (job.pixel e batch y.lower x.upper channel).value
    (job.pixel e batch y.upper x.lower channel).value
    (job.pixel e batch y.upper x.upper channel).value

/-- The four pixels between two pairs of corners have a property. -/
def AllPixels (job : Job) (e : Extents) (batch : Nat) (y x : Corners) (channel : Nat)
    (P : Single → Prop) : Prop :=
  P (job.pixel e batch y.lower x.lower channel) ∧ P (job.pixel e batch y.lower x.upper channel) ∧
    P (job.pixel e batch y.upper x.lower channel) ∧ P (job.pixel e batch y.upper x.upper channel)

variable {job : Job} {e : Extents} {batch channel : Nat} {y x : Corners}

theorem interpolated_error {c : ℚ} (hy : Single.IsWeight y.fraction y.fraction.value 0)
    (hx : Single.IsWeight x.fraction x.fraction.value 0) (hc : Single.Moderate c)
    (h : job.AllPixels e batch y x channel fun p => p.isFinite = true ∧ |p.value| ≤ c) :
    (job.interpolated e batch y x channel).isFinite = true ∧
      |(job.interpolated e batch y x channel).value - job.blended e batch y x channel| ≤
        c / 2 ^ 19 := by
  obtain ⟨hp, hq, hr, hs⟩ := h
  exact Single.interpolation_error hx hy hc hp hq hr hs

theorem blended_mem {least greatest : ℚ} (hy : Single.IsWeight y.fraction y.fraction.value 0)
    (hx : Single.IsWeight x.fraction x.fraction.value 0)
    (h : job.AllPixels e batch y x channel fun p => least ≤ p.value ∧ p.value ≤ greatest) :
    least ≤ job.blended e batch y x channel ∧ job.blended e batch y x channel ≤ greatest := by
  obtain ⟨hp, hq, hr, hs⟩ := h
  exact Single.bilinear_mem ⟨hx.exact_nonneg, hx.exact_le_one⟩ ⟨hy.exact_nonneg, hy.exact_le_one⟩
    hp hq hr hs

end Job

end RegionPooling
