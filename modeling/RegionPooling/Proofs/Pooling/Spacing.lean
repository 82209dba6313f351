import RegionPooling.Proofs.Pooling.Walk

/-!
# Every axis can be sampled

Bins and samples are laid out by two divisions, of the length of a region by the number of bins
and of the width of a bin by the number of samples. Neither of them can fail, whatever the ends of
the region are: the length is at least one pixel, or infinite, and the divisors are numbers
between one and a power of two. So the widths are positive, a division makes nothing wider, and
the announced samples of a cell, which are counted by a product of two ratios, are a number to
divide by.

Where the ratio follows from the width of a bin, the samples are one pixel apart or less. This
comes to an end at `2 ^ 31` pixels. The ratio is the largest number of four bytes there, and wider
bins have no more samples. That number has 31 bits, of which the divisor keeps 24: it is rounded
up to `2 ^ 31`, and this is why the bins of just that width are still sampled closely enough.

Main results:

* `Single.div_bounds` — quotients by a divisor of at least one.
* `Axis.adaptive_bin_le_one_iff` — how far a ratio reaches that follows from the width of a bin.
* `Axis.ofRegion_usable` — the layout of every axis, and the number of samples of every cell.
-/

namespace RegionPooling

/-! ## Quotients -/

/-- What is not negative does not become larger by a division by one or more. -/
theorem Binary.div_value_le_self {f : Format} {x y : Binary f} (hx : x ≠ nan) (h : 0 ≤ x.value)
    (hy : y.isFinite = true) (hone : 1 ≤ y.value) : (x / y).value ≤ x.value := by
  have hpos : 0 < y.value := by linarith
  by_cases hfinite : x.isFinite = true
  · have hrounding := isRounding_div hfinite hy hpos.ne'
    exact hrounding.value_le hx (div_le_self h hone)
  · rw [eq_infinity hx hfinite h, infinity_div hy hpos]

namespace Single

open Binary (IsRounding)

variable {x y : Single} {k l : Nat}

/-- A quotient of numbers within powers of two is within a power of two. -/
theorem le_div (hx : x ≠ .nan) (h : 1 / 2 ^ k ≤ x.value) (hy : y.isFinite = true)
    (hpos : 0 < y.value) (hle : y.value ≤ 2 ^ l) (hkl : k + l ≤ 149) :
    1 / 2 ^ (k + l) ≤ (x / y).value := by
  have hx0 : 0 < x.value := lt_of_lt_of_le (by positivity) h
  by_cases hfinite : x.isFinite = true
  · have hrounding := Binary.isRounding_div hfinite hy hpos.ne'
    obtain ⟨z, hz, hvalue⟩ := exists_value_eq (n := 1) (by decide) hkl
    rw [Int.cast_one] at hvalue
    rw [← hvalue]
    refine hrounding.le_value (Binary.ne_nan_of_isFinite hz) ?_
    rw [hvalue, pow_add, ← div_div]
    gcongr
  · rw [Binary.eq_infinity hx hfinite hx0.le, Binary.infinity_div hy hpos, value_infinity]
    have hone : (1 : ℚ) ≤ 2 ^ (k + l) := one_le_pow₀ (by norm_num)
    calc (1 : ℚ) / 2 ^ (k + l) ≤ 1 := (div_le_one (by positivity)).mpr hone
      _ ≤ 2 ^ 128 := by norm_num

/-- A quotient by a divisor of at least one: it is a number, positive, and no larger. -/
theorem div_bounds (hx : x ≠ .nan) (h : 1 / 2 ^ k ≤ x.value) (hy : y.isFinite = true)
    (hone : 1 ≤ y.value) (hle : y.value ≤ 2 ^ l) (hkl : k + l ≤ 149) :
    x / y ≠ .nan ∧ 1 / 2 ^ (k + l) ≤ (x / y).value ∧ (x / y).value ≤ x.value := by
  have hpos : 0 < y.value := zero_lt_one.trans_le hone
  have hx0 : 0 ≤ x.value := le_trans (by positivity) h
  exact ⟨Binary.div_ne_nan hx hy hpos, le_div hx h hy hpos hle hkl,
    Binary.div_value_le_self hx hx0 hy hone⟩

theorem value_positive {i : Nat} (hi : i ≤ Format.single.infinityIndex) :
    (Binary.number false i hi : Single).value =
      (Format.single.significand i * 2 ^ Format.single.doublings i : Nat) / 2 ^ 149 := by
  rw [Binary.value_number, unitsPerOne_eq]
  rfl

/-- A significand is so small that what is large has been doubled often. -/
theorem le_doublings {i : Nat} {hi : i ≤ Format.single.infinityIndex}
    (h : 2 ^ k ≤ (Binary.number false i hi : Single).value) : k ≤ Format.single.doublings i := by
  by_contra hfew
  have hsmall : Format.single.significand i * 2 ^ Format.single.doublings i < 2 ^ 24 * 2 ^ k :=
    calc Format.single.significand i * 2 ^ Format.single.doublings i
        ≤ Format.single.significand i * 2 ^ k :=
          Nat.mul_le_mul_left _ (Nat.pow_le_pow_right (by decide) (by omega))
      _ < 2 ^ 24 * 2 ^ k :=
          Nat.mul_lt_mul_of_pos_right (Format.single.significand_lt i) (by positivity)
  have hlimit : 2 ^ 24 * 2 ^ k ≤ 2 ^ k * 2 ^ 149 := by
    rw [Nat.mul_comm]
    exact Nat.mul_le_mul_left _ (by decide)
  rw [value_positive, le_div_iff₀ (by positivity)] at h
  have hlarge : 2 ^ k * 2 ^ 149 ≤ Format.single.significand i * 2 ^ Format.single.doublings i := by
    exact_mod_cast h
  omega

/-- A large number keeps all of its bits when it is divided by a power of two. -/
theorem exists_value_eq_div_two_pow (hx : x.isFinite = true) (h : 2 ^ k ≤ x.value) :
    ∃ z : Single, z.isFinite = true ∧ z.value = x.value / 2 ^ k := by
  have hpos : (0 : ℚ) < 2 ^ k := by positivity
  have hlimit := (abs_lt.mp (Binary.isFinite_iff.mp hx).2).2
  obtain ⟨s, i, hi, rfl, -⟩ := Binary.exists_eq_number hx
  obtain rfl := Binary.negative_eq_false (hpos.trans_le h)
  -- `k` of the doublings are taken back.
  have hsplit : ((Format.single.significand i * 2 ^ (Format.single.doublings i - k) : Nat) : ℚ) /
      Format.single.unitsPerOne = (Binary.number false i hi : Single).value / 2 ^ k := by
    have hpower := Nat.pow_add 2 (Format.single.doublings i - k) k
    rw [Nat.sub_add_cancel (le_doublings h)] at hpower
    rw [value_positive, unitsPerOne_eq, div_right_comm, hpower, ← Nat.mul_assoc]
    congr 1
    rw [eq_div_iff hpos.ne']
    push_cast
    rfl
  have hrange : ((Format.single.significand i * 2 ^ (Format.single.doublings i - k) : Nat) : ℚ) /
      Format.single.unitsPerOne < Format.single.limit := by
    rw [hsplit]
    exact (div_le_self (hpos.le.trans h) (one_le_pow₀ (by norm_num))).trans_lt hlimit
  obtain ⟨z, hz, hvalue⟩ := Binary.exists_value_eq (f := .single)
    (Format.single.significand_lt i).le (Format.single.doublings i - k) hrange false
  exact ⟨z, hz, hvalue.trans hsplit⟩

end Single

namespace Axis

/-! ## Adaptive ratios -/

/-- The largest number of four bytes, as a divisor. -/
theorem largestRatio_exact : (Binary.ofInt 0x7FFFFFFF : Single).isFinite = true ∧
    (Binary.ofInt 0x7FFFFFFF : Single).value = 2 ^ 31 := by
  have hrounded : (Binary.ofInt 0x7FFFFFFF : Single) = Binary.ofNat (2 ^ 31) := by decide +kernel
  obtain ⟨z, hz, hvalue⟩ := Single.exists_value_eq_two_pow (e := 31) (by decide)
  have hrounding := Binary.isRounding_ofNat (f := .single) (2 ^ 31)
  have hexact : ((2 ^ 31 : Nat) : ℚ) = z.value := by
    rw [hvalue]
    norm_num
  rw [hrounded]
  refine ⟨Single.ofNat_isFinite (by decide), ?_⟩
  rw [hrounding.value_eq (Binary.ne_nan_of_isFinite hz) hexact, hexact, hvalue]

/-- Samples whose number follows from the width of a bin are at most one pixel apart, exactly if
the bin is at most `2 ^ 31` pixels wide. -/
theorem adaptive_bin_le_one_iff {width : Single} (hwidth : width ≠ .nan) (hpos : 0 < width.value) :
    width / Binary.ofInt (width.ceil.clampToInt (-0x80000000) 0x7FFFFFFF) ≤ Binary.ofNat 1 ↔
      width ≤ Binary.ofNat (2 ^ 31) := by
  obtain ⟨hone, honeValue⟩ := Single.one_exact
  have honeNan := Binary.ne_nan_of_isFinite hone
  obtain ⟨hlargest, hlargestValue⟩ := largestRatio_exact
  have hrounded : (Binary.ofNat (2 ^ 31) : Single) = Binary.ofInt 0x7FFFFFFF := by decide +kernel
  have hlargestNan := Binary.ne_nan_of_isFinite hlargest
  by_cases hfinite : width.isFinite = true
  · obtain ⟨hceil, hceilValue⟩ := Single.value_ceil hfinite
    rw [Single.clampToInt_eq_max _ _ hceil hceilValue, hrounded,
      Binary.le_iff_value_le hwidth hlargestNan, hlargestValue]
    have hceilPos : 0 < ⌈width.value⌉ := Int.ceil_pos.mpr hpos
    set ratio : Int := max (-0x80000000) (min 0x7FFFFFFF ⌈width.value⌉)
    by_cases hle : width.value ≤ 2 ^ 31
    · -- The divisor is not below the width: it is its ceiling, or the largest one.
      refine iff_of_true ?_ hle
      have hdivisor : (Binary.ofInt ratio : Single).isFinite = true :=
        Single.ofInt_isFinite (by rw [abs_of_nonneg (by omega)]; omega)
      have hge : width.value ≤ (Binary.ofInt ratio : Single).value := by
        rcases le_or_gt ⌈width.value⌉ 0x7FFFFFFF with hsmall | hlarge
        · have hratio : ratio = ⌈width.value⌉ := by omega
          rw [hratio]
          exact (Binary.isRounding_ofInt _).le_value hwidth (Int.le_ceil _)
        · have hratio : ratio = 0x7FFFFFFF := by omega
          rw [hratio, hlargestValue]
          exact hle
      have hdivisorPos := hpos.trans_le hge
      have hrounding := Binary.isRounding_div hfinite hdivisor hdivisorPos.ne'
      rw [Binary.le_iff_value_le hrounding.ne_nan honeNan]
      refine hrounding.value_le honeNan ?_
      rw [honeValue]
      exact (div_le_one hdivisorPos).mpr hge
    · -- The quotient by the largest ratio is exact, and above one.
      refine iff_of_false ?_ hle
      have hlarge : (0x7FFFFFFF : Int) < ⌈width.value⌉ :=
        Int.lt_ceil.mpr (lt_trans (by norm_num) (not_le.mp hle))
      have hratio : ratio = 0x7FFFFFFF := by omega
      rw [hratio]
      have hrounding := Binary.isRounding_div hfinite hlargest (by rw [hlargestValue]; positivity)
      rw [hlargestValue] at hrounding
      obtain ⟨z, hz, hvalue⟩ := Single.exists_value_eq_div_two_pow hfinite (not_le.mp hle).le
      rw [Binary.le_iff_value_le hrounding.ne_nan honeNan, honeValue,
        hrounding.value_eq (Binary.ne_nan_of_isFinite hz) hvalue.symm, not_le,
        one_lt_div (by positivity)]
      exact not_le.mp hle
  · -- Infinitely wide bins have samples that are infinitely far apart.
    rw [Binary.eq_infinity hwidth hfinite hpos.le]
    exact iff_of_false (by decide +kernel) (by decide +kernel)

/-! ## Layouts -/

/-- Bins and samples lead forward, and there is a sample in each bin. -/
structure Usable (a : Axis) : Prop where
  step_pos : .zero false < a.step
  one_le_ratio : 1 ≤ a.ratio
  bin_pos : .zero false < a.bin
  bin_le_step : a.bin ≤ a.step

theorem zero_lt_iff {x : Single} (h : x ≠ .nan) : .zero false < x ↔ 0 < x.value := by
  rw [Binary.lt_iff_value_lt (Binary.zero_ne_nan _) h, Binary.value_zero]

/-- The ratio of an axis as a divisor. -/
theorem divisor_bounds (start stop : Single) {bins : Nat} (hbins : 0 < bins)
    (hlt : bins < addressable) (samplingRatio : Int32) :
    let a := ofRegion start stop bins samplingRatio
    (Binary.ofInt a.ratio : Single).isFinite = true ∧ 1 ≤ (Binary.ofInt a.ratio : Single).value ∧
      (Binary.ofInt a.ratio : Single).value ≤ 2 ^ 31 := by
  intro a
  have hone : 1 ≤ a.ratio := one_le_ratio start stop hbins hlt samplingRatio
  have hlarge : a.ratio.natAbs ≤ 2 ^ 31 := Checked.natAbs_ratio_le start stop bins samplingRatio
  have hge := Single.two_pow_le_value_ofInt (n := a.ratio) (e := 0) (by decide)
    (by exact_mod_cast hone)
  have hle := Single.value_ofInt_le_two_pow (n := a.ratio) (e := 31) (by decide)
    (by exact_mod_cast (show a.ratio ≤ 2 ^ 31 by omega))
  rw [pow_zero] at hge
  exact ⟨Single.ofInt_isFinite (by rw [abs_of_nonneg (by omega)]; omega), hge, hle⟩

theorem usable (start stop : Single) {bins : Nat} (hbins : 0 < bins) (hlt : bins < addressable)
    (samplingRatio : Int32) : (ofRegion start stop bins samplingRatio).Usable := by
  obtain ⟨hextent, hextentOne⟩ := one_le_extent start stop
  obtain ⟨hbinsFinite, hbinsOne, hbinsLe⟩ := bins_bounds hbins hlt
  obtain ⟨hratio, hratioOne, hratioLe⟩ := divisor_bounds start stop hbins hlt samplingRatio
  have hratioPos := one_le_ratio start stop hbins hlt samplingRatio
  -- At most `2 ^ 64` bins of a length of one, and at most `2 ^ 31` samples in each.
  obtain ⟨hstep, hstepLarge, -⟩ := Single.div_bounds (k := 0) hextent (by rwa [pow_zero, div_one])
    hbinsFinite hbinsOne hbinsLe (by decide)
  obtain ⟨hbin, hbinLarge, hbinLe⟩ :=
    Single.div_bounds hstep hstepLarge hratio hratioOne hratioLe (by decide)
  have hstepPos := lt_of_lt_of_le (by positivity) hstepLarge
  have hbinPos := lt_of_lt_of_le (by positivity) hbinLarge
  exact {
    step_pos := (zero_lt_iff hstep).mpr hstepPos
    one_le_ratio := hratioPos
    bin_pos := (zero_lt_iff hbin).mpr hbinPos
    bin_le_step := (Binary.le_iff_value_le hbin hstep).mpr hbinLe }

/-- The product of two ratios, as the divisor of a cell. -/
theorem samples_bounds {a b : Axis} (ha : 1 ≤ a.ratio) (hb : 1 ≤ b.ratio)
    (ha' : a.ratio.natAbs ≤ 2 ^ 31) (hb' : b.ratio.natAbs ≤ 2 ^ 31) :
    Checked.samples b a = some (Binary.ofInt (a.ratio * b.ratio)) ∧
      (Binary.ofInt (a.ratio * b.ratio) : Single).isFinite = true ∧
      Binary.ofNat 1 ≤ (Binary.ofInt (a.ratio * b.ratio) : Single) := by
  have hproduct : (a.ratio * b.ratio).natAbs ≤ 2 ^ 62 := by
    calc (a.ratio * b.ratio).natAbs = a.ratio.natAbs * b.ratio.natAbs := Int.natAbs_mul _ _
      _ ≤ 2 ^ 31 * 2 ^ 31 := Nat.mul_le_mul ha' hb'
      _ = 2 ^ 62 := by norm_num
  have hone : 1 ≤ a.ratio * b.ratio := one_le_mul_of_one_le_of_one_le ha hb
  generalize hcount : a.ratio * b.ratio = count at hproduct hone
  have hfinite : (Binary.ofInt count : Single).isFinite = true :=
    Single.ofInt_isFinite (by rw [abs_of_nonneg (by omega)]; omega)
  obtain ⟨honeFinite, honeValue⟩ := Single.one_exact
  have hge := Single.two_pow_le_value_ofInt (n := count) (e := 0) (by decide)
    (by exact_mod_cast hone)
  refine ⟨?_, hfinite, ?_⟩
  · rw [Checked.samples, hcount, if_pos (by omega)]
  · rw [Binary.le_iff_value_le (Binary.ne_nan_of_isFinite honeFinite)
      (Binary.ne_nan_of_isFinite hfinite), honeValue]
    rwa [pow_zero] at hge

/--
The layout of every axis can be used, whatever the ends of its region are, finite, infinite or no
numbers: the bins have a positive width, each is announced at least one sample, and the distance of
the samples is positive and no larger than a bin. Where the number of samples follows from the width
of a bin, they are at most one pixel apart exactly if the bin is at most `2 ^ 31` pixels wide. Of
any two such layouts, the product of the ratios fits a whole number of eight bytes, and as a number
of four bytes it is finite and at least one: no cell is divided by zero.
-/
theorem ofRegion_usable (start stop : Single) {bins : Nat} (hbins : 0 < bins)
    (hlt : bins < addressable) (samplingRatio : Int32) :
    let a := ofRegion start stop bins samplingRatio
    a.Usable ∧
      (samplingRatio ≤ 0 → (a.bin ≤ Binary.ofNat 1 ↔ a.step ≤ Binary.ofNat (2 ^ 31))) ∧
      ∀ (start' stop' : Single) (bins' : Nat) (samplingRatio' : Int32), 0 < bins' →
        bins' < addressable →
        let b := ofRegion start' stop' bins' samplingRatio'
        ∃ count, Checked.samples b a = some count ∧
          (∀ base, (Region.mk base b a).samples = count) ∧
          count.isFinite = true ∧ Binary.ofNat 1 ≤ count := by
  intro a
  have husable : a.Usable := usable start stop hbins hlt samplingRatio
  refine ⟨husable, ?_, ?_⟩
  · intro hadaptive
    obtain ⟨hextent, hone⟩ := one_le_extent start stop
    obtain ⟨hnan, hpos⟩ := step_pos hextent hone hbins hlt
    have hratio : a.ratio = a.step.ceil.clampToInt (-0x80000000) 0x7FFFFFFF := by
      refine if_neg ?_
      rw [Int32.lt_iff_toInt_lt]
      rw [Int32.le_iff_toInt_le] at hadaptive
      omega
    have hbin : a.bin = a.step / Binary.ofInt a.ratio := rfl
    rw [hbin, hratio]
    exact adaptive_bin_le_one_iff hnan hpos
  · intro start' stop' bins' samplingRatio' hbins' hlt' b
    have husable' : b.Usable := usable start' stop' hbins' hlt' samplingRatio'
    obtain ⟨hsamples, hfinite, hone⟩ := samples_bounds husable.one_le_ratio husable'.one_le_ratio
      (Checked.natAbs_ratio_le ..) (Checked.natAbs_ratio_le ..)
    exact ⟨_, hsamples, fun _ => rfl, hfinite, hone⟩

/-- A region without an end has the largest ratio, and its samples are infinitely far apart. It is
usable all the same, next to a region whose ends are no numbers. -/
theorem unbounded_usable :
    let a := ofRegion (.zero false) (.infinity false) 0xFFFFFFFF 0
    let b := ofRegion .nan .nan 1 (-1)
    a.ratio = 0x7FFFFFFF ∧ b.ratio = 1 ∧ a.Usable ∧ ¬ a.bin ≤ Binary.ofNat 1 ∧
      ¬ a.step ≤ Binary.ofNat (2 ^ 31) ∧
      ∃ count, Checked.samples b a = some count ∧ count.isFinite = true ∧ Binary.ofNat 1 ≤ count := by
  intro a b
  obtain ⟨husable, hadaptive, hsamples⟩ :=
    ofRegion_usable (.zero false) (.infinity false) (show 0 < 0xFFFFFFFF by decide) (by decide) 0
  obtain ⟨count, hcount, -, hfinite, hone⟩ := hsamples .nan .nan 1 (-1) (by decide) (by decide)
  have hwide : ¬ a.step ≤ Binary.ofNat (2 ^ 31) := by decide +kernel
  have hapart : ¬ a.bin ≤ Binary.ofNat 1 := fun hle => hwide ((hadaptive (by decide)).mp hle)
  exact ⟨by decide +kernel, by decide +kernel, husable, hapart, hwide, count, hcount, hfinite, hone⟩

end Axis

end RegionPooling
