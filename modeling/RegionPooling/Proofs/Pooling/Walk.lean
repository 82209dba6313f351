import RegionPooling.Proofs.Binary.Order
import RegionPooling.Proofs.Binary.Sums
import RegionPooling.Proofs.Pooling.Axis
import RegionPooling.Proofs.Pooling.Safety

/-!
# Where the positions of a walk lie

A walk starts half a step behind the beginning of its interval and goes on by whole steps. With
a step that is not negative, no rounding takes a position back over the beginning: a sum rounds
to at least the number that something was added to. So all positions lie between the two ends
of the interval, also where an end or the step is infinite. An end that is no number leaves no
position at all.

The steps of a run are of this kind, for any region, any grid and any sampling ratio.

Main results:

* `Axis.isStep_bin` — the distance of samples is a number and not negative.
* `InInterval.of_mem_walk` — the positions of a walk lie in its interval.
-/

namespace RegionPooling

/-! ## Numbers that may be infinite -/

namespace Single

theorem value_infinity : (Binary.infinity false : Single).value = 2 ^ 128 := by
  rw [Binary.value_infinity, if_neg (by decide), limit_eq]

/-- A quotient by a positive number keeps the sign. -/
theorem div_nonneg_of_pos {x y : Single} (hx : x ≠ .nan) (h : 0 ≤ x.value)
    (hy : y.isFinite = true) (hpos : 0 < y.value) : x / y ≠ .nan ∧ 0 ≤ (x / y).value := by
  refine ⟨Binary.div_ne_nan hx hy hpos, ?_⟩
  by_cases hfinite : x.isFinite = true
  · exact (Binary.isRounding_div hfinite hy hpos.ne').value_nonneg (by positivity)
  · rw [Binary.eq_infinity hx hfinite h, Binary.infinity_div hy hpos, value_infinity]
    positivity

end Single

/-! ## Steps -/

/-- A distance that leads nowhere back. -/
structure IsStep (step : Single) : Prop where
  ne_nan : step ≠ .nan
  nonneg : 0 ≤ step.value

/-- Half a step is a step. -/
theorem IsStep.half {step : Single} (h : IsStep step) : IsStep (step / Binary.ofNat 2) := by
  obtain ⟨hfinite, hvalue⟩ := Single.ofNat_exact (n := 2) (by decide)
  have hpos : 0 < (Binary.ofNat 2 : Single).value := by
    rw [hvalue]
    norm_num
  obtain ⟨hnan, hnonneg⟩ := Single.div_nonneg_of_pos h.ne_nan h.nonneg hfinite hpos
  exact ⟨hnan, hnonneg⟩

/-- The ratio of an axis, as a number of four bytes. -/
theorem Axis.ratio_pos (start stop : Single) {bins : Nat} (hbins : 0 < bins)
    (hlt : bins < addressable) (samplingRatio : Int32) :
    (Binary.ofInt (Axis.ofRegion start stop bins samplingRatio).ratio : Single).isFinite = true ∧
      0 < (Binary.ofInt (Axis.ofRegion start stop bins samplingRatio).ratio : Single).value := by
  have hone := one_le_ratio start stop hbins hlt samplingRatio
  have hlarge := Checked.natAbs_ratio_le start stop bins samplingRatio
  generalize (Axis.ofRegion start stop bins samplingRatio).ratio = ratio at hone hlarge
  have hfinite : (Binary.ofInt ratio : Single).isFinite = true :=
    Single.ofInt_isFinite (by rw [Int.abs_eq_natAbs]; omega)
  have hge := Single.two_pow_le_value_ofInt (n := ratio) (e := 0) (by decide)
    (by exact_mod_cast hone)
  exact ⟨hfinite, by linarith⟩

/-- The width of a bin is a step, whatever the region is. -/
theorem Axis.isStep_step (start stop : Single) {bins : Nat} (hbins : 0 < bins)
    (hlt : bins < addressable) (samplingRatio : Int32) :
    IsStep (Axis.ofRegion start stop bins samplingRatio).step := by
  obtain ⟨hextent, hone⟩ := one_le_extent start stop
  obtain ⟨hnan, hpos⟩ := step_pos hextent hone hbins hlt
  exact ⟨hnan, hpos.le⟩

/-- The distance of neighbouring samples is a step too. -/
theorem Axis.isStep_bin (start stop : Single) {bins : Nat} (hbins : 0 < bins)
    (hlt : bins < addressable) (samplingRatio : Int32) :
    IsStep (Axis.ofRegion start stop bins samplingRatio).bin := by
  have hstep := isStep_step start stop hbins hlt samplingRatio
  obtain ⟨hratio, hratioPos⟩ := ratio_pos start stop hbins hlt samplingRatio
  obtain ⟨hnan, hnonneg⟩ := Single.div_nonneg_of_pos hstep.ne_nan hstep.nonneg hratio hratioPos
  exact ⟨hnan, hnonneg⟩

/-! ## Positions -/

/-- The position lies from `start` on and before `stop`; all three are numbers. -/
structure InInterval (start stop position : Single) : Prop where
  start_ne_nan : start ≠ .nan
  stop_ne_nan : stop ≠ .nan
  ne_nan : position ≠ .nan
  start_le : start.value ≤ position.value
  lt_stop : position.value < stop.value

/-- A walk goes on only to positions above the last one. -/
theorem le_of_mem_walkFrom {stop step position p : Single} (h : p ∈ walkFrom stop step position) :
    position ≠ .nan ∧ position.value ≤ p.value := by
  fun_induction walkFrom stop step position with
  | case1 position hlt next ih =>
    have hnan : position ≠ .nan := by
      rintro rfl
      exact Binary.not_nan_lt _ hlt
    refine ⟨hnan, ?_⟩
    rcases List.mem_cons.mp h with rfl | hrest
    · exact le_refl _
    · by_cases hnext : position < next
      · rw [if_pos hnext] at hrest
        obtain ⟨hnextNan, hle⟩ := ih hnext hrest
        exact ((Binary.lt_iff_value_lt hnan hnextNan).mp hnext).le.trans hle
      · rw [if_neg hnext] at hrest
        exact absurd hrest List.not_mem_nil
  | case2 position hlt => exact absurd h List.not_mem_nil

/-- The positions of a walk lie in its interval. -/
theorem InInterval.of_mem_walk {start stop step p : Single} (hstep : IsStep step)
    (h : p ∈ walk start stop step) : InInterval start stop p := by
  have hlt := lt_of_mem_walk h
  have hnan := ne_nan_of_mem_walk h
  have hstop : stop ≠ .nan := by
    rintro rfl
    exact Binary.not_lt_nan p hlt
  -- The first position is not before the beginning, and none is before the first.
  obtain ⟨hfirst, hle⟩ := le_of_mem_walkFrom h
  obtain ⟨hstart, hle'⟩ := Binary.le_add_of_ne_nan hfirst hstep.half.nonneg
  exact {
    start_ne_nan := hstart
    stop_ne_nan := hstop
    ne_nan := hnan
    start_le := hle'.trans hle
    lt_stop := (Binary.lt_iff_value_lt hnan hstop).mp hlt }

end RegionPooling
