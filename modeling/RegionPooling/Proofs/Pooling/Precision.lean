import RegionPooling.Proofs.Pooling.Mean
import RegionPooling.Proofs.Pooling.Walk

/-!
# When a walk visits as many samples as announced

The positions of a walk are added up, so each of them carries the roundings of all before it,
while the end of its bin is computed from the start of the region. The walk visits the
announced samples if these errors together stay below half of the distance of two samples:
then the last announced sample is still below the end, and the one after it is not.

All numbers on the way are at most `Axis.magnitude`, so each rounding is off by at most the part
in `2 ^ 23` of it, `Axis.slip`. `Axis.Spaced` collects what a walk needs, all of it in slips.

One thing is not a matter of precision. The end of a bin is computed as a product and then a
sum, and the product can leave the range where the sum would not: for the last bin of a region
that begins before zero and is about as long as the range. `Axis.EndsInRange` keeps it out.

Main results:

* `length_walkFrom` — how long a walk is.
* `Axis.IsPrecise.spaced` — what the precision condition says in slips.
* `Axis.Spaced.position_near` — the positions of a walk and their errors.
* `Axis.Spaced.length_walk` — a walk between the bounds of a bin.
* `Region.visits_announced` — the walks, and the number of samples of a cell.
-/

namespace RegionPooling

open Binary (IsRounding)

/-! ## Finite results -/

namespace Single

/-- What lies between two finite numbers rounds to a finite one. -/
theorem isFinite_of_between {q : ℚ} {x y z : Single} (h : IsRounding q x)
    (hy : y.isFinite = true) (hz : z.isFinite = true) (hyq : y.value ≤ q) (hqz : q ≤ z.value) :
    x.isFinite = true := by
  have habs : |q| ≤ max |y.value| |z.value| := abs_le_max_abs_abs hyq hqz
  rcases le_total |y.value| |z.value| with hle | hle
  · exact h.isFinite_of_abs_le hz (habs.trans_eq (max_eq_right hle))
  · exact h.isFinite_of_abs_le hy (habs.trans_eq (max_eq_left hle))

/-- Every rational number has a rounding. -/
theorem exists_isRounding (q : ℚ) : ∃ x : Single, IsRounding q x := by
  have hunits := (Binary.unitsPerOne_pos .single).ne'
  refine ⟨.ofUnits (decide (q.num < 0)) (q.num.natAbs * Format.single.unitsPerOne) q.den,
    decide (q.num < 0), _, q.den, q.den_pos, rfl, ?_⟩
  rw [Binary.signed_mul_natCast, Binary.signed_sign, Int.cast_mul, Int.cast_natCast,
    div_div, mul_div_mul_right _ _ hunits, Rat.num_div_den]

/-- A quotient that is neither small nor large, multiplied back. -/
theorem div_near {x y : Single} (hx : x.isFinite = true) (hy : y.isFinite = true)
    (hx0 : 1 / 2 ^ 32 ≤ x.value) (hy1 : 1 ≤ y.value) (hy2 : y.value ≤ 2 ^ 32) :
    (x / y).isFinite = true ∧ 0 ≤ (x / y).value ∧
      |(x / y).value * y.value - x.value| ≤ x.value / 2 ^ 23 := by
  have hx0' : (0 : ℚ) < x.value := lt_of_lt_of_le (by norm_num) hx0
  have hy0 : 0 < y.value := by linarith
  have hrounding := Binary.isRounding_div hx hy hy0.ne'
  have hquotient : 0 ≤ x.value / y.value := by positivity
  have hle : x.value / y.value ≤ x.value := div_le_self hx0'.le hy1
  have hfinite := isFinite_of_between hrounding (y := .zero false) rfl hx
    (by rwa [Binary.value_zero]) hle
  have hlarge : 1 / 2 ^ 126 ≤ x.value / y.value := by
    rw [le_div_iff₀ hy0]
    calc (1 : ℚ) / 2 ^ 126 * y.value ≤ 1 / 2 ^ 126 * 2 ^ 32 := by gcongr
      _ ≤ 1 / 2 ^ 32 := by norm_num
      _ ≤ x.value := hx0
  have herror := error_le hrounding hfinite (abs_of_nonneg hquotient).le (.inr hlarge)
  refine ⟨hfinite, hrounding.value_nonneg hquotient, ?_⟩
  have hsplit : (x / y).value * y.value - x.value =
      ((x / y).value - x.value / y.value) * y.value := by
    rw [sub_mul, div_mul_cancel₀ _ hy0.ne']
  rw [hsplit, abs_mul, abs_of_pos hy0]
  calc _ ≤ x.value / y.value / 2 ^ 23 * y.value := by gcongr
    _ = x.value / 2 ^ 23 := by field_simp

/-- A difference of at least one, compared with the exact one. -/
theorem sub_near {x y : Single} (hx : x.isFinite = true) (hy : y.isFinite = true)
    (hfinite : (x - y).isFinite = true) (hone : 1 ≤ (x - y).value) :
    (x - y).value ≤ x.value - y.value + (x - y).value / 2 ^ 22 := by
  have herror := error (Binary.isRounding_sub hx hy) hfinite
  obtain ⟨hfrom, hto⟩ := abs_le.mp herror
  have hsmall : (1 : ℚ) / 2 ^ 150 ≤ 1 / 2 ^ 24 := by norm_num
  rcases abs_cases (x.value - y.value) with ⟨habs, hsign⟩ | ⟨habs, hsign⟩
  · rw [habs] at hfrom hto
    linarith
  · rw [habs] at hto
    linarith

end Single

/-! ## The length of a walk -/

/-- A walk is as long as its positions ascend below the end. -/
theorem length_walkFrom {stop step : Single} (n : Nat) {position : Single}
    (hbelow : ∀ t < n, (· + step)^[t] position < stop)
    (hascends : ∀ t, t + 1 < n → (· + step)^[t] position < (· + step)^[t + 1] position)
    (hstop : ¬ (· + step)^[n] position < stop) : (walkFrom stop step position).length = n := by
  induction n generalizing position with
  | zero =>
    rw [walkFrom, if_neg (show ¬ position < stop from hstop), List.length_nil]
  | succ n ih =>
    have hrest : (walkFrom stop step (position + step)).length = n :=
      ih (fun t ht => hbelow (t + 1) (by omega)) (fun t ht => hascends (t + 1) (by omega)) hstop
    rw [walkFrom, if_pos (show position < stop from hbelow 0 (by omega)), List.length_cons]
    by_cases hnext : position < position + step
    · rw [if_pos hnext, hrest]
    · -- Only the last step may be lost.
      obtain rfl : n = 0 := by
        by_contra hn
        exact hnext (hascends 0 (by omega))
      rw [if_neg hnext, List.length_nil]

/-! ## The precision condition -/

namespace Axis

/-- A bound for all numbers that a walk along the axis computes. -/
def magnitude (a : Axis) (bins : Nat) : ℚ := |a.start.value| + a.step.value * (bins + 1)

/-- The largest error of one rounding on the way. -/
def slip (a : Axis) (bins : Nat) : ℚ := a.magnitude bins / 2 ^ 23

/--
The axis of a region with finite ends and a finite extent, in not too many bins, whose samples
are far apart compared with the numbers that they are computed from.
-/
structure IsPrecise (a : Axis) (bins : Nat) : Prop where
  exists_region : ∃ (start stop : Single) (samplingRatio : Int32), start.isFinite = true ∧
    stop.isFinite = true ∧ (stop - start).isFinite = true ∧
    a = .ofRegion start stop bins samplingRatio
  bins_pos : 1 ≤ bins
  bins_le : bins ≤ 2 ^ 24
  precise : (a.ratio + 16) * a.magnitude bins ≤ 2 ^ 22 * a.bin.value

/-- The position of a sample of a bin, counted from the first one. -/
def position (a : Axis) (index t : Nat) : Single :=
  (· + a.bin)^[t] (firstPosition (a.edge index) a.bin)

theorem position_succ (a : Axis) (index t : Nat) :
    a.position index (t + 1) = a.position index t + a.bin :=
  Function.iterate_succ_apply' ..

/-- The end of a bin does not leave the range of the numbers before the start is added. -/
def EndsInRange (a : Axis) (bins index : Nat) : Prop :=
  index + 1 < bins ∨ 0 ≤ a.start.value ∨ (a.step * Binary.ofNat (index + 1)).isFinite = true

/-- What a walk needs of its axis, with all distances compared to `slip`. -/
structure Spaced (a : Axis) (bins count : Nat) (slip : ℚ) : Prop where
  start_isFinite : a.start.isFinite = true
  step_isFinite : a.step.isFinite = true
  bin_isFinite : a.bin.isFinite = true
  bins_le : bins ≤ 2 ^ 24
  count_pos : 1 ≤ count
  magnitude_eq : |a.start.value| + a.step.value * (bins + 1) = 2 ^ 23 * slip
  magnitude_ge : 1 / 2 ^ 126 ≤ 2 ^ 23 * slip
  bin_ge : 2 * (count + 16) * slip ≤ a.bin.value
  bin_near : |count * a.bin.value - a.step.value| ≤ slip
  /-- The bins together are about as long as the region, which is in range. -/
  exists_extent : ∃ extent : Single, extent.isFinite = true ∧
    a.step.value * bins ≤ extent.value + 2 * slip
  /-- They end about where the region does. -/
  exists_top : ∃ top : Single, top.isFinite = true ∧
    a.start.value + a.step.value * bins ≤ top.value + 6 * slip

namespace IsPrecise

variable {a : Axis} {bins : Nat}

/-- The bins together are about as long as the region. -/
theorem step_near (h : a.IsPrecise bins) : ∃ extent : Single, extent.isFinite = true ∧
    1 ≤ extent.value ∧ a.step.isFinite = true ∧ 1 / 2 ^ 26 ≤ a.step.value ∧
    |a.step.value * bins - extent.value| ≤ extent.value / 2 ^ 23 ∧ a.start.isFinite = true ∧
    (extent.value = 1 ∨
      ∃ stop : Single, stop.isFinite = true ∧
        extent.value ≤ stop.value - a.start.value + extent.value / 2 ^ 22) := by
  obtain ⟨start, stop, samplingRatio, hstart, hstop, hextent, rfl⟩ := h.exists_region
  have hone := (one_le_extent start stop).2
  have hcases : (stop - start).max (Binary.ofNat 1) = stop - start ∨
      (stop - start).max (Binary.ofNat 1) = Binary.ofNat 1 := by
    unfold Binary.max
    split_ifs <;> simp
  have hfinite : ((stop - start).max (Binary.ofNat 1)).isFinite = true := by
    rcases hcases with heq | heq
    · rwa [heq]
    · rw [heq]
      exact Single.one_exact.1
  obtain ⟨hbins, hvalue⟩ := Single.ofNat_exact h.bins_le
  have hpos : (1 : ℚ) ≤ bins := by exact_mod_cast h.bins_pos
  have hle : (bins : ℚ) ≤ 2 ^ 24 := by exact_mod_cast h.bins_le
  obtain ⟨hstep, hnonneg, hnear⟩ := Single.div_near hfinite hbins
    (le_trans (by norm_num) hone) (hpos.trans_eq hvalue.symm)
    (hvalue.trans_le (hle.trans (by norm_num)))
  rw [hvalue] at hnear
  refine ⟨_, hfinite, hone, hstep, ?_, hnear, hstart, ?_⟩
  · -- At most `2 ^ 24` bins of a length of at least about one.
    have hlower := (abs_le.mp hnear).1
    set step : ℚ := ((stop - start).max (Binary.ofNat 1) / Binary.ofNat bins).value
    have hbins' : step * bins ≤ step * 2 ^ 24 := by gcongr
    show 1 / 2 ^ 26 ≤ step
    linarith
  · rcases hcases with heq | heq
    · rw [heq] at hfinite hone ⊢
      exact .inr ⟨stop, hstop, Single.sub_near hstop hstart hfinite hone⟩
    · rw [heq]
      exact .inl Single.one_exact.2

/-- The announced samples of a bin, multiplied back. -/
theorem ratio_near (h : a.IsPrecise bins) : 1 ≤ a.ratio ∧ a.ratio ≤ 2 ^ 11 ∧
    a.bin.isFinite = true ∧ |a.ratio * a.bin.value - a.step.value| ≤ a.step.value / 2 ^ 23 := by
  obtain ⟨extent, -, -, hstep, hlarge, -⟩ := h.step_near
  have hprecise := h.precise
  have hbinsPos := h.bins_pos
  have haddressable : bins < addressable := by
    have := h.bins_le
    unfold addressable
    omega
  have hratio : 1 ≤ a.ratio ∧ a.ratio ≤ 2 ^ 31 ∧ a.bin = a.step / Binary.ofInt a.ratio := by
    obtain ⟨start, stop, samplingRatio, -, -, -, rfl⟩ := h.exists_region
    have hone := one_le_ratio start stop hbinsPos haddressable samplingRatio
    have hlarge := Checked.natAbs_ratio_le start stop bins samplingRatio
    exact ⟨hone, by omega, rfl⟩
  obtain ⟨hone, htwo, hbin⟩ := hratio
  have hone' : (1 : ℚ) ≤ a.ratio := by exact_mod_cast hone
  have htwo' : (a.ratio : ℚ) ≤ 2 ^ 31 := by exact_mod_cast htwo
  have hrounding := Binary.isRounding_ofInt (f := .single) a.ratio
  have hfinite := Single.isFinite_of_abs_le hrounding (by
    rw [abs_of_nonneg (by linarith)]
    exact htwo'.trans (by norm_num))
  have hdivisor : 1 ≤ (Binary.ofInt a.ratio : Single).value := by
    have hle := Single.two_pow_le_value_ofInt (e := 0) (by decide) (by rwa [pow_zero])
    rwa [pow_zero] at hle
  have hdivisor' : (Binary.ofInt a.ratio : Single).value ≤ 2 ^ 31 :=
    Single.value_ofInt_le_two_pow (by decide) htwo'
  obtain ⟨hbinFinite, hnonneg, hnear⟩ := Single.div_near hstep hfinite
    (le_trans (by norm_num) hlarge) hdivisor (hdivisor'.trans (by norm_num))
  rw [← hbin] at hbinFinite hnonneg hnear
  -- With more samples, they would be too close to each other.
  have hlimit : a.ratio ≤ 2 ^ 11 := by
    by_contra hlt
    have hmany : (2 : ℚ) ^ 11 ≤ a.ratio := by exact_mod_cast (not_le.mp hlt).le
    have hdivisor : 2 ^ 11 ≤ (Binary.ofInt a.ratio : Single).value :=
      Single.two_pow_le_value_ofInt (by decide) hmany
    have hsmall : a.bin.value * 2 ^ 11 ≤ a.bin.value * (Binary.ofInt a.ratio : Single).value :=
      mul_le_mul_of_nonneg_left hdivisor hnonneg
    have hmagnitude : 2 * a.step.value ≤ a.magnitude bins := by
      have hbins : (1 : ℚ) ≤ bins := by exact_mod_cast hbinsPos
      have hwidths : a.step.value * 2 ≤ a.step.value * (bins + 1) :=
        mul_le_mul_of_nonneg_left (by linarith) (by linarith)
      unfold magnitude
      linarith [abs_nonneg a.start.value]
    have hproduct : (2 ^ 11 + 16) * (2 * a.step.value) ≤ (a.ratio + 16) * a.magnitude bins := by
      gcongr
    linarith [(abs_le.mp hnear).2]
  have hexact : (Binary.ofInt a.ratio : Single).value = a.ratio :=
    (Single.ofInt_exact (by rw [abs_of_nonneg (by omega)]; omega)).2
  rw [hexact, mul_comm] at hnear
  exact ⟨hone, hlimit, hbinFinite, hnear⟩

/-- The precision condition, in slips. -/
theorem spaced (h : a.IsPrecise bins) : ∃ count : Nat, a.ratio = count ∧ count ≤ 2 ^ 11 ∧
    a.Spaced bins count (a.slip bins) := by
  obtain ⟨extent, hextent, hone, hstep, hlarge, hnear, hstart, htop⟩ := h.step_near
  obtain ⟨hratio, hlimit, hbin, hbinNear⟩ := h.ratio_near
  obtain ⟨count, hcount⟩ := Int.eq_ofNat_of_zero_le (show 0 ≤ a.ratio by omega)
  have hprecise := h.precise
  rw [hcount] at hprecise hbinNear
  simp only [Int.cast_natCast] at hprecise hbinNear
  have hbins : (1 : ℚ) ≤ bins := by exact_mod_cast h.bins_pos
  have hcount1 : (1 : ℚ) ≤ count := by exact_mod_cast (show 1 ≤ count by omega)
  have hwidths : a.step.value ≤ a.step.value * bins := le_mul_of_one_le_right (by linarith) hbins
  have hmagnitude : |a.start.value| + a.step.value * bins + a.step.value = a.magnitude bins := by
    unfold magnitude
    ring
  have hslip : a.slip bins = a.magnitude bins / 2 ^ 23 := rfl
  have hstart0 := abs_nonneg a.start.value
  obtain ⟨hfrom, hto⟩ := abs_le.mp hnear
  refine ⟨count, hcount, by omega, {
    start_isFinite := hstart
    step_isFinite := hstep
    bin_isFinite := hbin
    bins_le := h.bins_le
    count_pos := by omega
    magnitude_eq := ?_
    magnitude_ge := ?_
    bin_ge := ?_
    bin_near := ?_
    exists_extent := ?_
    exists_top := ?_ }⟩
  · rw [hslip, mul_div_cancel₀ _ (by norm_num)]
    rfl
  · rw [hslip, mul_div_cancel₀ _ (by norm_num)]
    have hsmall : (1 : ℚ) / 2 ^ 126 ≤ 1 / 2 ^ 26 := by norm_num
    linarith
  · rw [hslip]
    linarith
  · rw [hslip]
    exact hbinNear.trans (by linarith)
  · exact ⟨extent, hextent, by rw [hslip]; linarith⟩
  · rcases htop with hunit | ⟨stop, hstop, hle⟩
    · -- A region of one pixel is near zero, compared with the range.
      obtain ⟨top, htopFinite, hvalue⟩ := Single.exists_value_eq_two_pow (e := 127) (by decide)
      refine ⟨top, htopFinite, ?_⟩
      have hmagnitude0 : 0 ≤ a.magnitude bins := by linarith
      have hmany : a.magnitude bins ≤ (count + 16) * a.magnitude bins :=
        le_mul_of_one_le_left hmagnitude0 (by linarith)
      have hbin0 : a.bin.value ≤ count * a.bin.value :=
        le_mul_of_one_le_left (by linarith) hcount1
      have hbin4 : a.bin.value ≤ 4 := by linarith [(abs_le.mp hbinNear).2]
      rw [hvalue, hslip]
      linarith [le_abs_self a.start.value]
    · exact ⟨stop, hstop, by rw [hslip]; linarith⟩

end IsPrecise

namespace Spaced

variable {a : Axis} {bins count : Nat} {slip : ℚ}

theorem slip_pos (h : a.Spaced bins count slip) : 0 < slip := by
  have hmagnitude : (0 : ℚ) < 1 / 2 ^ 126 := by norm_num
  linarith [h.magnitude_ge]

/-- The width of a bin is many slips. -/
theorem step_ge (h : a.Spaced bins count slip) : 33 * slip ≤ a.step.value := by
  have hslip := h.slip_pos
  have hcount : (1 : ℚ) ≤ count := by exact_mod_cast h.count_pos
  have hbin : 34 * slip ≤ a.bin.value := by nlinarith [h.bin_ge]
  have hsamples : a.bin.value ≤ count * a.bin.value := by nlinarith
  linarith [(abs_le.mp h.bin_near).2]

/-- Everything between the start and the end of a further bin is in bounds. -/
theorem abs_le_of_between (h : a.Spaced bins count slip) {q : ℚ} (hlower : a.start.value ≤ q)
    (hupper : q ≤ a.start.value + a.step.value * (bins + 1)) : |q| ≤ 2 ^ 23 * slip := by
  have hstep : 0 ≤ a.step.value := by linarith [h.step_ge, h.slip_pos]
  have hwidths : 0 ≤ a.step.value * (bins + 1) := by positivity
  rw [← h.magnitude_eq, abs_le]
  constructor
  · linarith [neg_abs_le a.start.value]
  · linarith [le_abs_self a.start.value]

/-- One rounding on the way. -/
theorem round_near (h : a.Spaced bins count slip) {q : ℚ} {x : Single} (hx : IsRounding q x)
    (hfinite : x.isFinite = true) (hq : |q| ≤ 2 ^ 23 * slip) : |x.value - q| ≤ slip := by
  have herror := Single.error_le hx hfinite hq (.inr h.magnitude_ge)
  rwa [mul_div_cancel_left₀ _ (by norm_num)] at herror

/-! ## The ends of a bin -/

section Edges

variable {place : Nat}

/-- Where the bins before a place end, if nothing is rounded. -/
theorem offset_le (h : a.Spaced bins count slip) (hplace : place ≤ bins) :
    0 ≤ a.step.value * place ∧ a.step.value * place ≤ a.step.value * bins := by
  have hstep : 0 ≤ a.step.value := by linarith [h.step_ge, h.slip_pos]
  have hle : (place : ℚ) ≤ bins := by exact_mod_cast hplace
  exact ⟨by positivity, mul_le_mul_of_nonneg_left hle hstep⟩

theorem offset_le_of_lt (h : a.Spaced bins count slip) (hplace : place < bins) :
    a.step.value * place ≤ a.step.value * bins - a.step.value := by
  have hle := (h.offset_le (show place + 1 ≤ bins from hplace)).2
  push_cast at hle
  linarith

theorem isRounding_product (h : a.Spaced bins count slip) (hplace : place ≤ bins) :
    IsRounding (a.step.value * place) (a.step * Binary.ofNat place) := by
  obtain ⟨hfinite, hvalue⟩ := Single.ofNat_exact (hplace.trans h.bins_le)
  have hrounding := Binary.isRounding_mul h.step_isFinite hfinite
  rwa [hvalue] at hrounding

theorem product_isFinite (h : a.Spaced bins count slip) (hplace : place < bins) :
    (a.step * Binary.ofNat place).isFinite = true := by
  obtain ⟨extent, hextent, hle⟩ := h.exists_extent
  refine Single.isFinite_of_between (h.isRounding_product hplace.le)
    (y := .zero false) rfl hextent ?_ ?_
  · rw [Binary.value_zero]
    exact (h.offset_le hplace.le).1
  · linarith [h.offset_le_of_lt hplace, h.step_ge, h.slip_pos]

/-- The end of a bin is one rounding away from being a slip off. -/
theorem edge_rounding (h : a.Spaced bins count slip) (hplace : place ≤ bins)
    (hrange : place < bins ∨ 0 ≤ a.start.value ∨
      (a.step * Binary.ofNat place).isFinite = true) :
    ∃ r, a.start.value ≤ r ∧ |r - (a.start.value + a.step.value * place)| ≤ slip ∧
      IsRounding r (a.edge place) := by
  have hproduct := h.isRounding_product hplace
  obtain ⟨hnonneg, hle⟩ := h.offset_le hplace
  by_cases hfinite : (a.step * Binary.ofNat place).isFinite = true
  · have hsum := Binary.isRounding_add hfinite h.start_isFinite
    have hbound : |a.step.value * place| ≤ 2 ^ 23 * slip := by
      rw [abs_of_nonneg hnonneg, ← h.magnitude_eq]
      linarith [abs_nonneg a.start.value, h.step_ge, h.slip_pos]
    have hnear := h.round_near hproduct hfinite hbound
    refine ⟨_, ?_, ?_, hsum⟩
    · linarith [hproduct.value_nonneg hnonneg]
    · rwa [add_comm a.start.value, add_sub_add_right_eq_sub]
  · -- The product is infinite, and with a start that is not negative so is the exact end.
    have hstart : 0 ≤ a.start.value := by
      rcases hrange with hlt | hstart | hin
      · exact absurd (h.product_isFinite hlt) hfinite
      · exact hstart
      · exact absurd hin hfinite
    have hinfinite := Binary.eq_infinity hproduct.ne_nan hfinite
      (hproduct.value_nonneg hnonneg)
    obtain ⟨x, hx⟩ := Single.exists_isRounding (a.start.value + a.step.value * place)
    have hxinfinite : x = .infinity false := by
      have hge := hproduct.mono hx (by linarith)
      rw [hinfinite, Single.value_infinity] at hge
      refine Binary.eq_infinity hx.ne_nan (fun hxfinite => ?_) (by linarith)
      have hlt := (Binary.isFinite_iff.mp hxfinite).2
      rw [Single.limit_eq] at hlt
      exact absurd hge (not_le.mpr ((le_abs_self _).trans_lt hlt))
    have hedge : a.edge place = x := by
      rw [edge, hinfinite, Binary.infinity_add h.start_isFinite, hxinfinite]
    refine ⟨_, by linarith, ?_, hedge ▸ hx⟩
    rw [sub_self, abs_zero]
    exact h.slip_pos.le

/-- Every bin begins at a finite number. -/
theorem edge_near (h : a.Spaced bins count slip) (hplace : place < bins) :
    (a.edge place).isFinite = true ∧
      |(a.edge place).value - (a.start.value + a.step.value * place)| ≤ 2 * slip := by
  obtain ⟨r, hge, hnear, hrounding⟩ := h.edge_rounding hplace.le (.inl hplace)
  obtain ⟨top, htop, hle⟩ := h.exists_top
  obtain ⟨hlower, hupper⟩ := abs_le.mp hnear
  have hslip := h.slip_pos
  have hstep := h.step_ge
  have hoffset := h.offset_le_of_lt hplace
  have hnonneg := (h.offset_le hplace.le).1
  have hfinite := Single.isFinite_of_between hrounding h.start_isFinite htop hge (by linarith)
  refine ⟨hfinite, ?_⟩
  have hbound : |r| ≤ 2 ^ 23 * slip := h.abs_le_of_between hge (by linarith)
  obtain ⟨hlower', hupper'⟩ := abs_le.mp (h.round_near hrounding hfinite hbound)
  exact abs_le.mpr ⟨by linarith, by linarith⟩

end Edges

/-! ## The positions in a bin -/

/-- The distance of two samples, in slips and compared with the width of a bin. -/
theorem bin_bounds (h : a.Spaced bins count slip) :
    (count + 16) * slip ≤ a.bin.value / 2 ∧ a.bin.value ≤ a.step.value + slip ∧
      count * a.bin.value ≤ a.step.value + slip ∧ a.step.value - slip ≤ count * a.bin.value := by
  have hslip := h.slip_pos
  have hcount : (1 : ℚ) ≤ count := by exact_mod_cast h.count_pos
  have hbin := h.bin_ge
  obtain ⟨hlower, hupper⟩ := abs_le.mp h.bin_near
  have hnonneg : 0 ≤ a.bin.value := by nlinarith
  refine ⟨by linarith, ?_, by linarith, by linarith⟩
  nlinarith

/-- A sum on the way is finite, and adds one slip to the error. -/
theorem add_near (h : a.Spaced bins count slip) {x y : Single} {q c : ℚ}
    (hx : x.isFinite = true) (hy : y.isFinite = true) (hnear : |x.value + y.value - q| ≤ c)
    (hlower : a.start.value ≤ x.value + y.value)
    (hupper : x.value + y.value ≤ a.start.value + a.step.value * bins - 6 * slip) :
    (x + y).isFinite = true ∧ |(x + y).value - q| ≤ c + slip := by
  obtain ⟨top, htop, hle⟩ := h.exists_top
  have hrounding := Binary.isRounding_add hx hy
  have hfinite := Single.isFinite_of_between hrounding h.start_isFinite htop hlower (by linarith)
  have hbound : |x.value + y.value| ≤ 2 ^ 23 * slip :=
    h.abs_le_of_between hlower (by linarith [h.slip_pos, h.step_ge])
  obtain ⟨hlower', hupper'⟩ := abs_le.mp (h.round_near hrounding hfinite hbound)
  obtain ⟨hfrom, hto⟩ := abs_le.mp hnear
  exact ⟨hfinite, abs_le.mpr ⟨by linarith, by linarith⟩⟩

/-- Half of the distance, with which a walk begins. -/
theorem half_near (h : a.Spaced bins count slip) :
    (a.bin / Binary.ofNat 2).isFinite = true ∧
      |(a.bin / Binary.ofNat 2).value - a.bin.value / 2| ≤ slip := by
  obtain ⟨htwo, hvalue⟩ := Single.ofNat_exact (n := 2) (by decide)
  have hrounding := Binary.isRounding_div h.bin_isFinite htwo (by rw [hvalue]; norm_num)
  rw [hvalue, Nat.cast_ofNat] at hrounding
  obtain ⟨hbin, hle, -, -⟩ := h.bin_bounds
  have hslip := h.slip_pos
  have hcount : 0 ≤ (count + 16) * slip := by positivity
  have hfinite := Single.isFinite_of_between hrounding (y := .zero false) rfl h.bin_isFinite
    (by rw [Binary.value_zero]; linarith) (by linarith)
  refine ⟨hfinite, h.round_near hrounding hfinite ?_⟩
  rw [abs_of_nonneg (by linarith), ← h.magnitude_eq]
  have hstep := h.step_ge
  have hoffset := (h.offset_le (Nat.le_refl bins)).1
  linarith [abs_nonneg a.start.value]

/-- Each position of a walk is a slip further off than the one before. -/
theorem position_near (h : a.Spaced bins count slip) {index : Nat} (hindex : index < bins)
    (t : Nat) (ht : t < count) :
    (a.position index t).isFinite = true ∧
      |(a.position index t).value -
        (a.start.value + a.step.value * index + a.bin.value / 2 + t * a.bin.value)| ≤
          (t + 4) * slip := by
  have hslip := h.slip_pos
  have hstep := h.step_ge
  have hoffset := h.offset_le_of_lt hindex
  have hnonneg := (h.offset_le hindex.le).1
  obtain ⟨hbin, hle, hsamples, -⟩ := h.bin_bounds
  have hcount : (1 : ℚ) ≤ count := by exact_mod_cast h.count_pos
  have hcountSlip : slip ≤ count * slip := by nlinarith
  induction t with
  | zero =>
    obtain ⟨hedge, hedgeNear⟩ := h.edge_near hindex
    obtain ⟨hhalf, hhalfNear⟩ := h.half_near
    obtain ⟨hfrom, hto⟩ := abs_le.mp hedgeNear
    obtain ⟨hfrom', hto'⟩ := abs_le.mp hhalfNear
    have hsum := h.add_near (q := a.start.value + a.step.value * index + a.bin.value / 2)
      (c := 3 * slip) hedge hhalf (abs_le.mpr ⟨by linarith, by linarith⟩) (by linarith)
      (by linarith)
    refine ⟨hsum.1, ?_⟩
    rw [Nat.cast_zero, zero_mul, add_zero]
    exact hsum.2.trans_eq (by ring)
  | succ t ih =>
    obtain ⟨hfinite, hnear⟩ := ih (by omega)
    obtain ⟨hfrom, hto⟩ := abs_le.mp hnear
    have hlast : (t : ℚ) + 2 ≤ count := by exact_mod_cast ht
    have hsteps : (t + 2) * a.bin.value ≤ count * a.bin.value :=
      mul_le_mul_of_nonneg_right hlast (by nlinarith)
    have hslips : (t + 2) * slip ≤ count * slip := mul_le_mul_of_nonneg_right hlast hslip.le
    have ht0 : 0 ≤ t * a.bin.value := mul_nonneg (Nat.cast_nonneg t) (by linarith)
    have hsum := h.add_near (x := a.position index t) (y := a.bin)
      (q := a.start.value + a.step.value * index + a.bin.value / 2 + (t + 1) * a.bin.value)
      (c := (t + 4) * slip) hfinite h.bin_isFinite
      (abs_le.mpr ⟨by linarith, by linarith⟩) (by linarith) (by linarith)
    rw [position_succ]
    push_cast
    exact ⟨hsum.1, hsum.2.trans_eq (by ring)⟩

/-- What is clearly below a rational number is below its rounding. -/
theorem lt_of_add_lt (h : a.Spaced bins count slip) {x y : Single} {r : ℚ}
    (hx : x.isFinite = true) (hy : IsRounding r y) (hr : |r| ≤ 2 ^ 23 * slip)
    (hlt : x.value + slip < r) : x < y := by
  have hslip := h.slip_pos
  have hnan := Binary.ne_nan_of_isFinite hx
  rw [Binary.lt_iff_value_lt hnan hy.ne_nan]
  by_cases hfinite : y.isFinite = true
  · linarith [(abs_le.mp (h.round_near hy hfinite hr)).1]
  · -- The rounding is infinite, and not below a finite number.
    have hle := hy.le_value hnan (by linarith)
    refine lt_of_le_of_ne hle fun heq => hfinite (Binary.isFinite_iff.mpr ⟨hy.ne_nan, ?_⟩)
    rw [← heq]
    exact (Binary.isFinite_iff.mp hx).2

/-- The walk of a bin visits the announced samples and no others. -/
theorem length_walk (h : a.Spaced bins count slip) {index : Nat} (hindex : index < bins)
    (hend : a.EndsInRange bins index) :
    (walk (a.bounds index).1 (a.bounds index).2 a.bin).length = count := by
  obtain ⟨r, hge, hr, hrounding⟩ := h.edge_rounding (show index + 1 ≤ bins from hindex) hend
  obtain ⟨hfrom, hto⟩ := abs_le.mp hr
  push_cast at hfrom hto
  have hslip := h.slip_pos
  obtain ⟨hbin, -, hsamples, hsamples'⟩ := h.bin_bounds
  refine length_walkFrom count (fun t ht => ?_) (fun t ht => ?_) ?_
  · show a.position index t < a.edge (index + 1)
    obtain ⟨hfinite, hnear⟩ := h.position_near hindex t ht
    have hlast : (t : ℚ) + 1 ≤ count := by exact_mod_cast ht
    have hsteps : (t + 1) * a.bin.value ≤ count * a.bin.value :=
      mul_le_mul_of_nonneg_right hlast (by nlinarith)
    have hslips : (t + 1) * slip ≤ count * slip := mul_le_mul_of_nonneg_right hlast hslip.le
    have hbound : |r| ≤ 2 ^ 23 * slip := by
      have hoffset := h.offset_le_of_lt hindex
      exact h.abs_le_of_between hge (by linarith [h.step_ge])
    exact h.lt_of_add_lt hfinite hrounding hbound (by linarith [(abs_le.mp hnear).2])
  · show a.position index t < a.position index (t + 1)
    obtain ⟨hfinite, hnear⟩ := h.position_near hindex t (by omega)
    obtain ⟨hfinite', hnear'⟩ := h.position_near hindex (t + 1) ht
    have hlast : (t : ℚ) + 2 ≤ count := by exact_mod_cast ht
    have hslips : (t + 2) * slip ≤ count * slip := mul_le_mul_of_nonneg_right hlast hslip.le
    push_cast at hnear'
    rw [Binary.lt_iff_value_lt (Binary.ne_nan_of_isFinite hfinite)
      (Binary.ne_nan_of_isFinite hfinite')]
    linarith [(abs_le.mp hnear).2, (abs_le.mp hnear').1]
  · show ¬ a.position index count < a.edge (index + 1)
    obtain ⟨last, rfl⟩ := Nat.exists_eq_add_of_le' h.count_pos
    obtain ⟨hfinite, hnear⟩ := h.position_near hindex last (by omega)
    have hnext := Binary.isRounding_add hfinite h.bin_isFinite
    rw [position_succ, Binary.lt_iff_value_lt hnext.ne_nan hrounding.ne_nan, not_lt]
    push_cast at hbin hsamples'
    exact hrounding.mono hnext (by linarith [(abs_le.mp hnear).1])

end Spaced

end Axis

/-! ## Main result -/

namespace Region

/--
The samples of a region along axes that satisfy the precision condition. Each walk visits as many
positions as the ratio of its axis says, for every bin whose end is computed in range. So the
samples that are added up in a cell are as many as the number that the sum is divided by.
-/
theorem visits_announced (r : Region) (e : Extents) (hvertical : r.vertical.IsPrecise e.rows)
    (hhorizontal : r.horizontal.IsPrecise e.columns) :
    (∀ row < e.rows, r.vertical.EndsInRange e.rows row →
      ((walk (r.vertical.bounds row).1 (r.vertical.bounds row).2 r.vertical.bin).length : Int) =
        r.vertical.ratio) ∧
    (∀ column < e.columns, r.horizontal.EndsInRange e.columns column →
      ((walk (r.horizontal.bounds column).1 (r.horizontal.bounds column).2
        r.horizontal.bin).length : Int) = r.horizontal.ratio) ∧
    ∀ row < e.rows, ∀ column < e.columns, r.vertical.EndsInRange e.rows row →
      r.horizontal.EndsInRange e.columns column →
        r.samples.isFinite = true ∧ ((r.grid e row column).length : ℚ) = r.samples.value := by
  obtain ⟨n, hn, hnle, hspaced⟩ := hvertical.spaced
  obtain ⟨m, hm, hmle, hspaced'⟩ := hhorizontal.spaced
  refine ⟨fun row hrow hend => ?_, fun column hcolumn hend => ?_,
    fun row hrow column hcolumn hend hend' => ?_⟩
  · rw [hspaced.length_walk hrow hend, hn]
  · rw [hspaced'.length_walk hcolumn hend, hm]
  · have hlength : (r.grid e row column).length = n * m := by
      refine (length_flatMap_of_length _ _ m fun _ _ => ?_).trans ?_
      · rw [List.length_map, hspaced'.length_walk hcolumn hend']
      · rw [hspaced.length_walk hrow hend]
    have hproduct : n * m ≤ 2 ^ 11 * 2 ^ 11 := Nat.mul_le_mul hnle hmle
    have hsamples : r.samples = Binary.ofNat (n * m) := by
      rw [Region.samples, hn, hm, Binary.ofNat_eq_ofInt, Nat.cast_mul, mul_comm]
    obtain ⟨hfinite, hvalue⟩ := Single.ofNat_exact (n := n * m) (by omega)
    rw [hsamples, hlength, hvalue]
    exact ⟨hfinite, rfl⟩

/-- The two axes of the region over the quadrants satisfy the precision condition. -/
theorem quadrants_visits_announced :
    (Job.quadrants.region Job.quadrantExtents 0).vertical.IsPrecise Job.quadrantExtents.rows ∧
      (Job.quadrants.region Job.quadrantExtents 0).horizontal.IsPrecise
        Job.quadrantExtents.columns ∧
      ∀ row < 2, ∀ column < 2,
        (((Job.quadrants.region Job.quadrantExtents 0).grid Job.quadrantExtents row column).length :
          ℚ) = (Job.quadrants.region Job.quadrantExtents 0).samples.value := by
  have hvertical : (Job.quadrants.region Job.quadrantExtents 0).vertical.IsPrecise
      Job.quadrantExtents.rows := {
    exists_region := ⟨.ofNat 0, .ofNat 4, 2, by decide +kernel, by decide +kernel,
      by decide +kernel, by decide +kernel⟩
    bins_pos := by decide
    bins_le := by decide
    precise := by decide +kernel }
  -- The region is a square, so the two axes are the same.
  have hsquare : (Job.quadrants.region Job.quadrantExtents 0).horizontal =
      (Job.quadrants.region Job.quadrantExtents 0).vertical := by decide +kernel
  have hhorizontal : (Job.quadrants.region Job.quadrantExtents 0).horizontal.IsPrecise
      Job.quadrantExtents.columns := by
    rw [hsquare]
    exact hvertical
  have hstart : 0 ≤ (Job.quadrants.region Job.quadrantExtents 0).vertical.start.value := by
    decide +kernel
  refine ⟨hvertical, hhorizontal, ?_⟩
  intro row hrow column hcolumn
  obtain ⟨-, -, hcells⟩ := visits_announced _ _ hvertical hhorizontal
  refine (hcells row hrow column hcolumn (.inr (.inl hstart)) (.inr (.inl ?_))).2
  rw [hsquare]
  exact hstart

end Region

/-- The axis of a region from the least number of four bytes to zero, in 25 bins of one sample. -/
def Axis.fromLeast : Axis :=
  .ofRegion (.number true (Format.single.infinityIndex - 1) (by decide)) (.zero false) 25 1

/-- The precision condition alone does not make a walk right: the last bin of this axis ends at
infinity, and its walk goes on after the one announced sample. -/
theorem Axis.fromLeast_visits_more :
    fromLeast.IsPrecise 25 ∧ fromLeast.ratio = 1 ∧
      ((walk (fromLeast.bounds 24).1 (fromLeast.bounds 24).2 fromLeast.bin).length : Int) ≠
        fromLeast.ratio := by
  have hprecise : fromLeast.IsPrecise 25 := {
    exists_region := ⟨_, _, _, by decide +kernel, by decide +kernel, by decide +kernel, rfl⟩
    bins_pos := by decide
    bins_le := by decide
    precise := by decide +kernel }
  have hratio : fromLeast.ratio = 1 := by decide +kernel
  have hfirst : fromLeast.position 24 0 < fromLeast.edge 25 := by decide +kernel
  have hascends : fromLeast.position 24 0 < fromLeast.position 24 1 := by decide +kernel
  have hsecond : fromLeast.position 24 1 < fromLeast.edge 25 := by decide +kernel
  refine ⟨hprecise, hratio, ?_⟩
  have hlength : 2 ≤ (walk (fromLeast.bounds 24).1 (fromLeast.bounds 24).2
      fromLeast.bin).length := by
    show 2 ≤ (walkFrom (fromLeast.edge 25) fromLeast.bin (fromLeast.position 24 0)).length
    rw [walkFrom, if_pos hfirst, ← position_succ]
    dsimp only
    rw [if_pos hascends, walkFrom, if_pos hsecond]
    simp only [List.length_cons]
    omega
  rw [hratio]
  omega

end RegionPooling
