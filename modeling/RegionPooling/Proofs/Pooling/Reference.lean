import Mathlib.Algebra.BigOperators.Group.Finset.Basic
import RegionPooling.Proofs.Binary.Dyadic
import RegionPooling.Proofs.Pooling.Mean

/-!
# Pooling without rounding

The reference for a cell is a rational number: the mean, over the sample points of the cell,
of the map interpolated at the point after it has been moved into the map. It knows neither
corners nor walks.

Where all sizes are powers of two and all numbers have few enough bits, a run computes this
number. With integer coordinates every position is a multiple of some `2 ^ -m`, every weight
one of `4 ^ -m`, and the hypotheses of `Job.IsDyadic` are that these multiples, and the sums of
the weighted pixels, have no more than 24 bits.

Main results:

* `Corners.around_exact` — corners interpolate at the point moved into the map.
* `DyadicAxis.walk_exact` — a walk visits the sample points of its bin, and no others.
* `Job.align_eq_reference` — every number of the output is its reference.
-/

namespace RegionPooling

open Single (Exact Fits IsMultiple)

/-! ## The reference -/

namespace Reference

/-- A sample point of a bin: `t + 1 / 2` sample distances after the beginning of the bin. -/
def point (start stop : ℚ) (bins ratio index t : Nat) : ℚ :=
  let extent := max (stop - start) 1
  let step := extent / bins
  let bin := step / ratio
  start + step * index + bin * (t + 1 / 2)

/-- The nearest point of an axis of this length. -/
def clampTo (length : Nat) (q : ℚ) : ℚ := max 0 (min q (length - 1))

/-- Linear interpolation between neighbouring numbers, at a point that is not negative. -/
def linear (f : Nat → ℚ) (q : ℚ) : ℚ :=
  (1 - Int.fract q) * f ⌊q⌋.toNat + Int.fract q * f (⌊q⌋.toNat + 1)

/-- Interpolation in a map, first along the rows, then between them. -/
def interpolate (f : Nat → Nat → ℚ) (y x : ℚ) : ℚ := linear (fun row => linear (f row) x) y

theorem linear_natCast (f : Nat → ℚ) (n : Nat) : linear f n = f n := by
  simp [linear]

end Reference

namespace Job

/-- The feature map of a site in rational numbers. -/
def pixelValue (job : Job) (e : Extents) (site : Site) (row column : Nat) : ℚ :=
  (job.pixel e (job.batchOf e site.region) row column site.channel).value

open Reference in
/-- The map interpolated at a sample point of a cell, after moving the point into the map. -/
def referenceAt (job : Job) (e : Extents) (ratio : Nat) (site : Site) (t u : Nat) : ℚ :=
  let coordinate (place : Nat) : ℚ := (job.coordinate e site.region place).value
  interpolate (job.pixelValue e site)
    (clampTo e.height (point (coordinate 1) (coordinate 3) e.rows ratio site.row t))
    (clampTo e.width (point (coordinate 0) (coordinate 2) e.columns ratio site.column u))

/-- The mean of the interpolated map over the sample points of a cell. -/
def reference (job : Job) (e : Extents) (ratio : Nat) (site : Site) : ℚ :=
  (∑ t ∈ Finset.range ratio, ∑ u ∈ Finset.range ratio, job.referenceAt e ratio site t u)
    / (ratio * ratio)

end Job

open Reference

/-! ## Interpolation -/

/-- Corners that interpolate as the reference does at a point, with a fraction of `k` bits. -/
structure Corners.Agree (c : Corners) (k : Nat) (q : ℚ) : Prop where
  isFinite : c.fraction.isFinite = true
  isMultiple : IsMultiple k c.fraction.value
  nonneg : 0 ≤ c.fraction.value
  le_one : c.fraction.value ≤ 1
  linear_eq (f : Nat → ℚ) :
    (1 - c.fraction.value) * f c.lower + c.fraction.value * f c.upper = linear f q

theorem Corners.agree_of_zero {c : Corners} (k : Nat) (h : c.fraction = .zero false) {q : ℚ}
    (hq : q = c.lower) : c.Agree k q where
  isFinite := by rw [h]; rfl
  isMultiple := by
    rw [h, Binary.value_zero]
    exact_mod_cast IsMultiple.intCast k 0
  nonneg := by rw [h, Binary.value_zero]
  le_one := by
    rw [h, Binary.value_zero]
    exact zero_le_one
  linear_eq f := by rw [h, Binary.value_zero, hq, linear_natCast]; ring

/-- The cases of `Corners.around` are those of the point that is moved into the map: before the
first pixel, past the last one, and between two. -/
theorem Corners.around_exact {position : Single} {q : ℚ} {k : Nat} (h : Exact position q)
    (hq : IsMultiple k q) (hk : k ≤ 24) {length : Nat} (hpos : 0 < length)
    (hlt : length < addressable) :
    (Corners.around position length).Agree k (clampTo length q) := by
  obtain ⟨hfloor, hvalue⟩ := Single.value_floor h.isFinite
  rw [h.value_eq] at hvalue
  have hlength : (1 : ℚ) ≤ length := by exact_mod_cast hpos
  have hclamp := Single.clampToInt_eq_max 0 0xFFFFFFFFFFFFFFFF hfloor hvalue
  have hsign : position.floor < .zero false ↔ ⌊q⌋ < 0 := by
    rw [Binary.lt_iff_value_lt (Binary.ne_nan_of_isFinite hfloor) (Binary.zero_ne_nan _),
      Binary.value_zero, hvalue]
    exact_mod_cast Iff.rfl
  have hsub : ((length - 1 : Nat) : ℚ) = length - 1 := by
    rw [Nat.cast_sub hpos, Nat.cast_one]
  -- The floor of the position is that of the point, so the cases are those of `⌊q⌋`.
  simp only [around]
  split_ifs with hbelow hlast
  · -- Before the first pixel.
    refine agree_of_zero k rfl ?_
    have hneg : q < 0 := Int.floor_lt_zero.mp (hsign.mp hbelow)
    rw [clampTo, min_eq_left (by linarith), max_eq_left hneg.le]
    exact Nat.cast_zero.symm
  · -- From the last pixel on.
    refine agree_of_zero k rfl ?_
    rw [hsign] at hbelow
    rw [hclamp] at hlast
    have hle : ((length - 1 : Nat) : Int) ≤ ⌊q⌋ := by omega
    have hle : (length : ℚ) - 1 ≤ q := by
      rw [← hsub]
      exact_mod_cast Int.le_floor.mp hle
    rw [clampTo, min_eq_right hle, max_eq_right (by linarith)]
    exact hsub.symm
  · -- Between two pixels.
    rw [hsign, not_lt] at hbelow
    rw [hclamp] at hlast ⊢
    unfold addressable at hlt
    have hfloorlt : ⌊q⌋ < ((length - 1 : Nat) : Int) := by omega
    have hqlt : q < length - 1 := by
      rw [← hsub]
      exact_mod_cast Int.floor_lt.mp hfloorlt
    have hindex : (max 0 (min 0xFFFFFFFFFFFFFFFF ⌊q⌋)).toNat = ⌊q⌋.toNat := by omega
    have hfract : Exact (position - position.floor) (Int.fract q) := by
      exact h.sub ⟨hfloor, hvalue⟩ ((hq.sub (.intCast k ⌊q⌋)).fits_of_le_one hk
        (Int.fract_nonneg q) (Int.fract_lt_one q).le)
    rw [clampTo, min_eq_left hqlt.le, max_eq_right (Int.floor_nonneg.mp hbelow), hindex]
    exact {
      isFinite := hfract.isFinite
      isMultiple := by
        rw [hfract.value_eq]
        exact hq.sub (.intCast k ⌊q⌋)
      nonneg := by
        rw [hfract.value_eq]
        exact Int.fract_nonneg q
      le_one := by
        rw [hfract.value_eq]
        exact (Int.fract_lt_one q).le
      linear_eq := fun f => by rw [hfract.value_eq, linear] }

/-- A weight of `k` bits that is computed without rounding. -/
structure ExactWeight (k : Nat) (w : Single) (a : ℚ) : Prop where
  exact : Exact w a
  isMultiple : IsMultiple k a
  nonneg : 0 ≤ a
  le_one : a ≤ 1

namespace ExactWeight

variable {k : Nat} {u v w : Single} {a b : ℚ}

theorem complement (h : ExactWeight k w a) (hk : k ≤ 24) :
    ExactWeight k (Binary.ofNat 1 - w) (1 - a) := by
  have hmultiple : IsMultiple k (1 - a) := by
    have hone : IsMultiple k 1 := by exact_mod_cast IsMultiple.intCast k 1
    exact hone.sub h.isMultiple
  have hnonneg : 0 ≤ 1 - a := sub_nonneg.mpr h.le_one
  have hle : 1 - a ≤ 1 := sub_le_self 1 h.nonneg
  exact ⟨Single.exact_one.sub h.exact (hmultiple.fits_of_le_one hk hnonneg hle), hmultiple,
    hnonneg, hle⟩

theorem mul (hu : ExactWeight k u a) (hv : ExactWeight k v b) (hk : k + k ≤ 24) :
    ExactWeight (k + k) (u * v) (a * b) := by
  have hmultiple := hu.isMultiple.mul hv.isMultiple
  have hnonneg := mul_nonneg hu.nonneg hv.nonneg
  have hle := mul_le_one₀ hu.le_one hv.nonneg hv.le_one
  exact ⟨hu.exact.mul hv.exact (hmultiple.fits_of_le_one hk hnonneg hle), hmultiple, hnonneg, hle⟩

/-- A weighted whole number that has enough room. -/
theorem mul_exact (h : ExactWeight k w a) (hk : k ≤ 149) {p : Single} {c : ℚ}
    (hp : p.isFinite = true ∧ IsMultiple 0 p.value ∧ |p.value| ≤ c) (hc : c * 2 ^ k ≤ 2 ^ 24) :
    Exact (w * p) (a * p.value) ∧ IsMultiple k (a * p.value) := by
  obtain ⟨hfinite, hmultiple, hle⟩ := hp
  have hproduct : IsMultiple k (a * p.value) := h.isMultiple.mul hmultiple
  refine ⟨h.exact.mul ⟨hfinite, rfl⟩ (hproduct.fits hk ?_ hc), hproduct⟩
  rw [abs_mul, abs_of_nonneg h.nonneg]
  calc a * |p.value| ≤ 1 * c := mul_le_mul h.le_one hle (abs_nonneg _) zero_le_one
    _ = c := one_mul c

end ExactWeight

/-- Corners that agree with a point interpolate at it, without rounding. -/
theorem Job.interpolated_exact {job : Job} {e : Extents} {batch channel : Nat} {y x : Corners}
    {k : Nat} {qy qx c : ℚ} (hy : y.Agree k qy) (hx : x.Agree k qx) (hk : k + k ≤ 24)
    (h : job.AllPixels e batch y x channel fun p =>
      p.isFinite = true ∧ IsMultiple 0 p.value ∧ |p.value| ≤ c)
    (hc : c * 2 ^ (k + k) ≤ 2 ^ 24) :
    let exact := interpolate (fun row column => (job.pixel e batch row column channel).value) qy qx
    Exact (job.interpolated e batch y x channel) exact ∧ IsMultiple (k + k) exact ∧
      |exact| ≤ c := by
  obtain ⟨hp, hq, hr, hs⟩ := h
  -- Corner by corner the reference is the sum of the four weighted pixels.
  have hexact : interpolate (fun row column => (job.pixel e batch row column channel).value) qy qx =
      job.blended e batch y x channel := by
    rw [interpolate, ← hy.linear_eq]
    simp only [← hx.linear_eq]
    unfold Job.blended Single.bilinear
    ring
  intro exact
  rw [show exact = _ from hexact]
  have hright : ExactWeight k x.fraction x.fraction.value :=
    ⟨⟨hx.isFinite, rfl⟩, hx.isMultiple, hx.nonneg, hx.le_one⟩
  have hbottom : ExactWeight k y.fraction y.fraction.value :=
    ⟨⟨hy.isFinite, rfl⟩, hy.isMultiple, hy.nonneg, hy.le_one⟩
  have hleft := hright.complement (by omega)
  have htop := hbottom.complement (by omega)
  have hk' : k + k ≤ 149 := by omega
  obtain ⟨hetl, hmtl⟩ := (hleft.mul htop hk).mul_exact hk' hp hc
  obtain ⟨hetr, hmtr⟩ := (hright.mul htop hk).mul_exact hk' hq hc
  obtain ⟨hebl, hmbl⟩ := (hleft.mul hbottom hk).mul_exact hk' hr hc
  obtain ⟨hebr, hmbr⟩ := (hright.mul hbottom hk).mul_exact hk' hs hc
  obtain ⟨htwo, hthree, hfour⟩ := Single.abs_bilinear_le ⟨hx.nonneg, hx.le_one⟩
    ⟨hy.nonneg, hy.le_one⟩ hp.2.2 hq.2.2 hr.2.2 hs.2.2
  -- All partial sums are on the grid of the products and within the range of the pixels.
  have hmtwo := hmtl.add hmtr
  have hmthree := hmtwo.add hmbl
  have hmfour := hmthree.add hmbr
  have hesum := ((hetl.add hetr (hmtwo.fits hk' htwo hc)).add hebl
    (hmthree.fits hk' hthree hc)).add hebr (hmfour.fits hk' hfour hc)
  exact ⟨hesum, hmfour, hfour⟩

/-! ## Walks -/

/-- A walk whose positions all fit visits them, and ends with the last one below its end. -/
theorem walkFrom_exact {stop step : Single} {limit d : ℚ} (hstop : Exact stop limit)
    (hstep : Exact step d) (hd : 0 < d) (n : Nat) {position : Single} {p : ℚ}
    (hposition : Exact position p) (hbelow : ∀ t < n, p + t * d < limit)
    (hend : limit ≤ p + n * d) (hfits : ∀ t ≤ n, Fits (p + t * d)) :
    List.Forall₂ Exact (walkFrom stop step position)
      ((List.range n).map fun t : Nat => p + t * d) := by
  -- On the number of positions that are left, each step moving the first of them.
  induction n generalizing position p with
  | zero =>
    have hnot : ¬ position < stop := by
      rw [hposition.lt_iff hstop, not_lt]
      simpa using hend
    rw [walkFrom, if_neg hnot]
    exact .nil
  | succ n ih =>
    have hlt : position < stop := by
      rw [hposition.lt_iff hstop]
      simpa using hbelow 0 (Nat.succ_pos n)
    have hnext : Exact (position + step) (p + d) := by
      refine hposition.add hstep ?_
      simpa using hfits 1 (Nat.succ_le_succ (Nat.zero_le n))
    -- The step is not lost, so the walk goes on.
    have hascend : position < position + step := by
      rw [hposition.lt_iff hnext]
      linarith
    have hshift (t : Nat) : p + d + t * d = p + (t + 1 : Nat) * d := by
      push_cast
      ring
    rw [walkFrom, if_pos hlt]
    simp only [if_pos hascend, List.range_succ_eq_map, List.map_cons, List.map_map]
    refine .cons (by simpa using hposition) ?_
    have hrest := ih hnext (fun t ht => by rw [hshift]; exact hbelow _ (Nat.succ_lt_succ ht))
      (by rw [hshift]; exact hend) (fun t ht => by rw [hshift]; exact hfits _ (Nat.succ_le_succ ht))
    simpa only [Function.comp_def, hshift, Nat.succ_eq_add_one] using hrest

/-! ## One axis -/

/-- The two ends of a region along one axis are whole numbers that leave room for `m` bits
behind the point, and the bins and samples of the axis need no more of them. -/
structure DyadicAxis (m a s : Nat) (start stop : Single) (first last : Int) : Prop where
  bits_le : m ≤ 12
  layout_le : a + s + 1 ≤ m
  start_exact : Exact start first
  stop_exact : Exact stop last
  start_le : |first| ≤ 2 ^ (22 - m)
  stop_le : |last| ≤ 2 ^ (22 - m)

namespace DyadicAxis

variable {m a s : Nat} {start stop : Single} {first last : Int}

/-- The extent of the region. -/
def extent (first last : Int) : ℚ := max ((last : ℚ) - first) 1

theorem extent_eq (first last : Int) : extent first last = (max (last - first) 1 : Int) := by
  unfold extent
  push_cast
  rfl

theorem one_le_extent (first last : Int) : 1 ≤ extent first last := le_max_right _ _

theorem one_le_room (m : Nat) : (1 : ℚ) ≤ 2 ^ (22 - m) := one_le_pow₀ (by norm_num)

theorem room_eq (h : m ≤ 12) : (2 : ℚ) ^ (24 - m) = 4 * 2 ^ (22 - m) := by
  rw [show 24 - m = 2 + (22 - m) by omega, pow_add]
  norm_num

theorem abs_start_le (h : DyadicAxis m a s start stop first last) : |(first : ℚ)| ≤ 2 ^ (22 - m) := by
  exact_mod_cast h.start_le

theorem abs_stop_le (h : DyadicAxis m a s start stop first last) : |(last : ℚ)| ≤ 2 ^ (22 - m) := by
  exact_mod_cast h.stop_le

theorem extent_le (h : DyadicAxis m a s start stop first last) :
    extent first last ≤ 2 * 2 ^ (22 - m) := by
  have hfrom := abs_le.mp h.abs_start_le
  have hto := abs_le.mp h.abs_stop_le
  exact max_le (by linarith) (by linarith [one_le_room m])

/-- What is a multiple of `2 ^ -m` and not out of the region by more than its size fits. -/
theorem fits (h : DyadicAxis m a s start stop first last) {q : ℚ} (hq : IsMultiple m q)
    (hle : |q| ≤ 4 * 2 ^ (22 - m)) : Fits q := by
  have hm := h.bits_le
  exact hq.fits_of_le (by omega) (by rwa [room_eq hm])

theorem extent_exact (h : DyadicAxis m a s start stop first last) :
    Exact ((stop - start).max (Binary.ofNat 1)) (extent first last) := by
  refine Exact.max (h.stop_exact.sub h.start_exact (h.fits ?_ ?_)) Single.exact_one
  · exact (IsMultiple.intCast m last).sub (.intCast m first)
  · have hfrom := abs_le.mp h.abs_start_le
    have hto := abs_le.mp h.abs_stop_le
    exact abs_le.mpr ⟨by linarith, by linarith⟩

theorem step_isMultiple (first last : Int) (a : Nat) : IsMultiple a (extent first last / 2 ^ a) := by
  rw [extent_eq]
  simpa using (IsMultiple.intCast 0 (max (last - first) 1)).div_two_pow a

theorem bin_isMultiple (first last : Int) (a s : Nat) :
    IsMultiple (a + s) (extent first last / 2 ^ a / 2 ^ s) :=
  (step_isMultiple first last a).div_two_pow s

theorem half_isMultiple (first last : Int) (a s : Nat) :
    IsMultiple (a + s + 1) (extent first last / 2 ^ a / 2 ^ s / 2) := by
  simpa using (bin_isMultiple first last a s).div_two_pow 1

/-- What an extent is divided by powers of two stays within it. -/
theorem div_two_pow_le {q : ℚ} (hq : 0 ≤ q) (k : Nat) : 0 ≤ q / 2 ^ k ∧ q / 2 ^ k ≤ q :=
  ⟨by positivity, div_le_self hq (one_le_pow₀ (by norm_num))⟩

theorem ofNat_two_pow_exact {k : Nat} (hk : k ≤ 24) : Exact (Binary.ofNat (2 ^ k)) (2 ^ k) := by
  exact_mod_cast Single.exact_ofNat (n := 2 ^ k) (Nat.pow_le_pow_right (by decide) hk)

variable {samplingRatio : Int32}

theorem ratio_eq (start stop : Single) (bins : Nat) (hratio : samplingRatio.toInt = 2 ^ s) :
    (Axis.ofRegion start stop bins samplingRatio).ratio = 2 ^ s := by
  have hpos : 0 < samplingRatio := by
    rw [Int32.lt_iff_toInt_lt, hratio]
    exact pow_pos (by norm_num) s
  simp only [Axis.ofRegion, if_pos hpos, hratio]

theorem step_exact (h : DyadicAxis m a s start stop first last) :
    Exact (Axis.ofRegion start stop (2 ^ a) samplingRatio).step (extent first last / 2 ^ a) := by
  have hm := h.bits_le
  have ha := h.layout_le
  have hle := h.extent_le
  obtain ⟨hnonneg, hself⟩ := div_two_pow_le
    (zero_le_one.trans (one_le_extent first last)) a
  refine h.extent_exact.div (ofNat_two_pow_exact (by omega)) (by positivity)
    (h.fits ((step_isMultiple first last a).mono (by omega)) ?_)
  rw [abs_of_nonneg hnonneg]
  linarith [one_le_room m]

theorem bin_exact (h : DyadicAxis m a s start stop first last)
    (hratio : samplingRatio.toInt = 2 ^ s) :
    Exact (Axis.ofRegion start stop (2 ^ a) samplingRatio).bin
      (extent first last / 2 ^ a / 2 ^ s) := by
  have hm := h.bits_le
  have ha := h.layout_le
  have hle := h.extent_le
  obtain ⟨hnonneg, hself⟩ := div_two_pow_le (zero_le_one.trans (one_le_extent first last)) a
  obtain ⟨hnonneg', hself'⟩ := div_two_pow_le hnonneg s
  have hdivisor : Exact (Binary.ofInt (2 ^ s)) (2 ^ s) := by
    have hsize : |((2 : Int) ^ s)| ≤ 2 ^ 24 := by
      rw [abs_of_nonneg (by positivity)]
      exact pow_le_pow_right₀ (by norm_num) (by omega)
    exact_mod_cast Single.exact_ofInt hsize
  -- The ratio of the axis is the one asked for, as that is positive.
  have hbin : (Axis.ofRegion start stop (2 ^ a) samplingRatio).bin =
      (Axis.ofRegion start stop (2 ^ a) samplingRatio).step / Binary.ofInt (2 ^ s) := by
    rw [← ratio_eq start stop (2 ^ a) hratio]
    rfl
  rw [hbin]
  refine h.step_exact.div hdivisor (by positivity)
    (h.fits ((bin_isMultiple first last a s).mono (by omega)) ?_)
  rw [abs_of_nonneg hnonneg']
  linarith [one_le_room m]

theorem edge_exact (h : DyadicAxis m a s start stop first last) {index : Nat} (hindex : index ≤ 2 ^ a) :
    Exact ((Axis.ofRegion start stop (2 ^ a) samplingRatio).edge index)
      (extent first last / 2 ^ a * index + first) := by
  have hm := h.bits_le
  have ha := h.layout_le
  have hle := h.extent_le
  have hfrom := abs_le.mp h.abs_start_le
  have hroom := one_le_room m
  -- All edges lie between the ends of the region.
  have hindex' : (index : ℚ) ≤ 2 ^ a := by exact_mod_cast hindex
  have hpos : (0 : ℚ) < 2 ^ a := by positivity
  have hextent : 0 ≤ extent first last := zero_le_one.trans (one_le_extent first last)
  have hnonneg : 0 ≤ extent first last / 2 ^ a * index := by positivity
  have hself : extent first last / 2 ^ a * index ≤ extent first last := by
    calc extent first last / 2 ^ a * index ≤ extent first last / 2 ^ a * 2 ^ a := by gcongr
      _ = extent first last := div_mul_cancel₀ _ hpos.ne'
  have hmultiple : IsMultiple m (extent first last / 2 ^ a * index) := by
    exact_mod_cast ((step_isMultiple first last a).mono (by omega)).mul_int (index : Int)
  have hnumber : Exact (Binary.ofNat index) (index : ℚ) := by
    refine Single.exact_ofNat (hindex.trans ?_)
    exact Nat.pow_le_pow_right (by decide) (by omega)
  refine (h.step_exact.mul hnumber (h.fits hmultiple ?_)).add h.start_exact
    (h.fits (hmultiple.add (.intCast m first)) ?_)
  · rw [abs_of_nonneg hnonneg]
    linarith
  · exact abs_le.mpr ⟨by linarith, by linarith⟩

/-- The sample points of a bin, counted from the beginning of the bin. -/
theorem point_eq (first last : Int) (a s index t : Nat) :
    point first last (2 ^ a) (2 ^ s) index t =
      extent first last / 2 ^ a * index + first + extent first last / 2 ^ a / 2 ^ s / 2 +
        t * (extent first last / 2 ^ a / 2 ^ s) := by
  unfold point
  push_cast
  rw [show max ((last : ℚ) - first) 1 = extent first last from rfl]
  ring

theorem point_isMultiple (h : DyadicAxis m a s start stop first last) (index t : Nat) :
    IsMultiple m (point first last (2 ^ a) (2 ^ s) index t) := by
  have ha := h.layout_le
  have hstep : IsMultiple m (extent first last / 2 ^ a * index) := by
    exact_mod_cast ((step_isMultiple first last a).mono (by omega)).mul_int (index : Int)
  have hbin : IsMultiple m (t * (extent first last / 2 ^ a / 2 ^ s)) := by
    rw [mul_comm]
    exact_mod_cast ((bin_isMultiple first last a s).mono (by omega)).mul_int (t : Int)
  rw [point_eq]
  exact ((hstep.add (.intCast m first)).add
    ((half_isMultiple first last a s).mono (by omega))).add hbin

/-- The sample points of a bin, and the one after them, leave the region by no more than half
of its extent. -/
theorem abs_point_le (h : DyadicAxis m a s start stop first last) {index t : Nat}
    (hindex : index < 2 ^ a) (ht : t ≤ 2 ^ s) :
    |point first last (2 ^ a) (2 ^ s) index t| ≤ 4 * 2 ^ (22 - m) := by
  have hle := h.extent_le
  have hfirst := abs_le.mp h.abs_start_le
  have hextent : 0 ≤ extent first last := zero_le_one.trans (one_le_extent first last)
  obtain ⟨hstep, hstep'⟩ := div_two_pow_le hextent a
  obtain ⟨hbin, hbin'⟩ := div_two_pow_le hstep s
  have hindex' : (index : ℚ) + 1 ≤ 2 ^ a := by exact_mod_cast hindex
  have ht' : (t : ℚ) ≤ 2 ^ s := by exact_mod_cast ht
  have hbefore : extent first last / 2 ^ a * index ≤
      extent first last - extent first last / 2 ^ a := by
    calc extent first last / 2 ^ a * index ≤ extent first last / 2 ^ a * (2 ^ a - 1) := by
          gcongr
          linarith
      _ = extent first last - extent first last / 2 ^ a := by
          rw [mul_sub, div_mul_cancel₀ _ (by positivity), mul_one]
  have hwithin : t * (extent first last / 2 ^ a / 2 ^ s) ≤ extent first last / 2 ^ a := by
    calc t * (extent first last / 2 ^ a / 2 ^ s)
        ≤ 2 ^ s * (extent first last / 2 ^ a / 2 ^ s) := by gcongr
      _ = extent first last / 2 ^ a := mul_div_cancel₀ _ (by positivity)
  have hnonneg : 0 ≤ extent first last / 2 ^ a * index := by positivity
  have hnonneg' : 0 ≤ t * (extent first last / 2 ^ a / 2 ^ s) := by positivity
  rw [point_eq]
  exact abs_le.mpr ⟨by linarith, by linarith⟩

/-- A walk visits the sample points of its bin. -/
theorem walk_exact (h : DyadicAxis m a s start stop first last)
    (hratio : samplingRatio.toInt = 2 ^ s) {index : Nat} (hindex : index < 2 ^ a) :
    let axis := Axis.ofRegion start stop (2 ^ a) samplingRatio
    List.Forall₂ Exact (walk (axis.edge index) (axis.edge (index + 1)) axis.bin)
      ((List.range (2 ^ s)).map (point first last (2 ^ a) (2 ^ s) index)) := by
  intro axis
  have ha := h.layout_le
  have hextent : 0 < extent first last := zero_lt_one.trans_le (one_le_extent first last)
  have hbin : Exact axis.bin (extent first last / 2 ^ a / 2 ^ s) := h.bin_exact hratio
  have hedge : Exact (axis.edge index) (extent first last / 2 ^ a * index + first) :=
    h.edge_exact hindex.le
  have hedge' : Exact (axis.edge (index + 1))
      (extent first last / 2 ^ a * (index + 1 : Nat) + first) := h.edge_exact hindex
  have hfits (t : Nat) (ht : t ≤ 2 ^ s) : Fits (extent first last / 2 ^ a * index + first +
      extent first last / 2 ^ a / 2 ^ s / 2 + t * (extent first last / 2 ^ a / 2 ^ s)) := by
    rw [← point_eq]
    exact h.fits (h.point_isMultiple index t) (h.abs_point_le hindex ht)
  have hposition : Exact (firstPosition (axis.edge index) axis.bin)
      (extent first last / 2 ^ a * index + first + extent first last / 2 ^ a / 2 ^ s / 2) := by
    have htwo : Exact (Binary.ofNat 2) 2 := by
      exact_mod_cast Single.exact_ofNat (n := 2) (by decide)
    have hhalf : |extent first last / 2 ^ a / 2 ^ s / 2| ≤ 4 * 2 ^ (22 - m) := by
      obtain ⟨hstep, hstep'⟩ := div_two_pow_le hextent.le a
      obtain ⟨hbin, hbin'⟩ := div_two_pow_le hstep s
      rw [abs_of_nonneg (by positivity)]
      linarith [h.extent_le, one_le_room m]
    refine hedge.add (hbin.div htwo (by norm_num)
      (h.fits ((half_isMultiple first last a s).mono (by omega)) hhalf)) ?_
    simpa using hfits 0 (Nat.zero_le _)
  have hpos : 0 < extent first last / 2 ^ a / 2 ^ s := by positivity
  have hwidth : extent first last / 2 ^ a =
      (2 ^ s : Nat) * (extent first last / 2 ^ a / 2 ^ s) := by
    push_cast
    exact (mul_div_cancel₀ _ (by positivity)).symm
  -- The last sample point is half a sample distance before the end of the bin, the next one as
  -- much behind it.
  have hwalk := walkFrom_exact hedge' hbin hpos (2 ^ s) hposition ?_ ?_ hfits
  · simp only [← point_eq] at hwalk
    exact hwalk
  · intro t ht
    have ht' : (t : ℚ) + 1 ≤ (2 ^ s : Nat) := by exact_mod_cast ht
    have hnext := mul_le_mul_of_nonneg_right ht' hpos.le
    rw [← hwidth] at hnext
    push_cast
    linarith
  · rw [← hwidth]
    push_cast
    linarith

end DyadicAxis

/-! ## The run -/

theorem sum_range_eq (n : Nat) (f : Nat → ℚ) :
    ((List.range n).map f).sum = ∑ t ∈ Finset.range n, f t := rfl

theorem sum_grid_eq (n k : Nat) (f : Nat → Nat → ℚ) :
    ((List.range n).flatMap fun t => (List.range k).map (f t)).sum =
      ∑ t ∈ Finset.range n, ∑ u ∈ Finset.range k, f t u := by
  rw [List.flatMap_def, List.sum_flatten, List.map_map]
  exact sum_range_eq n _

namespace Job

/--
The sizes of the run are powers of two, its coordinates and the numbers of its map are whole,
and `m` bits behind the point are enough for the positions and leave room for the sums.
-/
structure IsDyadic (job : Job) (e : Extents) (m s a b : Nat) : Prop where
  bits_le : m ≤ 12
  scale : job.sampling.spatialScale = Binary.ofNat 1
  ratio : job.sampling.samplingRatio.toInt = 2 ^ s
  rows : e.rows = 2 ^ a
  columns : e.columns = 2 ^ b
  rows_le : a + s + 1 ≤ m
  columns_le : b + s + 1 ≤ m
  coordinate : ∀ region < e.regions, ∀ place < 4,
    ∃ n : Int, Exact (job.coordinate e region place) n ∧ |n| ≤ 2 ^ (22 - m)
  pixel : ∀ x ∈ job.input.data,
    ∃ p : Int, Exact x p ∧ |p| * (2 ^ s) ^ 2 * 4 ^ m ≤ 2 ^ 24

variable {job : Job} {output : Array Single} {e : Extents} {site : Site} {m s a b : Nat}

/-- A pair of coordinates of a record, scaled. -/
theorem IsDyadic.exists_axis (h : job.IsDyadic e m s a b) {region : Nat}
    (hregion : region < e.regions) (place place' : Nat) (hplace : place < 4)
    (hplace' : place' < 4) {bins : Nat} (hbins : bins + s + 1 ≤ m) :
    ∃ first last : Int,
      DyadicAxis m bins s (job.coordinate e region place * job.sampling.spatialScale)
        (job.coordinate e region place' * job.sampling.spatialScale) first last ∧
      (job.coordinate e region place).value = first ∧
      (job.coordinate e region place').value = last := by
  have hm := h.bits_le
  -- A scale of one changes nothing.
  have hscaled {x : Single} {n : Int} (hx : Exact x n) (hn : |n| ≤ 2 ^ (22 - m)) :
      Exact (x * job.sampling.spatialScale) n := by
    have hsize : |(n : ℚ)| ≤ 2 ^ (24 - 0) := by
      have hn : |(n : ℚ)| ≤ 2 ^ (22 - m) := by exact_mod_cast hn
      exact hn.trans (pow_le_pow_right₀ (by norm_num) (by omega))
    have hproduct := hx.mul Single.exact_one (by
      rw [mul_one]
      exact (IsMultiple.intCast 0 n).fits_of_le (by decide) hsize)
    rwa [mul_one, ← h.scale] at hproduct
  obtain ⟨first, hfirst, hfirst'⟩ := h.coordinate region hregion place hplace
  obtain ⟨last, hlast, hlast'⟩ := h.coordinate region hregion place' hplace'
  exact ⟨first, last, ⟨hm, hbins, hscaled hfirst hfirst', hscaled hlast hlast', hfirst', hlast'⟩,
    hfirst.value_eq, hlast.value_eq⟩

/-- The bound of a pixel that leaves room for the sum of all samples. -/
def pixelBound (m s : Nat) : ℚ := 2 ^ 24 / ((2 ^ s) ^ 2 * 4 ^ m)

theorem sum_pixelBound (m s : Nat) : (2 ^ s) ^ 2 * pixelBound m s * 2 ^ (m + m) = 2 ^ 24 := by
  have hfour : (2 : ℚ) ^ (m + m) = 4 ^ m := by
    rw [← two_mul, pow_mul]
    norm_num
  rw [pixelBound, hfour]
  field_simp

theorem pixelBound_le (m s : Nat) : pixelBound m s * 2 ^ (m + m) ≤ 2 ^ 24 := by
  have hcount : (1 : ℚ) ≤ (2 ^ s) ^ 2 := one_le_pow₀ (one_le_pow₀ (by norm_num))
  have hnonneg : 0 ≤ pixelBound m s * 2 ^ (m + m) := by
    unfold pixelBound
    positivity
  rw [← sum_pixelBound m s, mul_assoc]
  exact le_mul_of_one_le_left hnonneg hcount

/-- What is known of an interpolated value: its reference, the grid and the range of both. -/
def IsSample (m s : Nat) (x : Single) (q : ℚ) : Prop :=
  Exact x q ∧ IsMultiple (m + m) q ∧ |q| ≤ pixelBound m s

/-- The interpolated value at a position of few bits. -/
theorem IsDyadic.isSample (h : job.IsDyadic e m s a b) (hcheck : job.check output = .ok e)
    (hsite : site.Within e) {y x : Single} {qy qx : ℚ} (hy : Exact y qy)
    (hqy : IsMultiple m qy) (hx : Exact x qx) (hqx : IsMultiple m qx) :
    IsSample m s
      (job.interpolated e (job.batchOf e site.region) (.around y e.height) (.around x e.width)
        site.channel)
      (interpolate (job.pixelValue e site) (clampTo e.height qy) (clampTo e.width qx)) := by
  have hm := h.bits_le
  have hsizes := addressed_of_within hcheck hsite
  have hmap : ∀ p ∈ job.input.data,
      p.isFinite = true ∧ IsMultiple 0 p.value ∧ |p.value| ≤ pixelBound m s := by
    intro p hp
    obtain ⟨n, hn, hle⟩ := h.pixel p hp
    have hle : |(n : ℚ)| * (2 ^ s) ^ 2 * 4 ^ m ≤ 2 ^ 24 := by exact_mod_cast hle
    rw [hn.value_eq]
    refine ⟨hn.isFinite, .intCast 0 n, ?_⟩
    rw [pixelBound, le_div_iff₀ (by positivity), ← mul_assoc]
    exact hle
  exact interpolated_exact
    (Corners.around_exact hy hqy (by omega) hsizes.height_pos hsizes.height_lt)
    (Corners.around_exact hx hqx (by omega) hsizes.width_pos hsizes.width_lt) (by omega)
    (allPixels hcheck hsite hmap y x) (pixelBound_le m s)

/-- The interpolated values at the samples of a cell are those of the reference, in the same
order. -/
theorem sampleValues_exact (hcheck : job.check output = .ok e) (h : job.IsDyadic e m s a b)
    (hsite : site.Within e) :
    List.Forall₂ (IsSample m s) (job.sampleValues e site)
      ((List.range (2 ^ s)).flatMap fun t =>
        (List.range (2 ^ s)).map (job.referenceAt e (2 ^ s) site t)) := by
  obtain ⟨top, bottom, hvertical, htop, hbottom⟩ :=
    h.exists_axis hsite.region 1 3 (by decide) (by decide) h.rows_le
  obtain ⟨left, right, hhorizontal, hleft, hright⟩ :=
    h.exists_axis hsite.region 0 2 (by decide) (by decide) h.columns_le
  have hys := hvertical.walk_exact h.ratio (h.rows ▸ hsite.row)
  have hxs := hhorizontal.walk_exact h.ratio (h.columns ▸ hsite.column)
  rw [List.forall₂_map_right_iff] at hys hxs
  have hreference (t u : Nat) : job.referenceAt e (2 ^ s) site t u =
      interpolate (job.pixelValue e site)
        (clampTo e.height (point top bottom (2 ^ a) (2 ^ s) site.row t))
        (clampTo e.width (point left right (2 ^ b) (2 ^ s) site.column u)) := by
    simp only [referenceAt, htop, hbottom, hleft, hright, h.rows, h.columns]
  -- Both lists are put together from the walks in the same way.
  simp only [sampleValues, region_vertical, region_horizontal, h.rows, h.columns]
  refine List.rel_flatMap hys fun y t hy => List.rel_map (fun x u hx => ?_) hxs
  rw [hreference]
  exact h.isSample hcheck hsite hy (hvertical.point_isMultiple _ _) hx
    (hhorizontal.point_isMultiple _ _)

/-- The divisor is the number of sample points. -/
theorem announced_eq_of_isDyadic (h : job.IsDyadic e m s a b) (site : Site) :
    job.announced e site = 2 ^ s * 2 ^ s := by
  have hhorizontal : (job.region e site.region).horizontal.ratio = 2 ^ s :=
    DyadicAxis.ratio_eq _ _ _ h.ratio
  have hvertical : (job.region e site.region).vertical.ratio = 2 ^ s :=
    DyadicAxis.ratio_eq _ _ _ h.ratio
  simp only [announced, hhorizontal, hvertical]

/-- Neither the sum nor the division of a cell rounds. -/
theorem valueAt_exact (hcheck : job.check output = .ok e) (h : job.IsDyadic e m s a b)
    (hsite : site.Within e) : Exact (job.valueAt e site) (job.reference e (2 ^ s) site) := by
  have hm := h.bits_le
  have hs : s + 1 ≤ m := by have := h.rows_le; omega
  have hsamples := sampleValues_exact hcheck h hsite
  set values := (List.range (2 ^ s)).flatMap fun t =>
    (List.range (2 ^ s)).map (job.referenceAt e (2 ^ s) site t)
  have hlength : (values.length : ℚ) = (2 ^ s) ^ 2 := by
    rw [length_flatMap_of_length _ _ (2 ^ s) fun _ _ => by rw [List.length_map, List.length_range],
      List.length_range]
    push_cast
    exact (sq _).symm
  -- All samples together take up the room that the pixels leave.
  have hroom : (|(0 : ℚ)| + values.length * pixelBound m s) * 2 ^ (m + m) = 2 ^ 24 := by
    rw [abs_zero, zero_add, hlength, sum_pixelBound]
  obtain ⟨hsum, hmultiple, hle⟩ := Single.exact_foldl_add (by omega) hsamples Single.exact_zero
    (by exact_mod_cast IsMultiple.intCast (m + m) 0) hroom.le
  have hle := (mul_le_mul_of_nonneg_right hle (by positivity)).trans_eq hroom
  rw [zero_add] at hsum hmultiple hle
  -- The divisor is a power of two, so the quotient has the bits of the sum.
  have hdivisor : Exact (Binary.ofInt (job.announced e site)) ((2 : ℚ) ^ (s + s)) := by
    have hsize : |((2 : Int) ^ (s + s))| ≤ 2 ^ 24 := by
      rw [abs_of_nonneg (by positivity)]
      exact pow_le_pow_right₀ (by norm_num) (by omega)
    rw [announced_eq_of_isDyadic h, ← pow_add]
    exact_mod_cast Single.exact_ofInt hsize
  have hquotient := hsum.div hdivisor (by positivity) (hmultiple.fits_div_two_pow (by omega) hle)
  have hreference : job.reference e (2 ^ s) site = values.sum / 2 ^ (s + s) := by
    rw [reference, pow_add, sum_grid_eq]
    push_cast
    rfl
  rw [hreference]
  rwa [show job.valueAt e site = _ / Binary.ofInt (job.announced e site) from rfl, sumAt_eq_sum]

/--
A run over whole numbers whose sizes are powers of two, small enough to leave room for the
sums, computes the reference of every site.
-/
theorem align_eq_reference (job : Job) (output : Array Single) (m s a b : Nat)
    (hcheck : job.check output = .ok e) (h : job.IsDyadic e m s a b) :
    (job.align output).1 = .ok () ∧ ∀ site : Site, site.Within e →
      ∃ x : Single, (job.align output).2[site.index e]? = some x ∧ x.isFinite = true ∧
        x.value = job.reference e (2 ^ s) site := by
  refine ⟨align_eq_ok_iff.mpr ⟨e, hcheck⟩, fun site hsite => ?_⟩
  obtain ⟨hfinite, hvalue⟩ := valueAt_exact hcheck h hsite
  exact ⟨job.valueAt e site, getElem?_align hcheck hsite, hfinite, hvalue⟩

/-- Three bits behind the point are enough for the quadrants. -/
theorem quadrants_isDyadic : quadrants.IsDyadic quadrantExtents 3 1 1 1 where
  bits_le := by decide
  scale := rfl
  ratio := rfl
  rows := rfl
  columns := rfl
  rows_le := by decide
  columns_le := by decide
  coordinate region hregion place hplace := by
    obtain rfl : region = 0 := Nat.lt_one_iff.mp hregion
    have hcorner (n : Nat) (hn : n ≤ 4) :
        ∃ k : Int, Exact (Binary.ofNat n) k ∧ |k| ≤ 2 ^ (22 - 3) := by
      refine ⟨n, Single.exact_ofNat (by omega), ?_⟩
      rw [Nat.abs_cast]
      omega
    match place, hplace with
    | 0, _ => exact hcorner 0 (by decide)
    | 1, _ => exact hcorner 0 (by decide)
    | 2, _ => exact hcorner 4 (by decide)
    | 3, _ => exact hcorner 4 (by decide)
  pixel x hx := by
    obtain ⟨n, hn, rfl⟩ := List.mem_map.mp (List.mem_toArray.mp hx)
    have hn := List.mem_range.mp hn
    refine ⟨n, Single.exact_ofNat (by omega), ?_⟩
    rw [Nat.abs_cast]
    omega

theorem quadrants_eq_reference :
    (quadrants.align quadrantMeans).1 = .ok () ∧ ∀ site : Site, site.Within quadrantExtents →
      ∃ x : Single, (quadrants.align quadrantMeans).2[site.index quadrantExtents]? = some x ∧
        x.isFinite = true ∧ x.value = quadrants.reference quadrantExtents 2 site :=
  align_eq_reference quadrants quadrantMeans 3 1 1 1 rfl quadrants_isDyadic

end Job

end RegionPooling
