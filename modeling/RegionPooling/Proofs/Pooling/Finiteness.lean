import RegionPooling.Proofs.Pooling.Mean

/-!
# Bounded maps have finite results

Coordinates and scale may be anything, and with them the edges, steps and bins of an axis: infinite,
or no numbers at all. None of this reaches the output. A position that a walk visits lies before
the end of its bin, so it is a number; the weights of the pixels around it are between zero and
one, and a sample is about as large as the pixels. The divisor is at least one.

The sum needs another argument, as there may be `2 ^ 62` samples and more in a cell, too many for
any bound that grows with their number. With pixels up to `2 ^ 96` a sample is less than `2 ^ 97`,
and a number of that size is lost once the sum has reached `2 ^ 121`.

Main results:

* `Job.abs_sumAt_le` — the sum of a cell stays within `2 ^ 121`.
* `Job.align_isFinite` — and so do all numbers of the output.
-/

namespace RegionPooling

namespace Job

/-- All numbers of the map are finite, and none is larger than `2 ^ 96`. -/
def MapBounded (data : Array Single) : Prop :=
  ∀ x ∈ data, x.isFinite = true ∧ |x.value| ≤ 2 ^ 96

variable {job : Job} {output : Array Single} {e : Extents} {site : Site}

/-- A sample is at most a little larger than the pixels that it is interpolated from. -/
theorem abs_sampleValue_lt (h : job.check output = .ok e) (hsite : site.Within e)
    (hmap : MapBounded job.input.data) {v : Single} (hv : v ∈ job.sampleValues e site) :
    v.isFinite = true ∧ |v.value| < 2 ^ 97 := by
  have hwithin : MapWithin job.input.data (-2 ^ 96) (2 ^ 96) := by
    intro x hx
    exact ⟨(hmap x hx).1, abs_le.mp (hmap x hx).2⟩
  have hc : Single.Moderate (2 ^ 96) := ⟨.inr (by norm_num), le_refl _⟩
  obtain ⟨hfinite, hge, hle⟩ := sampleValues_mem_range h hsite hwithin (by norm_num) (by norm_num)
    hc hv
  refine ⟨hfinite, abs_lt.mpr ⟨?_, ?_⟩⟩
  · linarith
  · linarith

/-- The sum of a cell, over any number of samples. -/
theorem abs_sumAt_le (h : job.check output = .ok e) (hsite : site.Within e)
    (hmap : MapBounded job.input.data) :
    (job.sumAt e site).isFinite = true ∧ |(job.sumAt e site).value| ≤ 2 ^ 121 := by
  rw [sumAt_eq_sum, Single.sum]
  refine Single.foldl_add_abs_le_two_pow (by decide) _ rfl ?_ ?_
  · rw [Binary.value_zero, abs_zero]
    positivity
  · intro v hv
    obtain ⟨hfinite, hlt⟩ := abs_sampleValue_lt h hsite hmap hv
    exact ⟨hfinite, hlt.trans_eq (by norm_num)⟩

theorem abs_valueAt_le (h : job.check output = .ok e) (hsite : site.Within e)
    (hmap : MapBounded job.input.data) :
    (job.valueAt e site).isFinite = true ∧ |(job.valueAt e site).value| ≤ 2 ^ 121 := by
  obtain ⟨hsum, hle⟩ := abs_sumAt_le h hsite hmap
  obtain ⟨hdivisor, hone⟩ := one_le_divisor job (addressed_of_within h hsite) site
  have hrounding := Binary.isRounding_div hsum hdivisor (by linarith)
  -- A divisor of at least one leads back towards zero.
  have hquotient : |(job.sumAt e site).value / (Binary.ofInt (job.announced e site) : Single).value|
      ≤ 2 ^ 121 := by
    rw [abs_div, abs_of_nonneg (zero_le_one.trans hone)]
    exact (div_le_self (abs_nonneg _) hone).trans hle
  exact ⟨Single.isFinite_of_abs_le hrounding (hquotient.trans (by norm_num)),
    Single.abs_value_le_two_pow (by decide) hrounding (hquotient.trans_lt (by norm_num))⟩

/-- Every number of the output is that of a site. -/
theorem exists_site_of_mem (h : job.check output = .ok e) {x : Single}
    (hx : x ∈ (job.align output).2) : ∃ site : Site, site.Within e ∧ x = job.valueAt e site := by
  obtain ⟨i, hi, rfl⟩ := Array.mem_iff_getElem.mp hx
  have hsize : (job.align output).2.size = e.regions * e.slabSize :=
    (size_alignIn ..).trans (fits_of_check h).output_size
  obtain ⟨site, ⟨hsite, rfl⟩, -⟩ := Site.existsUnique_of_lt (hsize ▸ hi)
  refine ⟨site, hsite, Option.some.inj ?_⟩
  rw [← Array.getElem?_eq_getElem hi, getElem?_align h hsite]

/--
No infinity and no not-a-number comes from the geometry of a run. Over a feature map of finite
numbers up to `2 ^ 96`, whatever numbers the coordinates and the scale are, all numbers of the
output are finite, and none is larger than `2 ^ 121`.
-/
theorem align_isFinite (job : Job) (output : Array Single) (hok : (job.align output).1 = .ok ())
    (hmap : MapBounded job.input.data) :
    ∀ x ∈ (job.align output).2, x.isFinite = true ∧ |x.value| ≤ 2 ^ 121 := by
  obtain ⟨e, hcheck⟩ := align_eq_ok_iff.mp hok
  intro x hx
  obtain ⟨site, hsite, rfl⟩ := exists_site_of_mem hcheck hx
  exact abs_valueAt_le hcheck hsite hmap

/-- The map of `quadrants` under a box whose coordinates are neither finite nor in order. -/
def boundlessBox : Job :=
  { quadrants with
    regions := ⟨⟨[1, 4]⟩, #[.infinity true, .nan, .infinity false, .infinity true]⟩
    sampling := { spatialScale := .infinity true, samplingRatio := -1 } }

/-- The numbers of this map are far below the bound. -/
theorem boundlessBox_isFinite :
    (boundlessBox.align quadrantMeans).1 = .ok () ∧
      MapBounded boundlessBox.input.data ∧
      ∀ x ∈ (boundlessBox.align quadrantMeans).2, x.isFinite = true ∧ |x.value| ≤ 2 ^ 121 := by
  have hok : (boundlessBox.align quadrantMeans).1 = .ok () := rfl
  have hmap : MapBounded boundlessBox.input.data := by
    intro x hx
    obtain ⟨n, hn, rfl⟩ := List.mem_map.mp (List.mem_toArray.mp hx)
    have hn := List.mem_range.mp hn
    obtain ⟨hfinite, hvalue⟩ := Single.ofNat_exact (n := n) (by omega)
    refine ⟨hfinite, ?_⟩
    rw [hvalue, Nat.abs_cast]
    exact_mod_cast (show n ≤ 2 ^ 96 by omega)
  exact ⟨hok, hmap, align_isFinite boundlessBox quadrantMeans hok hmap⟩

end Job

end RegionPooling
