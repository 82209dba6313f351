import RegionPooling.Proofs.Pooling.Axis
import RegionPooling.Proofs.Pooling.Interpolation
import RegionPooling.Proofs.Pooling.Safety

/-!
# The mean of a cell

The number of a cell is the sum over the samples that the walks visit, divided by the number
of samples that the ratios announce. It is a mean only where the two numbers are the same.
They are not where a position or its distance to the next one has too few bits: far from the
origin a walk may end before its first sample, or skip some.

`Job.StaysInRange` says that a cell behaves as a mean over all feature maps of one shape. With
as many samples visited as announced it does, as long as there are not so many of them that
the errors of the sum become visible. With a part in five hundred too many or too few it does
not, and the map that is one everywhere shows it. The same map shows it where so many samples
are announced that their sum no longer grows.

Main results:

* `Job.valueAt_mem_range` — a cell whose samples are all visited stays in the range of the map.
* `Job.staysInRange_of_visited_eq`, `Job.not_staysInRange` — the two directions.
* `Job.not_staysInRange_of_full` — too many samples.
* `Job.staysInRange_by_visited` — all together.
-/

namespace RegionPooling

open Single (Moderate sumLimit)

namespace Job

/-! ## Samples -/

/-- The number of samples that the walks of a cell visit. -/
def visited (job : Job) (e : Extents) (site : Site) : Nat :=
  let r := job.region e site.region
  (walk (r.vertical.edge site.row) (r.vertical.edge (site.row + 1)) r.vertical.bin).length *
    (walk (r.horizontal.edge site.column) (r.horizontal.edge (site.column + 1))
      r.horizontal.bin).length

/-- The number of samples that the ratios announce for a cell. -/
def announced (job : Job) (e : Extents) (site : Site) : Int :=
  let r := job.region e site.region
  r.horizontal.ratio * r.vertical.ratio

/-- The interpolated values at the samples of a cell, in the order of the walks. -/
def sampleValues (job : Job) (e : Extents) (site : Site) : List Single :=
  let r := job.region e site.region
  (walk (r.vertical.edge site.row) (r.vertical.edge (site.row + 1)) r.vertical.bin).flatMap
    fun y =>
      (walk (r.horizontal.edge site.column) (r.horizontal.edge (site.column + 1))
        r.horizontal.bin).map fun x =>
          job.interpolated e (job.batchOf e site.region) (.around y e.height)
            (.around x e.width) site.channel

theorem length_sampleValues (job : Job) (e : Extents) (site : Site) :
    (job.sampleValues e site).length = job.visited e site :=
  length_flatMap_of_length _ _ _ fun _ _ => List.length_map ..

theorem sumAt_eq_sum (job : Job) (e : Extents) (site : Site) :
    job.sumAt e site = Single.sum (job.sampleValues e site) := by
  unfold sumAt sampleValues Single.sum
  simp only [List.foldl_flatMap, List.foldl_map]

theorem one_le_announced (job : Job) {e : Extents} (hsizes : e.Addressed) (site : Site) :
    1 ≤ job.announced e site := by
  have hhorizontal : 1 ≤ (job.region e site.region).horizontal.ratio :=
    Axis.one_le_ratio _ _ hsizes.columns_pos hsizes.columns_lt _
  have hvertical : 1 ≤ (job.region e site.region).vertical.ratio :=
    Axis.one_le_ratio _ _ hsizes.rows_pos hsizes.rows_lt _
  exact one_le_mul_of_one_le_of_one_le hhorizontal hvertical

variable {job : Job} {output : Array Single} {e : Extents} {site : Site}

theorem addressed_of_within (h : job.check output = .ok e) (hsite : site.Within e) :
    e.Addressed :=
  (fits_of_check h).addressed (Nat.ne_of_gt (Nat.zero_lt_of_lt (Site.offset_lt hsite)))

/-! ## The range of a sample -/

/-- All numbers of the feature map lie between these two. -/
def MapWithin (data : Array Single) (least greatest : ℚ) : Prop :=
  ∀ x ∈ data, x.isFinite = true ∧ least ≤ x.value ∧ x.value ≤ greatest

/-- The place of a pixel is before the end of its batch, which is in the buffer. -/
theorem pixel_place_lt (h : job.check output = .ok e) {batch row column channel : Nat}
    (hbatch : batch < e.batches) (hrow : row < e.height) (hcolumn : column < e.width)
    (hchannel : channel < e.depth) :
    ((batch * e.height + row) * e.width + column) * e.depth + channel < job.input.data.size := by
  have hend := e.pixel_end_le hrow hcolumn
  calc ((batch * e.height + row) * e.width + column) * e.depth + channel
      = batch * e.batchSize + (row * (e.width * e.depth) + column * e.depth + channel) := by
        unfold Extents.batchSize
        ring
    _ < batch * e.batchSize + e.batchSize := by omega
    _ = (batch + 1) * e.batchSize := (Nat.add_one_mul ..).symm
    _ ≤ e.batches * e.batchSize := Nat.mul_le_mul_right _ hbatch
    _ = job.input.data.size := ((fits_of_check h).input_size).symm

theorem pixel_mem (h : job.check output = .ok e) {batch row column channel : Nat}
    (hbatch : batch < e.batches) (hrow : row < e.height) (hcolumn : column < e.width)
    (hchannel : channel < e.depth) :
    job.pixel e batch row column channel ∈ job.input.data := by
  have hplace := pixel_place_lt h hbatch hrow hcolumn hchannel
  rw [pixel, Array.getD_eq_getD_getElem?, Array.getElem?_eq_getElem hplace, Option.getD_some]
  exact Array.getElem_mem hplace

/-- What holds of all numbers of the map holds of the pixels of a sample. -/
theorem allPixels (h : job.check output = .ok e) (hsite : site.Within e) {P : Single → Prop}
    (hmap : ∀ p ∈ job.input.data, P p) (y x : Single) :
    job.AllPixels e (job.batchOf e site.region) (.around y e.height) (.around x e.width)
      site.channel P := by
  have hsizes := addressed_of_within h hsite
  have hrow := Corners.around_lt y hsizes.height_pos
  have hcolumn := Corners.around_lt x hsizes.width_pos
  have hbatch := batchOf_lt h hsite.region
  exact ⟨hmap _ (pixel_mem h hbatch hrow.1 hcolumn.1 hsite.channel),
    hmap _ (pixel_mem h hbatch hrow.1 hcolumn.2 hsite.channel),
    hmap _ (pixel_mem h hbatch hrow.2 hcolumn.1 hsite.channel),
    hmap _ (pixel_mem h hbatch hrow.2 hcolumn.2 hsite.channel)⟩

theorem sampleValues_mem_range (h : job.check output = .ok e) (hsite : site.Within e)
    {least greatest c : ℚ} (hmap : MapWithin job.input.data least greatest)
    (hleast : |least| ≤ c) (hgreatest : |greatest| ≤ c) (hc : Moderate c) {v : Single}
    (hv : v ∈ job.sampleValues e site) :
    v.isFinite = true ∧ least - c / 2 ^ 19 ≤ v.value ∧ v.value ≤ greatest + c / 2 ^ 19 := by
  obtain ⟨y, hy, hv⟩ := List.mem_flatMap.mp hv
  obtain ⟨x, hx, rfl⟩ := List.mem_map.mp hv
  have hsizes := addressed_of_within h hsite
  -- The interpolation is within the range, and what is computed is close to it.
  have hfx := Corners.isWeight_fraction (ne_nan_of_mem_walk hx) hsizes.width_lt
  have hfy := Corners.isWeight_fraction (ne_nan_of_mem_walk hy) hsizes.height_lt
  obtain ⟨hfinite, herror⟩ := interpolated_error hfy hfx hc
    (allPixels h hsite (P := fun p => p.isFinite = true ∧ |p.value| ≤ c)
      (fun p hp => ⟨(hmap p hp).1, abs_le.mpr ⟨(abs_le.mp hleast).1.trans (hmap p hp).2.1,
        (hmap p hp).2.2.trans (abs_le.mp hgreatest).2⟩⟩) y x)
  obtain ⟨hge, hle⟩ := blended_mem hfy hfx
    (allPixels h hsite (P := fun p => least ≤ p.value ∧ p.value ≤ greatest)
      (fun p hp => (hmap p hp).2) y x)
  obtain ⟨hlower, hupper⟩ := abs_le.mp herror
  exact ⟨hfinite, by linarith, by linarith⟩

/-! ## The range of a mean -/

/-- The divisor of a cell with not too many announced samples is exact. -/
theorem divisor_exact {count : Int} (hone : 1 ≤ count) (hlimit : count ≤ 2 ^ 15) :
    (Binary.ofInt count : Single).isFinite = true ∧ (Binary.ofInt count : Single).value = count :=
  Single.ofInt_exact (by rw [abs_of_nonneg (by omega)]; omega)

/-- With all announced samples visited a cell stays in the range of the map. -/
theorem valueAt_mem_range (h : job.check output = .ok e) (hsite : site.Within e)
    {least greatest c : ℚ} (hmap : MapWithin job.input.data least greatest)
    (hleast : |least| ≤ c) (hgreatest : |greatest| ≤ c) (hc : Moderate c)
    (hlimit : job.announced e site ≤ 2 ^ 15)
    (hvisited : (job.visited e site : Int) = job.announced e site) :
    (job.valueAt e site).isFinite = true ∧ least - c / 1000 ≤ (job.valueAt e site).value ∧
      (job.valueAt e site).value ≤ greatest + c / 1000 := by
  have hsizes := addressed_of_within h hsite
  have hone := one_le_announced job hsizes site
  have hc0 := hc.nonneg
  have hvalues (v : Single) (hv : v ∈ job.sampleValues e site) :=
    sampleValues_mem_range h hsite hmap hleast hgreatest hc hv
  have hlength := length_sampleValues job e site
  set values := job.sampleValues e site
  set n : ℚ := (values.length : ℚ)
  have hn1 : 1 ≤ n := Nat.one_le_cast.mpr (by omega)
  have hn0 : 0 < n := by linarith
  have hcount : values.length ≤ sumLimit := by
    unfold sumLimit
    omega
  have hleast' := abs_le.mp hleast
  have hgreatest' := abs_le.mp hgreatest
  -- The sum, with its error.
  obtain ⟨hfinite, hge, hle⟩ := Single.sum_mem_range (c := c * (1 + 1 / 2 ^ 19))
    (by linarith [hc.2]) (abs_le.mpr ⟨by linarith, by linarith⟩)
    (abs_le.mpr ⟨by linarith, by linarith⟩) hcount hvalues
  rw [mul_comm, ← le_div_iff₀ hn0] at hge
  rw [mul_comm, ← div_le_iff₀ hn0] at hle
  -- The division, with its error.
  obtain ⟨hexact, hvalue⟩ := divisor_exact hone hlimit
  have hdivisor : (Binary.ofInt (job.announced e site) : Single).value = n := by
    rw [hvalue, ← hvisited, ← hlength]
    rfl
  have hrounding := Binary.isRounding_div hfinite hexact (by rw [hdivisor]; exact hn0.ne')
  rw [hdivisor] at hrounding
  have hquotient : |(Single.sum values).value / n| ≤ 2 * c := by
    exact abs_le.mpr ⟨by linarith, by linarith⟩
  have hresult : job.valueAt e site =
      Single.sum values / Binary.ofInt (job.announced e site) := by
    rw [← sumAt_eq_sum]
    rfl
  have hfinite' := Single.isFinite_of_abs_le hrounding (hquotient.trans (by linarith [hc.2]))
  have herror := Single.error_le hrounding hfinite' hquotient (by
    rcases hc.1 with hzero | hlarge
    · exact Or.inl (by rw [hzero, mul_zero])
    · exact Or.inr (by linarith))
  obtain ⟨hfrom, hto⟩ := abs_le.mp herror
  rw [hresult]
  exact ⟨hfinite', by linarith, by linarith⟩

/-! ## All maps of a shape -/

/-- The run over another feature map. -/
def withMap (job : Job) (data : Array Single) : Job :=
  { job with input := { job.input with data } }

/-- The checks do not look at the numbers of the feature map. -/
theorem check_withMap (job : Job) (output : Array Single) {data : Array Single}
    (hsize : data.size = job.input.data.size) :
    (job.withMap data).check output = job.check output := by
  -- Only the check of the buffer reads it at all, and only its size.
  have hbuffer : Extents.checkBuffer "input" { job.input with data } =
      Extents.checkBuffer "input" job.input := by
    unfold Extents.checkBuffer
    rw [hsize]
  unfold check Extents.resolve
  rw [show Extents.checkBuffer "input" (job.withMap data).input = _ from hbuffer]
  rfl

/-- Over every feature map of the shape the number at a site stays in the range of the map,
up to a thousandth of its greatest magnitude. -/
def StaysInRange (job : Job) (output : Array Single) (e : Extents) (site : Site) : Prop :=
  ∀ (data : Array Single) (least greatest : ℚ), data.size = job.input.data.size →
    MapWithin data least greatest → Moderate (max |least| |greatest|) →
    ∃ mean : Single, ((job.withMap data).align output).2[site.index e]? = some mean ∧
      mean.isFinite = true ∧ least - max |least| |greatest| / 1000 ≤ mean.value ∧
      mean.value ≤ greatest + max |least| |greatest| / 1000

theorem staysInRange_of_visited_eq (h : job.check output = .ok e) (hsite : site.Within e)
    (hlimit : job.announced e site ≤ 2 ^ 15)
    (hvisited : (job.visited e site : Int) = job.announced e site) :
    job.StaysInRange output e site := by
  intro data least greatest hsize hmap hc
  have hcheck : (job.withMap data).check output = .ok e := by rw [check_withMap job output hsize, h]
  obtain ⟨hfinite, hge, hle⟩ := valueAt_mem_range hcheck hsite hmap (le_max_left _ _)
    (le_max_right _ _) hc hlimit hvisited
  exact ⟨_, getElem?_align hcheck hsite, hfinite, hge, hle⟩

/-- The map that is one everywhere. -/
def ones (job : Job) : Array Single := Array.replicate job.input.data.size (Binary.ofNat 1)

theorem ones_mapWithin (job : Job) : MapWithin job.ones 1 1 := by
  intro x hx
  obtain ⟨hfinite, hvalue⟩ := Single.one_exact
  rw [(Array.mem_replicate.mp hx).2]
  exact ⟨hfinite, hvalue.ge, hvalue.le⟩

section Ones

variable {values : List Single} {count : Int}

/-- Too few numbers about one have a sum below the count. -/
theorem div_lt_of_few
    (h : ∀ v ∈ values, v.isFinite = true ∧ 1 - 1 / 2 ^ 19 ≤ v.value ∧ v.value ≤ 1 + 1 / 2 ^ 19)
    (hone : 1 ≤ count) (hlimit : count ≤ 2 ^ 15)
    (hfew : 500 * (values.length : Int) ≤ 499 * count) :
    (Single.sum values / Binary.ofInt count).value < 1 - 1 / 1000 := by
  obtain ⟨hexact, hdivisor⟩ := divisor_exact hone hlimit
  have hcount : values.length ≤ sumLimit := by
    unfold sumLimit
    omega
  obtain ⟨hfinite, hge, hle⟩ := Single.sum_mem_range (c := 1 + 1 / 2 ^ 19) (by norm_num)
    (by norm_num [abs_le]) (by norm_num [abs_le]) hcount h
  have hr : (1 : ℚ) ≤ count := by exact_mod_cast hone
  have hfew : 500 * (values.length : ℚ) ≤ 499 * count := by exact_mod_cast hfew
  have hn : (0 : ℚ) ≤ values.length := Nat.cast_nonneg _
  have hrounding := Binary.isRounding_div hfinite hexact (by rw [hdivisor]; linarith)
  rw [hdivisor] at hrounding
  -- Even with all errors upwards the quotient stays below by more than its own rounding.
  have hupper : (Single.sum values).value / count ≤ 99899 / 100000 := by
    rw [div_le_iff₀ (by linarith)]
    linarith
  have hlower : 0 ≤ (Single.sum values).value / count := by
    refine div_nonneg (le_trans (mul_nonneg hn ?_) hge) (by linarith)
    norm_num
  have habs : |(Single.sum values).value / count| ≤ 1 := by
    rw [abs_of_nonneg hlower]
    linarith
  have herror := Single.error_le hrounding
    (Single.isFinite_of_abs_le hrounding (habs.trans (by norm_num))) habs (Or.inr (by norm_num))
  have hto := (abs_le.mp herror).2
  linarith

/-- Too many numbers about one have a sum above the count. The sum of all of them is at least
that of the first `sumLimit` ones, whose errors are bounded. -/
theorem lt_div_of_many
    (h : ∀ v ∈ values, v.isFinite = true ∧ 1 - 1 / 2 ^ 19 ≤ v.value ∧ v.value ≤ 1 + 1 / 2 ^ 19)
    (hone : 1 ≤ count) (hlimit : count ≤ 2 ^ 15)
    (hmany : 501 * count ≤ 500 * (values.length : Int))
    (hmean : (Single.sum values / Binary.ofInt count).isFinite = true) :
    1 + 1 / 1000 < (Single.sum values / Binary.ofInt count).value := by
  obtain ⟨hexact, hdivisor⟩ := divisor_exact hone hlimit
  -- The first `sumLimit` numbers are too many already.
  have hmany' : 501 * count ≤ 500 * (min values.length sumLimit : Nat) := by
    unfold sumLimit
    omega
  obtain ⟨hnan, hge⟩ := Single.le_sum_of_range (c := 1 + 1 / 2 ^ 19) (by norm_num)
    (by norm_num) (by norm_num [abs_le]) (by norm_num) h (min_le_left _ sumLimit)
    (min_le_right _ _)
  have hr : (1 : ℚ) ≤ count := by exact_mod_cast hone
  have hmany' : 501 * (count : ℚ) ≤ 500 * (min values.length sumLimit : Nat) := by
    exact_mod_cast hmany'
  have hsum : 100100802 / 100000000 * (count : ℚ) ≤ (Single.sum values).value := by linarith
  have hfinite : (Single.sum values).isFinite = true := by
    by_contra hinfinite
    -- An infinite sum has an infinite quotient.
    rw [Binary.eq_infinity hnan hinfinite (by linarith),
      Binary.infinity_div hexact (by rw [hdivisor]; linarith)] at hmean
    exact absurd hmean (by decide)
  have hrounding := Binary.isRounding_div hfinite hexact (by rw [hdivisor]; linarith)
  rw [hdivisor] at hrounding
  have hlower : 100100802 / 100000000 ≤ (Single.sum values).value / count := by
    rw [le_div_iff₀ (by linarith)]
    exact hsum
  have herror := Single.error hrounding hmean
  rw [abs_of_nonneg (by linarith : 0 ≤ (Single.sum values).value / count)] at herror
  have hfrom := (abs_le.mp herror).1
  have htiny : (1 : ℚ) / 2 ^ 150 ≤ 1 / 2 ^ 24 := by norm_num
  linarith

/-- A sum of numbers about one is full long before a count of this size. -/
theorem div_lt_of_full
    (h : ∀ v ∈ values, v.isFinite = true ∧ 1 - 1 / 2 ^ 19 ≤ v.value ∧ v.value ≤ 1 + 1 / 2 ^ 19)
    (hfull : 2 ^ 26 ≤ count) (hlimit : count ≤ 2 ^ 62) :
    (Single.sum values / Binary.ofInt count).value < 1 - 1 / 1000 := by
  obtain ⟨hfinite, hfull'⟩ := Single.foldl_add_abs_le_two_pow (e := 25) (by decide) values
    (x := .zero false) rfl (by rw [Binary.value_zero, abs_zero]; positivity) fun v hv =>
      ⟨(h v hv).1, abs_lt.mpr ⟨by linarith [(h v hv).2.1], by linarith [(h v hv).2.2]⟩⟩
  have hle := (abs_le.mp hfull').2
  -- The divisor may be off, but not to the other side of a power of two.
  have hdivisor : (Binary.ofInt count : Single).isFinite = true :=
    Single.ofInt_isFinite (by rw [abs_of_nonneg (by omega)]; omega)
  have hlarge := Single.two_pow_le_value_ofInt (e := 26) (by decide) (by exact_mod_cast hfull)
  have hpos : 0 < (Binary.ofInt count : Single).value := by linarith
  have hrounding := Binary.isRounding_div hfinite hdivisor hpos.ne'
  obtain ⟨z, hz, hhalf⟩ := Single.exists_value_eq (n := 1) (k := 1) (by decide) (by decide)
  have hmean := hrounding.value_le (Binary.ne_nan_of_isFinite hz) (by
    rw [hhalf, div_le_iff₀ hpos]
    norm_num
    linarith)
  rw [hhalf] at hmean
  refine hmean.trans_lt ?_
  norm_num

end Ones

/-- What the range of the map that is one everywhere says of a cell. -/
theorem StaysInRange.ones (hstays : job.StaysInRange output e site)
    (h : job.check output = .ok e) (hsite : site.Within e) :
    ∃ values : List Single, values.length = job.visited e site ∧
      (∀ v ∈ values, v.isFinite = true ∧ 1 - 1 / 2 ^ 19 ≤ v.value ∧ v.value ≤ 1 + 1 / 2 ^ 19) ∧
      (Single.sum values / Binary.ofInt (job.announced e site)).isFinite = true ∧
      1 - 1 / 1000 ≤ (Single.sum values / Binary.ofInt (job.announced e site)).value ∧
      (Single.sum values / Binary.ofInt (job.announced e site)).value ≤ 1 + 1 / 1000 := by
  have hsize : job.ones.size = job.input.data.size := Array.size_replicate
  have hcheck : (job.withMap job.ones).check output = .ok e := by
    rw [check_withMap job output hsize, h]
  -- Walks and ratios are those of the run itself, as they do not look at the map.
  have hmoderate : Moderate 1 := ⟨Or.inr (by norm_num), by norm_num⟩
  obtain ⟨mean, hmean, hfinite, hge, hle⟩ := hstays job.ones 1 1 hsize
    (ones_mapWithin job) (by simpa using hmoderate)
  rw [getElem?_align hcheck hsite, Option.some.injEq] at hmean
  rw [abs_one, max_self] at hge hle
  have hresult : mean = Single.sum ((job.withMap job.ones).sampleValues e site) /
      Binary.ofInt (job.announced e site) := by
    rw [← hmean, ← sumAt_eq_sum]
    rfl
  rw [hresult] at hfinite hge hle
  have hlength : ((job.withMap job.ones).sampleValues e site).length = job.visited e site :=
    length_sampleValues ..
  exact ⟨_, hlength, fun v hv => sampleValues_mem_range hcheck hsite (ones_mapWithin job)
    abs_one.le abs_one.le hmoderate hv, hfinite, hge, hle⟩

/-- A part in five hundred of the samples too many or too few takes the map that is one
everywhere out of its range. -/
theorem not_staysInRange (h : job.check output = .ok e) (hsite : site.Within e)
    (hlimit : job.announced e site ≤ 2 ^ 15)
    (hvisited : job.announced e site ≤
      500 * |(job.visited e site : Int) - job.announced e site|) :
    ¬ job.StaysInRange output e site := by
  intro hstays
  obtain ⟨values, hlength, hvalues, hfinite, hge, hle⟩ := hstays.ones h hsite
  have hone := one_le_announced job (addressed_of_within h hsite) site
  rcases le_total (job.visited e site : Int) (job.announced e site) with hfew | hmany
  · rw [abs_of_nonpos (by omega)] at hvisited
    exact absurd hge (div_lt_of_few hvalues hone hlimit (by omega)).not_ge
  · rw [abs_of_nonneg (by omega)] at hvisited
    exact absurd hle (lt_div_of_many hvalues hone hlimit (by omega) hfinite).not_ge

theorem announced_le (job : Job) (e : Extents) (site : Site) : job.announced e site ≤ 2 ^ 62 := by
  have hratio (start stop : Single) (bins : Nat) :=
    Checked.natAbs_ratio_le start stop bins job.sampling.samplingRatio
  refine Int.le_trans Int.le_natAbs ?_
  rw [announced, Int.natAbs_mul]
  exact_mod_cast Nat.mul_le_mul (hratio ..) (hratio ..)

/-- The divisor of a cell is finite and does not make the sum larger. -/
theorem one_le_divisor (job : Job) {e : Extents} (hsizes : e.Addressed) (site : Site) :
    (Binary.ofInt (job.announced e site) : Single).isFinite = true ∧
      1 ≤ (Binary.ofInt (job.announced e site) : Single).value := by
  have hone := one_le_announced job hsizes site
  have hlimit := announced_le job e site
  have hge := Single.two_pow_le_value_ofInt (n := job.announced e site) (e := 0) (by decide)
    (by exact_mod_cast hone)
  rw [pow_zero] at hge
  exact ⟨Single.ofInt_isFinite (by rw [abs_of_nonneg (by omega)]; omega), hge⟩

/-- So do announced samples that are too many to be summed up, visited or not. -/
theorem not_staysInRange_of_full (h : job.check output = .ok e) (hsite : site.Within e)
    (hfull : 2 ^ 26 ≤ job.announced e site) : ¬ job.StaysInRange output e site := by
  intro hstays
  obtain ⟨values, -, hvalues, -, hge, -⟩ := hstays.ones h hsite
  exact absurd hge (div_lt_of_full hvalues hfull (announced_le job e site)).not_ge

/--
A cell of not too many announced samples stays in the range of every map if its walks visit all
of them and no more, and leaves that of some map if they are off by a part in five hundred. Up
to five hundred announced samples there is nothing between the two. From some number of
announced samples on every cell leaves the range of some map.
-/
theorem staysInRange_by_visited (job : Job) (output : Array Single) (e : Extents) (site : Site)
    (h : job.check output = .ok e) (hsite : site.Within e) :
    (job.announced e site ≤ 2 ^ 15 →
      ((job.visited e site : Int) = job.announced e site → job.StaysInRange output e site) ∧
      (job.StaysInRange output e site →
        500 * |(job.visited e site : Int) - job.announced e site| < job.announced e site)) ∧
    (job.announced e site ≤ 500 →
      (job.StaysInRange output e site ↔ (job.visited e site : Int) = job.announced e site)) ∧
    (2 ^ 26 ≤ job.announced e site → ¬ job.StaysInRange output e site) := by
  have hleaves (hlimit : job.announced e site ≤ 2 ^ 15) (hstays : job.StaysInRange output e site) :
      500 * |(job.visited e site : Int) - job.announced e site| < job.announced e site := by
    by_contra hoff
    exact not_staysInRange h hsite hlimit (not_lt.mp hoff) hstays
  refine ⟨fun hlimit => ⟨staysInRange_of_visited_eq h hsite hlimit, hleaves hlimit⟩,
    fun hfew => ⟨fun hstays => ?_, staysInRange_of_visited_eq h hsite (by omega)⟩,
    not_staysInRange_of_full h hsite⟩
  -- A part in five hundred of at most five hundred samples is less than one sample.
  have hoff := hleaves (by omega) hstays
  have hzero : |(job.visited e site : Int) - job.announced e site| < 1 := by omega
  rw [Int.abs_lt_one_iff] at hzero
  omega

/-- The first quadrant has four announced samples. -/
theorem quadrants_staysInRange_by_visited :
    quadrants.check quadrantMeans = .ok quadrantExtents ∧
      Site.Within ⟨0, 0, 0, 0⟩ quadrantExtents ∧
      quadrants.announced quadrantExtents ⟨0, 0, 0, 0⟩ = 4 ∧
      (quadrants.StaysInRange quadrantMeans quadrantExtents ⟨0, 0, 0, 0⟩ ↔
        (quadrants.visited quadrantExtents ⟨0, 0, 0, 0⟩ : Int) =
          quadrants.announced quadrantExtents ⟨0, 0, 0, 0⟩) := by
  have hcheck : quadrants.check quadrantMeans = .ok quadrantExtents := rfl
  have hsite : Site.Within ⟨0, 0, 0, 0⟩ quadrantExtents :=
    ⟨by decide, by decide, by decide, by decide⟩
  have hannounced : quadrants.announced quadrantExtents ⟨0, 0, 0, 0⟩ = 4 := rfl
  refine ⟨hcheck, hsite, hannounced, ?_⟩
  exact (staysInRange_by_visited quadrants quadrantMeans _ _ hcheck hsite).2.1
    (by rw [hannounced]; decide)

/-- One pixel of value one, and a region at a position whose neighbours are 64 apart. -/
def farAway : Job where
  input := ⟨⟨[1, 1, 1, 1]⟩, #[Binary.ofNat 1]⟩
  regions := ⟨⟨[1, 4]⟩, Array.replicate 4 (Binary.ofNat 1000000000)⟩
  sampling := { spatialScale := Binary.ofNat 1, samplingRatio := 1 }
  output := ⟨[1, 1, 1, 1]⟩

def farAwayExtents : Extents where
  batches := 1
  height := 1
  width := 1
  depth := 1
  rows := 1
  columns := 1
  regions := 1
  recordLength := 4

/-- The bin begins and ends at the same number, so no sample is visited, and the mean of a map
that is one everywhere is zero. -/
theorem farAway_leaves_range :
    farAway.check #[.zero false] = .ok farAwayExtents ∧
      MapWithin farAway.input.data 1 1 ∧
      ∃ mean : Single, (farAway.align #[.zero false]).2[0]? = some mean ∧
        mean.value < 1 - 1 / 1000 := by
  have hcheck : farAway.check #[.zero false] = .ok farAwayExtents := rfl
  have hsite : Site.Within ⟨0, 0, 0, 0⟩ farAwayExtents :=
    ⟨by decide, by decide, by decide, by decide⟩
  refine ⟨hcheck, ones_mapWithin farAway, _, getElem?_align hcheck hsite, ?_⟩
  have hbin : ¬ firstPosition ((farAway.region farAwayExtents 0).vertical.edge 0)
      (farAway.region farAwayExtents 0).vertical.bin <
        (farAway.region farAwayExtents 0).vertical.edge (0 + 1) := by
    decide +kernel
  have hwalk : walk ((farAway.region farAwayExtents 0).vertical.edge 0)
      ((farAway.region farAwayExtents 0).vertical.edge (0 + 1))
      (farAway.region farAwayExtents 0).vertical.bin = [] := by
    rw [walk, walkFrom, if_neg hbin]
  have hsum : farAway.sumAt farAwayExtents ⟨0, 0, 0, 0⟩ = .zero false := by
    unfold sumAt
    simp only [hwalk, List.foldl_nil]
  have hannounced : farAway.announced farAwayExtents ⟨0, 0, 0, 0⟩ = 1 := rfl
  have hvalue : farAway.valueAt farAwayExtents ⟨0, 0, 0, 0⟩ = .zero false := by
    show farAway.sumAt farAwayExtents _ / Binary.ofInt (farAway.announced farAwayExtents _) = _
    rw [hsum, hannounced]
    decide +kernel
  rw [hvalue, Binary.value_zero]
  norm_num

end Job

end RegionPooling
