import RegionPooling.Proofs.Binary.Conversion
import RegionPooling.Proofs.Pooling.Decomposition
import RegionPooling.Proofs.Pooling.Walk

/-!
# What a run takes from its coordinates

Of the four coordinates of a record and the scale, a run uses the scaled corner and the two lengths
in pixels, and nothing else. The far corner counts only through the lengths, and these are at least
one: a region that is inverted, empty or too short, or whose length is no number, is one pixel long.

The sign of a zero corner does not count either. The corner is added to the products of the step and
the numbers of the bins, and these are positive or a positive zero, so either zero leaves them alone.

Main results:

* `Axis.sameBins_ofRegion` — the bins depend on the start and the length only.
* `Job.align_prescaled` — a run with a scale is the run on scaled boxes, with a scale of one.
* `Job.align_by_geometry` — regions of one geometry have the same pooled map.
-/

namespace RegionPooling

/-! ## Zeros and ones -/

namespace Binary

variable {f : Format}

/-- The same number, or no number on both sides; the two zeros are one number. -/
def SameNumber (x y : Binary f) : Prop := x = y ∨ x.numEq y = true

theorem SameNumber.eq_or_zero {x y : Binary f} (h : x.SameNumber y) :
    x = y ∨ ∃ s t, x = zero s ∧ y = zero t := by
  rcases h with rfl | h
  · exact .inl rfl
  cases x with
  | nan => cases h
  | number s i hi =>
    cases y with
    | nan => cases h
    | number t j hj =>
      simp only [numEq, compareWith, place, decide_eq_true_eq] at h
      -- Different signs leave only zero on both sides.
      by_cases hsign : s = t
      · subst hsign
        obtain rfl : i = j := by cases s <;> simp at h <;> omega
        exact .inl rfl
      · obtain ⟨rfl, rfl⟩ : i = 0 ∧ j = 0 := by
          cases s <;> cases t <;> simp at h hsign <;> omega
        exact .inr ⟨s, t, rfl, rfl⟩

/-- To a number without a sign either zero may be added. -/
theorem add_zero_eq {i : Nat} (hi : i ≤ f.infinityIndex) (s t : Bool) :
    number false i hi + zero s = number false i hi + zero t := by
  have hzero : (0 : Nat) ≠ f.infinityIndex := by
    have hlarge := infinityIndex_ge f
    have hpos := f.fractions_pos
    omega
  by_cases hi' : i = f.infinityIndex
  · show add _ _ = add _ _
    simp only [add, zero, hi', hzero, if_true, if_false, false_and]
  · have hsum (u : Bool) : number false i hi + zero u =
        if f.units i = 0 then zero false else ofUnits false (f.units i) 1 := by
      show add (number false i hi) (number u 0 _) = _
      rw [add_number hi' hzero]
      have hunits : signed false (f.units i) + signed u (f.units 0) = f.units i := by
        cases u <;> simp [signed, f.units_zero]
      simp only [hunits, Bool.false_and, Int.natCast_eq_zero, Int.natAbs_natCast]
      rw [decide_eq_false (by omega)]
    rw [hsum, hsum]

/-- A product of two numbers without a sign has none, if it is a number. -/
theorem mul_positive {i j : Nat} (hi : i ≤ f.infinityIndex) (hj : j ≤ f.infinityIndex) :
    number false i hi * number false j hj = nan ∨
      ∃ k hk, number false i hi * number false j hj = number false k hk := by
  show mul _ _ = _ ∨ ∃ k hk, mul _ _ = _
  simp only [mul, ofScaled, infinity, bne_self_eq_false]
  split_ifs
  · exact .inl rfl
  · exact .inr ⟨f.infinityIndex, Nat.le_refl _, rfl⟩
  · exact .inr ⟨_, f.nearestScaled_le .., rfl⟩

end Binary

/-- One changes no number, not even the sign of a zero. -/
theorem Single.mul_one (x : Single) : x * Binary.ofNat 1 = x := by
  by_cases hfinite : x.isFinite = true
  · obtain ⟨s, i, hi, rfl, hi'⟩ := Binary.exists_eq_number hfinite
    have hone : (Binary.ofNat 1 : Single) = .number false (127 * 2 ^ 23) (by decide) := by
      decide +kernel
    have hunits : Format.single.units (127 * 2 ^ 23) = Format.single.unitsPerOne := by
      decide +kernel
    have hindex := Format.single.nearestIndex_units hi Format.single.unitsPerOne_pos
    rw [hone]
    show Binary.mul _ _ = _
    rw [Binary.mul_number hi' (by decide), hunits]
    simp only [Binary.ofUnits, hindex, Bool.bne_false]
  · by_cases hnan : x = .nan
    · rw [hnan]
      rfl
    · obtain ⟨s, rfl⟩ := Binary.exists_eq_infinity hnan hfinite
      obtain ⟨hone, hvalue⟩ := Single.one_exact
      exact Binary.infinity_mul (Binary.ne_nan_of_isFinite hone) (by rw [hvalue]; norm_num)

/-! ## One axis -/

namespace Axis

/-- The length of a region, at least one pixel. -/
def extent (start stop : Single) : Single := (stop - start).max (Binary.ofNat 1)

/-- What is not longer than one pixel is taken to be one pixel long. -/
theorem extent_eq_one {start stop : Single} (h : ¬ Binary.ofNat 1 < stop - start) :
    extent start stop = Binary.ofNat 1 := by
  obtain ⟨hfinite, hone⟩ := Single.one_exact
  have hnumber := Binary.ne_nan_of_isFinite hfinite
  obtain ⟨hnan, hle⟩ := one_le_extent start stop
  rw [extent]
  refine Binary.eq_of_value_eq hnan hnumber ?_ (by linarith)
  -- The length is at least one anyway; if it is the difference itself, it is not above one.
  refine le_antisymm ?_ (hone.trans_le hle)
  unfold Binary.max at hnan ⊢
  split_ifs at hnan ⊢ with hdifference hless
  · exact le_refl _
  · exact le_refl _
  · exact not_lt.mp fun hlt => h ((Binary.lt_iff_value_lt hnumber hnan).mpr hlt)

theorem extent_eq_of_sameNumber {start stop start' stop' : Single}
    (h : (extent start stop).SameNumber (extent start' stop')) :
    extent start stop = extent start' stop' := by
  rcases h.eq_or_zero with heq | ⟨s, t, hzero, -⟩
  · exact heq
  · -- A length is not zero.
    have hone := (one_le_extent start stop).2
    rw [show (stop - start).max (Binary.ofNat 1) = .zero s from hzero, Binary.value_zero] at hone
    linarith

/-- The width of a bin has no sign. -/
theorem exists_step_eq (start stop : Single) {bins : Nat} (hbins : 0 < bins)
    (hlt : bins < addressable) (samplingRatio : Int32) :
    ∃ i hi, (ofRegion start stop bins samplingRatio).step = .number false i hi := by
  obtain ⟨hextentNan, hone⟩ := one_le_extent start stop
  obtain ⟨hnan, hpos⟩ := step_pos hextentNan hone hbins hlt
  show ∃ i hi, (stop - start).max (Binary.ofNat 1) / Binary.ofNat bins = .number false i hi
  generalize (stop - start).max (Binary.ofNat 1) / Binary.ofNat bins = step at hnan hpos
  cases step with
  | nan => exact absurd rfl hnan
  | number s i hi =>
    obtain rfl := Binary.negative_eq_false hpos
    exact ⟨i, hi, rfl⟩

/-- An edge is the same from either zero on. -/
theorem edge_eq_of_sameNumber {a : Axis} (hstep : ∃ i hi, a.step = .number false i hi)
    {start : Single} (h : a.start.SameNumber start) (index : Nat) :
    a.edge index = { a with start }.edge index := by
  obtain ⟨i, hi, hstep⟩ := hstep
  show a.step * Binary.ofNat index + a.start = a.step * Binary.ofNat index + start
  rcases h.eq_or_zero with heq | ⟨s, t, hs, ht⟩
  · rw [heq]
  · -- The number of the bin has no sign either, so the product has none.
    obtain ⟨j, hj, hindex⟩ : ∃ j hj, (Binary.ofNat index : Single) = .number false j hj :=
      ⟨_, _, rfl⟩
    rw [hs, ht, hstep, hindex]
    rcases Binary.mul_positive hi hj with hnan | ⟨k, hk, hproduct⟩
    · rw [hnan]
      rfl
    · rw [hproduct]
      exact Binary.add_zero_eq hk s t

/-- The bins depend on the start and the length only. -/
theorem sameBins_ofRegion {start stop start' stop' : Single} {bins : Nat} (hbins : 0 < bins)
    (hlt : bins < addressable) (samplingRatio : Int32) (hstart : start.SameNumber start')
    (hextent : (extent start stop).SameNumber (extent start' stop')) :
    (ofRegion start stop bins samplingRatio).SameBins
      (ofRegion start' stop' bins samplingRatio) := by
  have hlength : (stop - start).max (Binary.ofNat 1) = (stop' - start').max (Binary.ofNat 1) :=
    extent_eq_of_sameNumber hextent
  -- Both axes are the same but for the start.
  have haxis : ofRegion start' stop' bins samplingRatio =
      { ofRegion start stop bins samplingRatio with start := start' } := by
    simp only [ofRegion, hlength]
  have hstep := exists_step_eq start stop hbins hlt samplingRatio
  rw [haxis]
  exact ⟨edge_eq_of_sameNumber hstep hstart, rfl, rfl⟩

end Axis

namespace Job

/-! ## Scaled boxes -/

/-- A coordinate of a record in pixels. -/
def scaled (job : Job) (e : Extents) (region place : Nat) : Single :=
  job.coordinate e region place * job.sampling.spatialScale

/-- A place in the buffer of the records where a batch index stands. -/
def IsIndexPlace (s : Shape) (place : Nat) : Prop :=
  s.sizes[1]? = some batchedLength ∧ place % batchedLength.toNat = 0

instance (s : Shape) (place : Nat) : Decidable (IsIndexPlace s place) :=
  inferInstanceAs (Decidable (_ ∧ _))

/-- The run on scaled boxes: every coordinate is multiplied by the scale beforehand, and the scale
is one. The batch indices stay as they are. -/
def prescaled (job : Job) : Job :=
  { job with
    regions := { job.regions with
      data := job.regions.data.mapIdx fun place x =>
        if IsIndexPlace job.regions.shape place then x else x * job.sampling.spatialScale }
    sampling := { job.sampling with spatialScale := Binary.ofNat 1 } }

variable {job : Job} {output : Array Single} {e : Extents}

theorem isIndexPlace_iff (h : e.Fits job.input job.regions ⟨job.output, output⟩) (region : Nat)
    {place : Nat} (hplace : place < e.recordLength) :
    IsIndexPlace job.regions.shape (region * e.recordLength + place) ↔
      e.hasBatchIndex = true ∧ place = 0 := by
  obtain ⟨count, length, hsizes, -, hlength⟩ := Extents.exists_pair h.regions_sizes
  have hbatched : length = batchedLength ↔ e.recordLength = 5 := by
    rw [← hlength]
    exact UInt32.toNat_inj.symm
  have hindex : e.hasBatchIndex = true ↔ e.recordLength = 5 := beq_iff_eq
  have hfive : batchedLength.toNat = 5 := rfl
  rw [IsIndexPlace, hsizes, hindex, hfive]
  simp only [List.getElem?_cons_succ, List.getElem?_cons_zero, Option.some.injEq, hbatched]
  constructor
  · rintro ⟨hrecord, hzero⟩
    rw [hrecord] at hplace hzero
    omega
  · rintro ⟨hrecord, rfl⟩
    rw [hrecord]
    omega

/-- An entry of a scaled record: a batch index as it was, or a coordinate times the scale. -/
theorem entry_prescaled (h : e.Fits job.input job.regions ⟨job.output, output⟩) {region place : Nat}
    (hregion : region < e.regions) (hplace : place < e.recordLength) :
    e.entry job.prescaled.regions.data region place =
      if e.hasBatchIndex = true ∧ place = 0 then e.entry job.regions.data region place
      else e.entry job.regions.data region place * job.sampling.spatialScale := by
  have hin : region * e.recordLength + place < job.regions.data.size := by
    rw [h.regions_size]
    exact block_lt hregion hplace
  show (Array.mapIdx _ _).getD _ _ = _
  rw [Extents.entry, Array.getD_eq_getD_getElem?, Array.getD_eq_getD_getElem?,
    Array.getElem?_mapIdx, Array.getElem?_eq_getElem hin, Option.map_some, Option.getD_some, Option.getD_some,
    if_congr (isIndexPlace_iff h region hplace) rfl rfl]

theorem index_prescaled (h : e.Fits job.input job.regions ⟨job.output, output⟩) {region : Nat}
    (hregion : region < e.regions) (hindex : e.hasBatchIndex = true) :
    e.entry job.prescaled.regions.data region 0 = e.entry job.regions.data region 0 := by
  rw [entry_prescaled h hregion h.recordLength_pos, if_pos ⟨hindex, rfl⟩]

theorem coordinate_prescaled (hcheck : job.check output = .ok e) {region place : Nat}
    (hregion : region < e.regions) (hplace : place < 4) :
    job.prescaled.coordinate e region place = job.scaled e region place := by
  have hentry := box_place_lt hcheck hplace
  rw [coordinate, entry_prescaled (fits_of_check hcheck) hregion hentry, if_neg]
  · rfl
  · rintro ⟨hindex, hzero⟩
    rw [if_pos hindex] at hzero
    omega

/-- The checks do not look at the coordinates. -/
theorem check_prescaled (job : Job) (output : Array Single) :
    job.prescaled.check output = job.check output := by
  have hbuffer : Extents.checkBuffer "roi" job.prescaled.regions =
      Extents.checkBuffer "roi" job.regions := by
    simp only [Extents.checkBuffer, prescaled, Array.size_mapIdx]
  have hresolve : Extents.resolve job.prescaled.input job.prescaled.regions
      ⟨job.prescaled.output, output⟩ =
        Extents.resolve job.input job.regions ⟨job.output, output⟩ := by
    unfold Extents.resolve
    rw [hbuffer]
    rfl
  unfold check
  rw [hresolve]
  cases hsizes : Extents.resolve job.input job.regions ⟨job.output, output⟩ with
  | error error => rfl
  | ok e =>
    have hfits := Extents.fits_of_resolve hsizes
    have hindices : e.checkBatchIndices job.prescaled.regions.data =
        e.checkBatchIndices job.regions.data := by
      unfold Extents.checkBatchIndices
      split
      · rename_i hindex
        refine forM_congr fun region hregion => ?_
        rw [index_prescaled hfits (List.mem_range.mp hregion) hindex]
      · rfl
    show (e.checkBatchIndices _ >>= _) = (e.checkBatchIndices _ >>= _)
    rw [hindices]

theorem batchOf_prescaled (hcheck : job.check output = .ok e) {region : Nat}
    (hregion : region < e.regions) : job.prescaled.batchOf e region = job.batchOf e region := by
  unfold batchOf
  split
  · rename_i hindex
    rw [index_prescaled (fits_of_check hcheck) hregion hindex]
  · rfl

theorem region_prescaled (hcheck : job.check output = .ok e) {region : Nat}
    (hregion : region < e.regions) :
    (job.prescaled.region e region).vertical = (job.region e region).vertical ∧
      (job.prescaled.region e region).horizontal = (job.region e region).horizontal := by
  have hcoordinate {place : Nat} (hplace : place < 4) :
      job.prescaled.coordinate e region place * job.prescaled.sampling.spatialScale =
        job.coordinate e region place * job.sampling.spatialScale := by
    rw [coordinate_prescaled hcheck hregion hplace]
    exact Single.mul_one _
  rw [region_vertical, region_vertical, region_horizontal, region_horizontal,
    hcoordinate (show 0 < 4 by decide), hcoordinate (show 1 < 4 by decide),
    hcoordinate (show 2 < 4 by decide), hcoordinate (show 3 < 4 by decide)]
  exact ⟨rfl, rfl⟩

/-- A run with a scale is the run on scaled boxes, also where it fails. -/
theorem align_prescaled (job : Job) (output : Array Single) :
    job.prescaled.align output = job.align output := by
  have hchecks := check_prescaled job output
  cases hcheck : job.check output with
  | error error =>
    rw [hcheck] at hchecks
    simp only [align, alignIn, hcheck, hchecks]
  | ok e =>
    rw [hcheck] at hchecks
    have hfits := fits_of_check hcheck
    refine Prod.ext ?_ ?_
    · rw [align_eq_ok_iff.mpr ⟨e, hcheck⟩, align_eq_ok_iff.mpr ⟨e, hchecks⟩]
    · refine ext_of_sites (size_align hchecks) (size_align hcheck) fun site hsite => ?_
      obtain ⟨hvertical, hhorizontal⟩ := region_prescaled hcheck hsite.region
      have hbatch := batchOf_prescaled hcheck hsite.region
      have hvalue : job.prescaled.valueAt e site = job.valueAt e site :=
        valueAt_congr rfl rfl hfits.height_pos hfits.width_pos rfl rfl (.of_eq hvertical)
          (.of_eq hhorizontal) fun y _ x _ => by rw [hbatch]; rfl
      rw [getElem?_align hchecks hsite, getElem?_align hcheck hsite, hvalue]

/-! ## Regions of one geometry -/

/-- Region `i` of one run and region `j` of another one are on the same batch and begin at the same
place. -/
structure SameCorner (job : Job) (e : Extents) (i : Nat) (other : Job) (e' : Extents) (j : Nat) :
    Prop where
  batch : job.batchOf e i = other.batchOf e' j
  left : (job.scaled e i 0).SameNumber (other.scaled e' j 0)
  top : (job.scaled e i 1).SameNumber (other.scaled e' j 1)

/-- The regions also have the same lengths. -/
structure SameGeometry (job : Job) (e : Extents) (i : Nat) (other : Job) (e' : Extents) (j : Nat) :
    Prop extends SameCorner job e i other e' j where
  width : (Axis.extent (job.scaled e i 0) (job.scaled e i 2)).SameNumber
    (Axis.extent (other.scaled e' j 0) (other.scaled e' j 2))
  height : (Axis.extent (job.scaled e i 1) (job.scaled e i 3)).SameNumber
    (Axis.extent (other.scaled e' j 1) (other.scaled e' j 3))

/-- Along both axes the region is inverted, empty or at most one pixel long, or its length is no
number. -/
structure Degenerate (job : Job) (e : Extents) (i : Nat) : Prop where
  width : ¬ Binary.ofNat 1 < job.scaled e i 2 - job.scaled e i 0
  height : ¬ Binary.ofNat 1 < job.scaled e i 3 - job.scaled e i 1

/-- The two runs are over the same map, with the same grid and the same sampling ratio. -/
structure SameSetting (job : Job) (e : Extents) (other : Job) (e' : Extents) : Prop where
  input : job.input = other.input
  samplingRatio : job.sampling.samplingRatio = other.sampling.samplingRatio
  rows : e.rows = e'.rows
  columns : e.columns = e'.columns

section Pair

variable {other : Job} {buffer : Array Single} {e' : Extents} {i j : Nat}

/-- Degenerate regions are all one pixel long. -/
theorem SameCorner.sameGeometry (h : SameCorner job e i other e' j) (hi : job.Degenerate e i)
    (hj : other.Degenerate e' j) : SameGeometry job e i other e' j where
  toSameCorner := h
  width := by
    rw [Axis.extent_eq_one hi.width, Axis.extent_eq_one hj.width]
    exact .inl rfl
  height := by
    rw [Axis.extent_eq_one hi.height, Axis.extent_eq_one hj.height]
    exact .inl rfl

/-- Runs over the same map have the same sizes of it. -/
theorem SameSetting.sizes_eq (h : SameSetting job e other e') (hcheck : job.check output = .ok e)
    (hcheck' : other.check buffer = .ok e') :
    e.height = e'.height ∧ e.width = e'.width ∧ e.depth = e'.depth := by
  have hsizes := (fits_of_check hcheck).input_sizes
  rw [h.input, (fits_of_check hcheck').input_sizes] at hsizes
  simp only [List.cons.injEq] at hsizes
  exact ⟨hsizes.2.1.symm, hsizes.2.2.1.symm, hsizes.2.2.2.1.symm⟩

theorem pooledMap_eq_of_sameGeometry (hcheck : job.check output = .ok e)
    (hcheck' : other.check buffer = .ok e') (hsetting : SameSetting job e other e')
    (hi : i < e.regions) (hj : j < e'.regions) (h : SameGeometry job e i other e' j) :
    pooledMap e (job.align output).2 i = pooledMap e' (other.align buffer).2 j := by
  obtain ⟨hheight, hwidth, hdepth⟩ := hsetting.sizes_eq hcheck hcheck'
  have hfits := fits_of_check hcheck
  refine pooledMap_congr hcheck hcheck' hi hj hsetting.rows hsetting.columns hdepth ?_
  rintro site hsite rfl
  have hsizes := addressed_of_within hcheck hsite
  have hvertical : (job.region e site.region).vertical.SameBins (other.region e' j).vertical := by
    rw [region_vertical, region_vertical, ← hsetting.rows, ← hsetting.samplingRatio]
    exact Axis.sameBins_ofRegion hsizes.rows_pos hsizes.rows_lt _ h.top h.height
  have hhorizontal : (job.region e site.region).horizontal.SameBins
      (other.region e' j).horizontal := by
    rw [region_horizontal, region_horizontal, ← hsetting.columns, ← hsetting.samplingRatio]
    exact Axis.sameBins_ofRegion hsizes.columns_pos hsizes.columns_lt _ h.left h.width
  refine valueAt_congr hheight hwidth hfits.height_pos hfits.width_pos rfl rfl hvertical
    hhorizontal fun y _ x _ => ?_
  rw [h.batch, pixel, pixel, hsetting.input, hheight, hwidth, hdepth]

end Pair

/--
A run uses its records and its scale only to find the batch, the corner and the lengths of each
region in pixels. First, multiplying the coordinates by the scale beforehand changes nothing about
the run. Second, in any two runs over one map with one grid and one sampling ratio, records of
whatever length and scales of whatever kind, two regions have the same pooled map if they are on the
same batch and have the same scaled corner and the same lengths, each of which is at least one
pixel. So have two regions with the same corner that are both degenerate.
-/
theorem align_by_geometry (job : Job) (output : Array Single) :
    job.prescaled.align output = job.align output ∧
      ∀ (other : Job) (buffer : Array Single) (e e' : Extents), job.check output = .ok e →
        other.check buffer = .ok e' → SameSetting job e other e' →
        ∀ i < e.regions, ∀ j < e'.regions,
          (SameGeometry job e i other e' j ∨
            SameCorner job e i other e' j ∧ job.Degenerate e i ∧ other.Degenerate e' j) →
          pooledMap e (job.align output).2 i = pooledMap e' (other.align buffer).2 j := by
  refine ⟨align_prescaled job output, ?_⟩
  intro other buffer e e' hcheck hcheck' hsetting i hi j hj h
  have hgeometry : SameGeometry job e i other e' j := by
    rcases h with hgeometry | ⟨hcorner, hdegenerate, hdegenerate'⟩
    · exact hgeometry
    · exact hcorner.sameGeometry hdegenerate hdegenerate'
  exact pooledMap_eq_of_sameGeometry hcheck hcheck' hsetting hi hj hgeometry

/-- Two boxes over the map of `quadrants` at half scale. The first one begins at minus zero, and the
second one ends nowhere. -/
def halfScale : Job :=
  { quadrants with
    regions := ⟨⟨[2, 4]⟩, #[.zero true, .zero false, .ofNat 8, .ofNat 8,
      .ofNat 2, .ofNat 2, .nan, .zero false]⟩
    sampling := { spatialScale := Binary.ofNat 1 / Binary.ofNat 2, samplingRatio := 2 }
    output := ⟨[2, 2, 2, 1]⟩ }

/-- The same boxes with a scale of one, behind batch indices; the second one is inverted. -/
def fullScale : Job :=
  { quadrants with
    regions := ⟨⟨[2, 5]⟩, ([0, 0, 0, 4, 4, 0, 1, 1, 0, 0].map Binary.ofNat).toArray⟩
    output := ⟨[2, 2, 2, 1]⟩ }

/-- The sizes of both runs, but for the length of the records. -/
def twoQuadrants (recordLength : Nat) : Extents :=
  { quadrantExtents with regions := 2, recordLength }

-- The checks are evaluated on both records.
set_option maxRecDepth 4000 in
/-- The first boxes have the same geometry, and the second ones are one pixel long. -/
theorem halfScale_by_geometry :
    let output : Array Single := Array.replicate 8 .nan
    halfScale.check output = .ok (twoQuadrants 4) ∧ fullScale.check output = .ok (twoQuadrants 5) ∧
      SameSetting halfScale (twoQuadrants 4) fullScale (twoQuadrants 5) ∧
      SameGeometry halfScale (twoQuadrants 4) 0 fullScale (twoQuadrants 5) 0 ∧
      SameCorner halfScale (twoQuadrants 4) 1 fullScale (twoQuadrants 5) 1 ∧
      halfScale.Degenerate (twoQuadrants 4) 1 ∧ fullScale.Degenerate (twoQuadrants 5) 1 ∧
      halfScale.prescaled.align output = halfScale.align output ∧
      pooledMap (twoQuadrants 4) (halfScale.align output).2 0 =
        pooledMap (twoQuadrants 5) (fullScale.align output).2 0 ∧
      pooledMap (twoQuadrants 4) (halfScale.align output).2 1 =
        pooledMap (twoQuadrants 5) (fullScale.align output).2 1 := by
  intro output
  have hcheck : halfScale.check output = .ok (twoQuadrants 4) := rfl
  have hcheck' : fullScale.check output = .ok (twoQuadrants 5) := rfl
  have hsetting : SameSetting halfScale (twoQuadrants 4) fullScale (twoQuadrants 5) :=
    ⟨rfl, rfl, rfl, rfl⟩
  have hgeometry : SameGeometry halfScale (twoQuadrants 4) 0 fullScale (twoQuadrants 5) 0 :=
    { batch := rfl
      left := .inr (by decide +kernel)
      top := .inl (by decide +kernel)
      width := .inl (by decide +kernel)
      height := .inl (by decide +kernel) }
  have hcorner : SameCorner halfScale (twoQuadrants 4) 1 fullScale (twoQuadrants 5) 1 :=
    ⟨by decide +kernel, .inl (by decide +kernel), .inl (by decide +kernel)⟩
  have hdegenerate : halfScale.Degenerate (twoQuadrants 4) 1 :=
    ⟨by decide +kernel, by decide +kernel⟩
  have hdegenerate' : fullScale.Degenerate (twoQuadrants 5) 1 :=
    ⟨by decide +kernel, by decide +kernel⟩
  obtain ⟨hprescaled, hpooled⟩ := align_by_geometry halfScale output
  have hmaps := hpooled fullScale output _ _ hcheck hcheck' hsetting
  exact ⟨hcheck, hcheck', hsetting, hgeometry, hcorner, hdegenerate, hdegenerate', hprescaled,
    hmaps 0 (by decide) 0 (by decide) (.inl hgeometry),
    hmaps 1 (by decide) 1 (by decide) (.inr ⟨hcorner, hdegenerate, hdegenerate'⟩)⟩

end Job

end RegionPooling
