import RegionPooling.Proofs.Pooling.Checked

/-!
# A run stays within its buffers

Every address that a run computes is below a product of sizes of one shape, and such a
product is an address because the number of elements of the shape is. `Extents.Addressed`
has the products that are needed. It comes from the checks of a run and from the fact that
there is something to write: without cells or channels a run ends before it divides by
their number.

What is left are the numbers that are not sizes. A batch index has passed its check, and the
corners of a sample are pixels of the map for any position whatever, be it infinite or no
number at all.

Main results:

* `Extents.Fits.addressed` — the sizes of a run that has something to write.
* `Corners.around_lt` — the corners of any position are pixels.
* `Checked.align_eq` — checking every address changes nothing.
* `Job.align_in_bounds` — what a run reads and writes lies within its buffers.
-/

namespace RegionPooling

/-! ## Sizes -/

namespace Extents

/-- The sizes are not zero, and what is computed from them are addresses. -/
structure Addressed (e : Extents) : Prop where
  recordLength_pos : 0 < e.recordLength
  height_pos : 0 < e.height
  width_pos : 0 < e.width
  depth_pos : 0 < e.depth
  rows_pos : 0 < e.rows
  columns_pos : 0 < e.columns
  height_lt : e.height < addressable
  width_lt : e.width < addressable
  rows_lt : e.rows < addressable
  columns_lt : e.columns < addressable
  area_lt : e.height * e.width < addressable
  grid_lt : e.rows * e.columns < addressable
  rowSize_lt : e.width * e.depth < addressable
  batchSize_lt : e.batchSize < addressable
  slabSize_lt : e.slabSize < addressable

theorem Fits.recordLength_pos {e : Extents} {input regions output : View}
    (h : e.Fits input regions output) : 0 < e.recordLength := by
  rcases h.recordLength with hfour | hfive
  · omega
  · omega

theorem Fits.addressed {e : Extents} {input regions output : View}
    (h : e.Fits input regions output) (hslab : e.slabSize ≠ 0) : e.Addressed := by
  have hone (n : Nat) : 1 ≤ max 1 n := Nat.le_max_left 1 n
  have hself (n : Nat) : n ≤ max 1 n := Nat.le_max_right 1 n
  have hgrid : e.rows * e.columns ≠ 0 := left_ne_zero_of_mul hslab
  exact {
    recordLength_pos := h.recordLength_pos
    height_pos := h.height_pos
    width_pos := h.width_pos
    depth_pos := Nat.pos_of_ne_zero (right_ne_zero_of_mul hslab)
    rows_pos := Nat.pos_of_ne_zero (left_ne_zero_of_mul hgrid)
    columns_pos := Nat.pos_of_ne_zero (right_ne_zero_of_mul hgrid)
    height_lt := by simpa using h.input_product_lt (hone _) (hself _) (hone _) (hone _)
    width_lt := by simpa using h.input_product_lt (hone _) (hone _) (hself _) (hone _)
    rows_lt := by simpa using h.output_product_lt (hone _) (hself _) (hone _) (hone _)
    columns_lt := by simpa using h.output_product_lt (hone _) (hone _) (hself _) (hone _)
    area_lt := by simpa using h.input_product_lt (hone _) (hself _) (hself _) (hone _)
    grid_lt := h.grid_lt
    rowSize_lt := by simpa using h.input_product_lt (hone _) (hone _) (hself _) (hself _)
    batchSize_lt := by
      simpa [batchSize] using h.input_product_lt (hone _) (hself _) (hself _) (hself _)
    slabSize_lt := h.slabSize_lt }

/-- The channels of a pixel lie in its batch. -/
theorem pixel_end_le (e : Extents) {y x : Nat} (hy : y < e.height) (hx : x < e.width) :
    y * (e.width * e.depth) + x * e.depth + e.depth ≤ e.batchSize := by
  calc y * (e.width * e.depth) + x * e.depth + e.depth
      = y * (e.width * e.depth) + (x + 1) * e.depth := by ring
    _ ≤ y * (e.width * e.depth) + e.width * e.depth :=
      Nat.add_le_add_left (Nat.mul_le_mul_right _ hx) _
    _ = (y + 1) * (e.width * e.depth) := by ring
    _ ≤ e.height * (e.width * e.depth) := Nat.mul_le_mul_right _ hy
    _ = e.batchSize := by rw [batchSize, Nat.mul_assoc]

end Extents

/-- Outside of the map, and at not-a-number, the corners are pixels too. -/
theorem Corners.around_lt (position : Single) {length : Nat} (h : 0 < length) :
    (Corners.around position length).lower < length ∧
      (Corners.around position length).upper < length := by
  simp only [Corners.around]
  split_ifs with hbelow hlast
  · exact ⟨h, h⟩
  · exact ⟨Nat.sub_lt h Nat.one_pos, Nat.sub_lt h Nat.one_pos⟩
  · -- The lower pixel is not the last one, so there is one after it.
    dsimp only
    exact ⟨by omega, by omega⟩

namespace Checked

/-! ## Loops without failures -/

theorem mapM_eq_some {α β : Type} {f : α → Option β} {g : α → β} {xs : List α}
    (h : ∀ x ∈ xs, f x = some (g x)) : xs.mapM f = some (xs.map g) := by
  induction xs with
  | nil => rfl
  | cons x rest ih =>
    rw [List.mapM_cons, h x (List.mem_cons_self ..),
      ih fun y hy => h y (List.mem_cons_of_mem _ hy)]
    rfl

/-- A loop does not fail if no step fails where the invariant holds. -/
theorem foldlM_eq_some {σ α : Type} (P : σ → Prop) (xs : List α) {f : σ → α → Option σ}
    {g : σ → α → σ} (h : ∀ s, P s → ∀ x ∈ xs, f s x = some (g s x) ∧ P (g s x)) {s : σ}
    (hs : P s) : xs.foldlM f s = some (xs.foldl g s) ∧ P (xs.foldl g s) := by
  induction xs generalizing s with
  | nil => exact ⟨rfl, hs⟩
  | cons x rest ih =>
    obtain ⟨hstep, hnext⟩ := h s hs x (List.mem_cons_self ..)
    rw [List.foldlM_cons, hstep]
    exact ih (fun s hs y hy => h s hs y (List.mem_cons_of_mem _ hy)) hnext

/-! ## One sample -/

theorem around_eq (position : Single) {length : Nat} (h : 0 < length)
    (hlt : length < addressable) : around position length = some (.around position length) := by
  simp only [around, Corners.around, difference_eq (show 1 ≤ length from h)]
  split_ifs with hbelow hlast
  · rfl
  · exact if_pos hlast
  · rw [sum_eq (by omega)]
    exact if_neg hlast

/-- A batch of the feature map. -/
structure IsBatch (e : Extents) (input batch : Array Single) (base : Nat) : Prop where
  batch_eq : batch = input.extract base (base + e.batchSize)
  end_le : base + e.batchSize ≤ input.size

section Batch

variable {e : Extents} {input batch : Array Single} {base : Nat}

theorem IsBatch.size_eq (h : IsBatch e input batch base) : batch.size = e.batchSize := by
  rw [h.batch_eq, Array.size_extract, Nat.min_eq_left h.end_le, Nat.add_sub_cancel_left]

/-- The channels of a pixel are found, and they are those of the feature map. -/
theorem exists_pixel_eq (h : IsBatch e input batch base) (hsizes : e.Addressed) {y x : Nat}
    (hy : y < e.height) (hx : x < e.width) :
    ∃ channels, pixel e batch (e.width * e.depth) y x = some channels ∧
      ∀ channel < e.depth, channels[channel]? =
        some (input.getD (base + y * (e.width * e.depth) + x * e.depth + channel)
          (.zero false)) := by
  have hend := e.pixel_end_le hy hx
  have hlt := hsizes.batchSize_lt
  have hsize := h.size_eq
  refine ⟨batch.extract (y * (e.width * e.depth) + x * e.depth)
    (y * (e.width * e.depth) + x * e.depth + e.depth), ?_, ?_⟩
  · -- Every partial result is at most the end of the pixel.
    simp only [pixel, product_eq (show y * (e.width * e.depth) < addressable by omega),
      product_eq (show x * e.depth < addressable by omega), Option.bind_eq_bind, Option.bind_some]
    rw [sum_eq (by omega), Option.bind_some, part_eq (by omega) (Nat.le_refl _),
      Option.bind_some, part_eq (Nat.zero_le _) (by rw [Array.size_extract]; omega),
      Array.extract_extract, Nat.add_zero, Nat.min_eq_left (by omega)]
  · intro channel hchannel
    rw [getElem?_extract_eq_getD (by omega) (by omega), Array.getD_eq_getD_getElem?,
      h.batch_eq, getElem?_extract_eq_getD (by omega) h.end_le, Option.getD_some]
    congr 2
    omega

theorem addSample_eq (h : IsBatch e input batch base) (hsizes : e.Addressed) {y x : Corners}
    (hy : y.lower < e.height ∧ y.upper < e.height) (hx : x.lower < e.width ∧ x.upper < e.width)
    {sums : Array Single} (hsums : sums.size = e.depth) :
    addSample e batch (e.width * e.depth) y x sums =
      some (Region.addSample input sums (.ofCorners base (e.width * e.depth) e.depth y x)) := by
  obtain ⟨topLeft, htopLeft, hat⟩ := exists_pixel_eq h hsizes hy.1 hx.1
  obtain ⟨topRight, htopRight, hat'⟩ := exists_pixel_eq h hsizes hy.1 hx.2
  obtain ⟨bottomLeft, hbottomLeft, hat''⟩ := exists_pixel_eq h hsizes hy.2 hx.1
  obtain ⟨bottomRight, hbottomRight, hat'''⟩ := exists_pixel_eq h hsizes hy.2 hx.2
  simp only [addSample, htopLeft, htopRight, hbottomLeft, hbottomRight, Option.bind_eq_bind,
    Option.bind_some]
  -- One number for each channel; the two buffers are compared channel by channel.
  let s : Sample := .ofCorners base (e.width * e.depth) e.depth y x
  rw [mapM_eq_some (g := fun channel => sums.getD channel (.zero false) + s.value input channel)]
  · rw [Option.bind_some, Option.pure_def, Option.some.injEq]
    refine Array.ext (by simp [Region.addSample, hsums]) ?_
    intro channel hleft hright
    have hchannel : channel < sums.size := by simpa [hsums] using hleft
    simp [Region.addSample, hchannel, s]
  · intro channel hchannel
    have hchannel : channel < e.depth := List.mem_range.mp hchannel
    have hsum : sums[channel]? = some (sums.getD channel (.zero false)) := by
      rw [Array.getD_eq_getD_getElem?, Array.getElem?_eq_getElem (by omega), Option.getD_some]
    simp only [hat channel hchannel, hat' channel hchannel, hat'' channel hchannel,
      hat''' channel hchannel, hsum, Option.bind_some]
    rfl

/-! ## One region -/

theorem cell_eq (h : IsBatch e input batch base) (hsizes : e.Addressed) (r : Region)
    (hbase : r.base = base) {index : Nat} (hindex : index < e.rows * e.columns)
    {place : Array Single} (hplace : place.size = e.depth) :
    cell e batch (e.width * e.depth) r.vertical r.horizontal r.samples index place =
      some (Region.cell e input r (index / e.columns) (index % e.columns)) := by
  have hrow : index / e.columns < e.rows :=
    Nat.div_lt_of_lt_mul (by rwa [Nat.mul_comm e.columns])
  have hcolumn := Nat.mod_lt index hsizes.columns_pos
  have hzeros : (place.map fun _ => (.zero false : Single)) =
      Array.replicate e.depth (.zero false) := by
    rw [Array.map_const', hplace]
  have hsample (y x : Single) (sums : Array Single) (hsums : sums.size = e.depth) :
      addSample e batch (e.width * e.depth) (.around y e.height) (.around x e.width) sums =
          some (Region.addSample input sums (.ofCorners base (e.width * e.depth) e.depth
            (.around y e.height) (.around x e.width))) :=
    addSample_eq h hsizes (Corners.around_lt y hsizes.height_pos)
      (Corners.around_lt x hsizes.width_pos) hsums
  -- Both walks keep one sum for each channel.
  have hloop := (foldlM_eq_some (fun sums : Array Single => sums.size = e.depth)
    (walk (r.vertical.edge (index / e.columns)) (r.vertical.edge (index / e.columns + 1))
      r.vertical.bin)
    (f := fun sums y => do
      let y ← around y e.height
      (walk (r.horizontal.edge (index % e.columns)) (r.horizontal.edge (index % e.columns + 1))
        r.horizontal.bin).foldlM
        (fun sums x => do
          addSample e batch (e.width * e.depth) y (← around x e.width) sums) sums)
    (fun sums hsums y _ => by
      rw [around_eq y hsizes.height_pos hsizes.height_lt]
      exact foldlM_eq_some (fun sums : Array Single => sums.size = e.depth) _
        (fun sums hsums x _ => by
          rw [around_eq x hsizes.width_pos hsizes.width_lt]
          exact ⟨hsample y x sums hsums, by rw [Region.addSample, Array.size_mapIdx, hsums]⟩)
        hsums)
    (show (Array.replicate e.depth (.zero false : Single)).size = e.depth from
      Array.size_replicate ..)).1
  simp only [cell, quotient_eq hsizes.columns_pos, remainder_eq hsizes.columns_pos,
    Option.bind_eq_bind, Option.bind_some]
  have hrows := hsizes.rows_lt
  have hcolumns := hsizes.columns_lt
  rw [sum_eq (by omega), sum_eq (by omega), hzeros]
  simp only [Option.bind_eq_bind] at hloop
  simp only [Option.bind_some, hloop]
  rw [Region.cell, Region.cellSums_eq, Region.grid, List.foldl_flatMap, hbase]
  simp only [List.foldl_map, Axis.bounds]
  rfl

end Batch

/-- The ratio of an axis is a whole number of four bytes. -/
theorem natAbs_ratio_le (start stop : Single) (bins : Nat) (samplingRatio : Int32) :
    (Axis.ofRegion start stop bins samplingRatio).ratio.natAbs ≤ 2 ^ 31 := by
  simp only [Axis.ofRegion]
  split
  · have hlower := samplingRatio.le_toInt
    have hupper := samplingRatio.toInt_lt
    omega
  · unfold Binary.clampToInt
    split
    · simp
    · dsimp only
      split_ifs
      · decide
      · decide
      · omega
      · omega

theorem samples_eq (e : Extents) (s : Sampling) (regions : Array Single) (region : Nat) :
    samples (Region.ofRecord e s regions region).vertical
      (Region.ofRecord e s regions region).horizontal =
        some (Region.ofRecord e s regions region).samples := by
  refine if_pos ?_
  rw [Int.natAbs_mul]
  calc _ ≤ 2 ^ 31 * 2 ^ 31 := Nat.mul_le_mul (natAbs_ratio_le ..) (natAbs_ratio_le ..)
    _ < 2 ^ 63 := by decide

/-- The part of the regions' buffer that is the record of a region. -/
def record (e : Extents) (regions : Array Single) (region : Nat) : Array Single :=
  regions.extract (region * e.recordLength) ((region + 1) * e.recordLength)

section Run

variable {job : Job} {output : Array Single} {e : Extents}

theorem end_record_le (h : e.Fits job.input job.regions ⟨job.output, output⟩)
    {region : Nat} (hregion : region < e.regions) :
    (region + 1) * e.recordLength ≤ job.regions.data.size := by
  rw [h.regions_size]
  exact Nat.mul_le_mul_right _ hregion

theorem size_record (h : e.Fits job.input job.regions ⟨job.output, output⟩)
    {region : Nat} (hregion : region < e.regions) :
    (record e job.regions.data region).size = e.recordLength := by
  exact size_chunk hregion h.regions_size

theorem getElem?_record (h : e.Fits job.input job.regions ⟨job.output, output⟩)
    {region place : Nat} (hregion : region < e.regions) (hplace : place < e.recordLength) :
    (record e job.regions.data region)[place]? =
      some (e.entry job.regions.data region place) := by
  have hnext := Nat.add_one_mul region e.recordLength
  rw [record, getElem?_extract_eq_getD (by omega) (end_record_le h hregion), Extents.entry]

theorem exists_coordinates_eq (h : e.Fits job.input job.regions ⟨job.output, output⟩)
    {region : Nat} (hregion : region < e.regions) :
    ∃ numbers, coordinates e (record e job.regions.data region) = some numbers ∧
      ∀ place < 4, numbers[place]? = some (e.entry job.regions.data region
        ((if e.hasBatchIndex then 1 else 0) + place)) := by
  have hsize := size_record h hregion
  unfold coordinates
  by_cases hindex : e.hasBatchIndex = true
  · have hlength : e.recordLength = 5 := eq_of_beq hindex
    rw [if_pos hindex, if_pos hindex]
    refine ⟨_, part_eq (by omega) (Nat.le_refl _), ?_⟩
    intro place hplace
    have hat := getElem?_record h hregion (show 1 + place < e.recordLength by omega)
    rwa [Array.getElem?_extract_of_lt (by omega), ← Array.getElem?_eq_getElem]
  · have hlength : e.recordLength = 4 := by
      refine h.recordLength.resolve_right fun hfive => hindex ?_
      rw [Extents.hasBatchIndex, hfive]
      rfl
    rw [if_neg hindex, if_neg hindex]
    refine ⟨_, rfl, ?_⟩
    intro place hplace
    rw [getElem?_record h hregion (by omega), Nat.zero_add]

theorem batchIndex_eq (h : job.check output = .ok e) (hsizes : e.Addressed) {region : Nat}
    (hregion : region < e.regions) :
    batchIndex e (record e job.regions.data region) = some (job.batchOf e region) := by
  rw [batchIndex, getElem?_record (Job.fits_of_check h) hregion hsizes.recordLength_pos, Job.batchOf]
  split
  · rfl
  · rfl

/-- The batch of a region lies in the feature map. -/
theorem end_batch_le (h : job.check output = .ok e) {region : Nat} (hregion : region < e.regions) :
    (job.batchOf e region + 1) * e.batchSize ≤ job.input.data.size := by
  rw [(Job.fits_of_check h).input_size]
  exact Nat.mul_le_mul_right _ (Job.batchOf_lt h hregion)

theorem size_input_lt (h : job.check output = .ok e) : job.input.data.size < addressable := by
  have hfits := Job.fits_of_check h
  have hlt := hfits.input_product_lt (Nat.le_max_right 1 _) (Nat.le_max_right 1 _)
    (Nat.le_max_right 1 _) (Nat.le_max_right 1 _)
  rw [hfits.input_size, Extents.batchSize]
  simpa only [Nat.mul_assoc] using hlt

theorem batch_eq (h : job.check output = .ok e) (hsizes : e.Addressed) {region : Nat}
    (hregion : region < e.regions) :
    batch e job.input.data (job.batchOf e region) = some (job.input.data.extract
      (job.batchOf e region * e.batchSize) ((job.batchOf e region + 1) * e.batchSize)) := by
  have hend := end_batch_le h hregion
  have hsize := size_input_lt h
  have hnext := Nat.add_one_mul (job.batchOf e region) e.batchSize
  -- The number of batches is an address, and the selected one is below it.
  have hbatches : job.batchOf e region + 1 < addressable :=
    Nat.lt_of_le_of_lt (Job.batchOf_lt h hregion) (Job.fits_of_check h).batches_lt
  have hbatchSize : product (e.height * e.width) e.depth = some e.batchSize :=
    product_eq hsizes.batchSize_lt
  rw [batch, product_eq hsizes.area_lt]
  simp only [Option.bind_eq_bind, Option.bind_some, hbatchSize]
  rw [product_eq (by omega), Option.bind_some, sum_eq hbatches, Option.bind_some,
    product_eq (by omega), Option.bind_some, part_eq (by omega) hend]

/-- Pooling a record goes through. -/
theorem pool_eq (h : job.check output = .ok e) (hsizes : e.Addressed) {region : Nat}
    (hregion : region < e.regions) {slab : Array Single} (hslab : slab.size = e.slabSize) :
    pool e job.sampling job.input.data (record e job.regions.data region) slab =
      some ((job.region e region).slab e job.input.data) := by
  obtain ⟨numbers, hnumbers, hat⟩ := exists_coordinates_eq (Job.fits_of_check h) hregion
  have hnext := Nat.add_one_mul (job.batchOf e region) e.batchSize
  have hbatch : IsBatch e job.input.data
      (job.input.data.extract (job.batchOf e region * e.batchSize)
        ((job.batchOf e region + 1) * e.batchSize)) (job.batchOf e region * e.batchSize) :=
    ⟨by rw [hnext], by rw [← hnext]; exact end_batch_le h hregion⟩
  -- The cells go along with the parts of the pooled map, whose contents do not matter.
  have hcells : (List.range (e.rows * e.columns)).mapM (fun index =>
      cell e (job.input.data.extract (job.batchOf e region * e.batchSize)
        ((job.batchOf e region + 1) * e.batchSize)) (e.width * e.depth)
        (job.region e region).vertical (job.region e region).horizontal
        (job.region e region).samples index
        (slab.extract (index * e.depth) ((index + 1) * e.depth))) =
      some ((List.range (e.rows * e.columns)).map fun index => Region.cell e job.input.data
        (job.region e region) (index / e.columns) (index % e.columns)) := by
    refine mapM_eq_some fun index hindex => ?_
    have hindex := List.mem_range.mp hindex
    exact cell_eq hbatch hsizes _ (job.region_base e region) hindex (size_chunk hindex hslab)
  let coordinate (place : Nat) : Single := e.entry job.regions.data region
    ((if e.hasBatchIndex then 1 else 0) + place) * job.sampling.spatialScale
  have hvertical : Axis.ofRegion (coordinate 1) (coordinate 3) e.rows
      job.sampling.samplingRatio = (job.region e region).vertical := rfl
  have hhorizontal : Axis.ofRegion (coordinate 0) (coordinate 2) e.columns
      job.sampling.samplingRatio = (job.region e region).horizontal := rfl
  have hsamples : samples (job.region e region).vertical (job.region e region).horizontal =
      some (job.region e region).samples := samples_eq e job.sampling job.regions.data region
  unfold pool
  rw [hnumbers, batchIndex_eq h hsizes hregion]
  simp only [coordinate] at hvertical hhorizontal
  simp only [Option.bind_eq_bind, Option.bind_some, batch_eq h hsizes hregion,
    hat 0 (by decide), hat 1 (by decide), hat 2 (by decide), hat 3 (by decide), Option.map_some,
    hvertical, hhorizontal, hsamples, product_eq hsizes.rowSize_lt,
    chunks_eq hsizes.depth_pos hslab, List.mapM_map, Function.comp_def]
  rw [hcells, Option.bind_some, List.flatMap_map]
  rfl

/-! ## All regions -/

/-- The records are the parts of the regions' buffer. -/
theorem chunks_regions_eq (h : e.Fits job.input job.regions ⟨job.output, output⟩) :
    chunks job.regions.data e.recordLength = some ((List.range e.regions).map fun region =>
      (region, record e job.regions.data region)) :=
  chunks_eq h.recordLength_pos h.regions_size

theorem poolAll_eq (h : job.check output = .ok e) :
    poolAll job e output = some (if e.slabSize = 0 then output
      else (List.range e.regions).foldl (job.poolInto e) output) := by
  have hfits := Job.fits_of_check h
  -- The size of a pooled map is computed before it is known whether there is anything to write.
  have hslabSize : product (e.rows * e.columns) e.depth = some e.slabSize :=
    product_eq hfits.slabSize_lt
  rw [poolAll, product_eq hfits.grid_lt]
  simp only [Option.bind_eq_bind, Option.bind_some, hslabSize]
  by_cases hslab : e.slabSize = 0
  · rw [if_pos hslab, if_pos hslab]
    rfl
  · have hsizes := hfits.addressed hslab
    -- As many records as pooled maps, so none is left over.
    have hslabs := chunks_eq (Nat.pos_of_ne_zero hslab) hfits.output_size
    rw [if_neg hslab, if_neg hslab, chunks_regions_eq hfits, Option.bind_some, hslabs,
      Option.bind_some, List.zip_map', List.foldlM_map]
    refine (foldlM_eq_some (fun _ => True) _ (fun written _ region hregion => ?_) trivial).1
    have hregion := List.mem_range.mp hregion
    simp only [pool_eq h hsizes hregion (size_chunk hregion hfits.output_size), Option.bind_some]
    exact ⟨rfl, trivial⟩

theorem checkBatchIndices_eq (h : e.Fits job.input job.regions ⟨job.output, output⟩) :
    checkBatchIndices e job.regions.data = some (e.checkBatchIndices job.regions.data) := by
  unfold checkBatchIndices Extents.checkBatchIndices
  by_cases hindex : e.hasBatchIndex = true
  · rw [if_pos hindex, if_pos hindex, chunks_regions_eq h]
    simp only [Option.bind_eq_bind, Option.bind_some, List.mapM_map]
    rw [mapM_eq_some (g := fun region => (region, e.entry job.regions.data region 0))]
    · simp [List.forM_map]
    · intro region hregion
      have hat := getElem?_record h (List.mem_range.mp hregion) h.recordLength_pos
      simp only [Function.comp_apply, hat, Option.bind_some]
      rfl
  · rw [if_neg hindex, if_neg hindex]

/-- Checking every address changes nothing: the run never computes one that is none, and never
reads or writes outside of a buffer. -/
theorem align_eq (job : Job) (output : Array Single) :
    align job output = some (job.align output) := by
  unfold align
  cases hresolve : Extents.resolve job.input job.regions ⟨job.output, output⟩ with
  | error error =>
    have hcheck : job.check output = .error error := by
      rw [Job.check, hresolve]
      rfl
    rw [Job.align, Job.alignIn, hcheck]
  | ok e =>
    -- The sizes fit as soon as they are resolved, also where a batch index is then rejected.
    have hfits := Extents.fits_of_resolve hresolve
    simp only [checkBatchIndices_eq hfits, Option.bind_eq_bind, Option.bind_some]
    cases hbatches : e.checkBatchIndices job.regions.data with
    | error error =>
      have hcheck : job.check output = .error error := by
        rw [Job.check, hresolve]
        show (e.checkBatchIndices job.regions.data >>= _) = _
        rw [hbatches]
        rfl
      rw [Job.align, Job.alignIn, hcheck]
      rfl
    | ok =>
      have hcheck := Job.check_eq_ok_iff.mpr ⟨hresolve, hbatches⟩
      rw [Job.align_of_check hcheck]
      simp only [poolAll_eq hcheck, Option.bind_some]
      rfl

end Run

end Checked

/-! ## All addresses of a run -/

namespace Job

/-- What a run reads and writes, region by region, lies within its buffers. -/
structure InBounds (job : Job) (e : Extents) (output : Array Single) : Prop where
  sizes : e.Addressed
  /-- The place behind the last batch is an address. -/
  input_lt : job.input.data.size < addressable
  batch_end_le : ∀ region < e.regions,
    (job.batchOf e region + 1) * e.batchSize ≤ job.input.data.size
  /-- The four pixels of a sample, at whatever position, lie in the batch. -/
  pixel_end_le : ∀ vertical horizontal : Single,
    ∀ y ∈ [(Corners.around vertical e.height).lower, (Corners.around vertical e.height).upper],
    ∀ x ∈ [(Corners.around horizontal e.width).lower, (Corners.around horizontal e.width).upper],
      y * (e.width * e.depth) + x * e.depth + e.depth ≤ e.batchSize
  slab_end_le : ∀ region < e.regions, (region + 1) * e.slabSize ≤ output.size

theorem inBounds_of_check {job : Job} {output : Array Single} {e : Extents}
    (h : job.check output = .ok e) (hslab : e.slabSize ≠ 0) : job.InBounds e output := by
  have hfits := fits_of_check h
  have hsizes := hfits.addressed hslab
  refine ⟨hsizes, Checked.size_input_lt h, fun region => Checked.end_batch_le h, ?_, ?_⟩
  · intro vertical horizontal y hy x hx
    have hrow := Corners.around_lt vertical hsizes.height_pos
    have hcolumn := Corners.around_lt horizontal hsizes.width_pos
    refine e.pixel_end_le ?_ ?_
    · rcases List.mem_pair.mp hy with rfl | rfl
      · exact hrow.1
      · exact hrow.2
    · rcases List.mem_pair.mp hx with rfl | rfl
      · exact hcolumn.1
      · exact hcolumn.2
  · intro region hregion
    rw [hfits.output_size]
    exact Nat.mul_le_mul_right _ hregion

/--
A run is safe for all shapes, buffers, scales and ratios: with every address checked it does
what it does without, and once its checks have passed and there is something to write, its
sizes are addresses and the parts of the buffers that it takes lie within them.
-/
theorem align_in_bounds (job : Job) (output : Array Single) :
    Checked.align job output = some (job.align output) ∧
      ∀ e, job.check output = .ok e → e.slabSize ≠ 0 → job.InBounds e output :=
  ⟨Checked.align_eq job output, fun _ h hslab => inBounds_of_check h hslab⟩

theorem quadrants_in_bounds :
    quadrants.check quadrantMeans = .ok quadrantExtents ∧ quadrantExtents.slabSize ≠ 0 ∧
      quadrants.InBounds quadrantExtents quadrantMeans := by
  have hcheck : quadrants.check quadrantMeans = .ok quadrantExtents := rfl
  have hslab : quadrantExtents.slabSize ≠ 0 := by decide
  exact ⟨hcheck, hslab, (align_in_bounds quadrants quadrantMeans).2 quadrantExtents hcheck hslab⟩

end Job

end RegionPooling
