import Mathlib.Tactic.Ring
import RegionPooling.Pooling.Align
import RegionPooling.Proofs.Failures
import RegionPooling.Proofs.Shape

/-!
# What the checks of a run establish

`Extents.Fits` collects all that `Extents.resolve` has checked by the time it answers: the
three shapes have the sizes of the run, the feature map is not empty in its first three
dimensions, and every buffer has as many elements as its shape. Everything later that needs
one of these facts takes it from here and does not open the checks again.

Main results:

* `Extents.resolve_eq_ok_iff` — the checks resolve exactly the sizes that fit.
* `Extents.Fits.input_product_lt` and `Extents.Fits.output_product_lt` — products of fitting
  sizes are addresses, also where some other size is zero.
* `Job.align_of_check` — what a run does once its checks have passed.
-/

namespace RegionPooling

namespace Shape

theorem size_eq_ok_iff {s : Shape} {axis : Nat} {size : UInt32} :
    s.size axis = .ok size ↔ s.sizes[axis]? = some size := by
  unfold Shape.size
  cases s.sizes[axis]? with
  | none => simp
  | some other => simp

theorem expectRank_eq_ok_iff {s : Shape} {tensor : String} {rank : Nat} :
    s.expectRank tensor rank = .ok () ↔ s.sizes.length = rank := by
  unfold Shape.expectRank Shape.rank
  split
  · simp [*]
  · simp [*]

end Shape

namespace Extents

/-! ## Fitting sizes -/

/-- The sizes are those of the shapes, and the buffers have as many elements. -/
structure Fits (e : Extents) (input regions output : View) : Prop where
  input_sizes :
    input.shape.sizes.map UInt32.toNat = [e.batches, e.height, e.width, e.depth]
  regions_sizes : regions.shape.sizes.map UInt32.toNat = [e.regions, e.recordLength]
  output_sizes :
    output.shape.sizes.map UInt32.toNat = [e.regions, e.rows, e.columns, e.depth]
  recordLength : e.recordLength = 4 ∨ e.recordLength = 5
  batches_pos : 0 < e.batches
  height_pos : 0 < e.height
  width_pos : 0 < e.width
  input_count : input.shape.count? = some input.data.size
  regions_count : regions.shape.count? = some regions.data.size
  output_count : output.shape.count? = some output.data.size

theorem checkRecordLength_eq_ok_iff {length : UInt32} :
    checkRecordLength length = .ok () ↔ length.toNat = 4 ∨ length.toNat = 5 := by
  unfold checkRecordLength
  have hbox : length = boxLength ↔ length.toNat = 4 := UInt32.toNat_inj.symm
  have hbatched : length = batchedLength ↔ length.toNat = 5 := UInt32.toNat_inj.symm
  split
  · rename_i h
    exact ⟨fun _ => h.imp hbox.mp hbatched.mp, fun _ => rfl⟩
  · rename_i h
    exact ⟨fun hok => (by cases hok), fun hlength => absurd (hlength.imp hbox.mpr hbatched.mpr) h⟩

theorem checkDimension_eq_ok {what : String} {expected : UInt32} {s : Shape} {axis : Nat}
    (h : checkDimension what expected s axis = .ok ()) : s.sizes[axis]? = some expected := by
  obtain ⟨actual, hsize, h⟩ := bind_eq_ok.mp h
  split at h
  · cases h
  · rename_i hne
    rw [← not_not.mp hne]
    exact Shape.size_eq_ok_iff.mp hsize

theorem checkBuffer_eq_ok {tensor : String} {v : View} (h : checkBuffer tensor v = .ok ()) :
    v.shape.count? = some v.data.size := by
  obtain ⟨expected, hcount, h⟩ := bind_eq_ok.mp h
  split at h
  · cases h
  · rename_i hne
    rw [not_not.mp hne]
    exact Shape.count_eq_ok_iff.mp hcount

theorem checkNotEmpty_eq_ok {input : Shape} (h : checkNotEmpty input = .ok ()) :
    ∀ axis ∈ [0, 1, 2], ∃ size, input.sizes[axis]? = some size ∧ 0 < size.toNat := by
  intro axis haxis
  obtain ⟨size, hsize, h⟩ := bind_eq_ok.mp (forM_eq_ok_iff.mp h axis haxis)
  refine ⟨size, Shape.size_eq_ok_iff.mp hsize, Nat.pos_of_ne_zero fun hzero => ?_⟩
  obtain rfl : size = 0 := UInt32.toNat_inj.mp hzero
  cases h

theorem checkNotEmpty_eq_ok_of {batches height width depth : UInt32} (hbatches : 0 < batches.toNat)
    (hheight : 0 < height.toNat) (hwidth : 0 < width.toNat) :
    checkNotEmpty ⟨[batches, height, width, depth]⟩ = .ok () := by
  have hpos {size : UInt32} (h : 0 < size.toNat) : size ≠ 0 := by
    rintro rfl
    exact absurd h (by decide)
  refine forM_eq_ok_iff.mpr fun axis haxis => ?_
  simp only [List.mem_cons, List.not_mem_nil, or_false] at haxis
  rcases haxis with rfl | rfl | rfl
  · exact bind_eq_ok.mpr ⟨batches, rfl, if_neg (hpos hbatches)⟩
  · exact bind_eq_ok.mpr ⟨height, rfl, if_neg (hpos hheight)⟩
  · exact bind_eq_ok.mpr ⟨width, rfl, if_neg (hpos hwidth)⟩

/-- A list with these two entries and no more. -/
theorem pair_eq_of_getElem? {sizes : List UInt32} {a b : UInt32} (hlength : sizes.length = 2)
    (ha : sizes[0]? = some a) (hb : sizes[1]? = some b) : sizes = [a, b] := by
  match sizes, hlength with
  | [_, _], _ => simp_all

/-- A list with these four entries and no more. -/
theorem quadruple_eq_of_getElem? {sizes : List UInt32} {a b c d : UInt32}
    (hlength : sizes.length = 4) (ha : sizes[0]? = some a) (hb : sizes[1]? = some b)
    (hc : sizes[2]? = some c) (hd : sizes[3]? = some d) : sizes = [a, b, c, d] := by
  match sizes, hlength with
  | [_, _, _, _], _ => simp_all

theorem fits_of_resolve {input regions output : View} {e : Extents}
    (h : resolve input regions output = .ok e) : e.Fits input regions output := by
  -- One step for each check, in the order of the checks.
  obtain ⟨_, hinputRank, h⟩ := bind_eq_ok.mp h
  obtain ⟨_, hregionsRank, h⟩ := bind_eq_ok.mp h
  obtain ⟨_, houtputRank, h⟩ := bind_eq_ok.mp h
  obtain ⟨recordLength, hrecordLength, h⟩ := bind_eq_ok.mp h
  obtain ⟨_, hcheckLength, h⟩ := bind_eq_ok.mp h
  obtain ⟨_, hnotEmpty, h⟩ := bind_eq_ok.mp h
  obtain ⟨count, hcount, h⟩ := bind_eq_ok.mp h
  obtain ⟨depth, hdepth, h⟩ := bind_eq_ok.mp h
  obtain ⟨_, houtputCount, h⟩ := bind_eq_ok.mp h
  obtain ⟨_, houtputDepth, h⟩ := bind_eq_ok.mp h
  obtain ⟨_, hinputBuffer, h⟩ := bind_eq_ok.mp h
  obtain ⟨_, hregionsBuffer, h⟩ := bind_eq_ok.mp h
  obtain ⟨_, houtputBuffer, h⟩ := bind_eq_ok.mp h
  obtain ⟨batches, hbatches, h⟩ := bind_eq_ok.mp h
  obtain ⟨height, hheight, h⟩ := bind_eq_ok.mp h
  obtain ⟨width, hwidth, h⟩ := bind_eq_ok.mp h
  obtain ⟨rows, hrows, h⟩ := bind_eq_ok.mp h
  obtain ⟨columns, hcolumns, h⟩ := bind_eq_ok.mp h
  cases h
  rw [Shape.size_eq_ok_iff] at hrecordLength hcount hdepth hbatches hheight hwidth hrows hcolumns
  rw [Shape.expectRank_eq_ok_iff] at hinputRank hregionsRank houtputRank
  -- With the rank, the sizes that were read are all sizes of a shape.
  have hinput : input.shape.sizes = [batches, height, width, depth] :=
    quadruple_eq_of_getElem? hinputRank hbatches hheight hwidth hdepth
  have houtput : output.shape.sizes = [count, rows, columns, depth] :=
    quadruple_eq_of_getElem? houtputRank (checkDimension_eq_ok houtputCount) hrows hcolumns
      (checkDimension_eq_ok houtputDepth)
  have hregions : regions.shape.sizes = [count, recordLength] :=
    pair_eq_of_getElem? hregionsRank hcount hrecordLength
  have hpos (axis : Nat) (haxis : axis ∈ [0, 1, 2]) {size : UInt32}
      (hsize : input.shape.sizes[axis]? = some size) : 0 < size.toNat := by
    obtain ⟨other, hother, hpos⟩ := checkNotEmpty_eq_ok hnotEmpty axis haxis
    rw [hsize, Option.some.injEq] at hother
    subst hother
    exact hpos
  exact {
    input_sizes := by rw [hinput]; rfl
    regions_sizes := by rw [hregions]; rfl
    output_sizes := by rw [houtput]; rfl
    recordLength := checkRecordLength_eq_ok_iff.mp hcheckLength
    batches_pos := hpos 0 (by decide) hbatches
    height_pos := hpos 1 (by decide) hheight
    width_pos := hpos 2 (by decide) hwidth
    input_count := checkBuffer_eq_ok hinputBuffer
    regions_count := checkBuffer_eq_ok hregionsBuffer
    output_count := checkBuffer_eq_ok houtputBuffer }

theorem checkDimension_eq_ok_of {what : String} {expected : UInt32} {s : Shape} {axis : Nat}
    (h : s.sizes[axis]? = some expected) : checkDimension what expected s axis = .ok () :=
  bind_eq_ok.mpr ⟨expected, Shape.size_eq_ok_iff.mpr h, if_neg (by simp)⟩

theorem checkBuffer_eq_ok_of {tensor : String} {v : View}
    (h : v.shape.count? = some v.data.size) : checkBuffer tensor v = .ok () :=
  bind_eq_ok.mpr ⟨v.data.size, Shape.count_eq_ok_iff.mpr h, if_neg (by simp)⟩

/-- A shape with two sizes. -/
theorem exists_pair {sizes : List UInt32} {a b : Nat}
    (h : sizes.map UInt32.toNat = [a, b]) :
    ∃ p q : UInt32, sizes = [p, q] ∧ p.toNat = a ∧ q.toNat = b := by
  match sizes, congrArg List.length h with
  | [p, q], _ => simp_all

/-- A shape with four sizes. -/
theorem exists_quadruple {sizes : List UInt32} {a b c d : Nat}
    (h : sizes.map UInt32.toNat = [a, b, c, d]) : ∃ p q r t : UInt32, sizes = [p, q, r, t] ∧
      p.toNat = a ∧ q.toNat = b ∧ r.toNat = c ∧ t.toNat = d := by
  match sizes, congrArg List.length h with
  | [p, q, r, t], _ => simp_all

/-- Fitting sizes pass the checks, and they are what the checks give back. -/
theorem resolve_of_fits {input regions output : View} {e : Extents}
    (h : e.Fits input regions output) : resolve input regions output = .ok e := by
  obtain ⟨⟨inputSizes⟩, inputData⟩ := input
  obtain ⟨⟨regionsSizes⟩, regionsData⟩ := regions
  obtain ⟨⟨outputSizes⟩, outputData⟩ := output
  obtain ⟨hinput, hregions, houtput, hlength, hbatches, hheight, hwidth, hinputCount,
    hregionsCount, houtputCount⟩ := h
  obtain ⟨batches, height, width, depth, rfl, hbatches', hheight', hwidth', hdepth'⟩ :=
    exists_quadruple hinput
  obtain ⟨count, recordLength, rfl, hcount', hlength'⟩ := exists_pair hregions
  obtain ⟨regions, rows, columns, channels, rfl, hregions', hrows', hcolumns', hchannels'⟩ :=
    exists_quadruple houtput
  have hnotEmpty : checkNotEmpty ⟨[batches, height, width, depth]⟩ = .ok () :=
    checkNotEmpty_eq_ok_of (by omega) (by omega) (by omega)
  have hcount : regions = count := UInt32.toNat_inj.mp (by omega)
  have hchannels : channels = depth := UInt32.toNat_inj.mp (by omega)
  refine bind_eq_ok.mpr ⟨(), rfl, bind_eq_ok.mpr ⟨(), rfl, bind_eq_ok.mpr ⟨(), rfl, ?_⟩⟩⟩
  refine bind_eq_ok.mpr ⟨recordLength, rfl, bind_eq_ok.mpr ⟨(), ?_, ?_⟩⟩
  · exact checkRecordLength_eq_ok_iff.mpr (by omega)
  refine bind_eq_ok.mpr ⟨(), hnotEmpty, ?_⟩
  refine bind_eq_ok.mpr ⟨count, rfl, bind_eq_ok.mpr ⟨depth, rfl, ?_⟩⟩
  refine bind_eq_ok.mpr ⟨(), checkDimension_eq_ok_of (by rw [hcount]; rfl), ?_⟩
  refine bind_eq_ok.mpr ⟨(), checkDimension_eq_ok_of (by rw [hchannels]; rfl), ?_⟩
  refine bind_eq_ok.mpr ⟨(), checkBuffer_eq_ok_of hinputCount, ?_⟩
  refine bind_eq_ok.mpr ⟨(), checkBuffer_eq_ok_of hregionsCount, ?_⟩
  refine bind_eq_ok.mpr ⟨(), checkBuffer_eq_ok_of houtputCount, ?_⟩
  refine bind_eq_ok.mpr ⟨batches, rfl, bind_eq_ok.mpr ⟨height, rfl, bind_eq_ok.mpr ⟨width, rfl, ?_⟩⟩⟩
  refine bind_eq_ok.mpr ⟨rows, rfl, bind_eq_ok.mpr ⟨columns, rfl, ?_⟩⟩
  rw [hbatches', hheight', hwidth', hdepth', hcount', hlength', hrows', hcolumns']
  rfl

/-- The checks of a run pass exactly for fitting sizes. -/
theorem resolve_eq_ok_iff {input regions output : View} {e : Extents} :
    resolve input regions output = .ok e ↔ e.Fits input regions output :=
  ⟨fits_of_resolve, resolve_of_fits⟩

/-! ## Sizes of buffers -/

namespace Fits

variable {e : Extents} {input regions output : View}

theorem input_size (h : e.Fits input regions output) :
    input.data.size = e.batches * e.batchSize := by
  rw [(Shape.count?_eq_some_iff.mp h.input_count).2, h.input_sizes, Extents.batchSize]
  simp only [List.prod_cons, List.prod_nil]
  ring

theorem regions_size (h : e.Fits input regions output) :
    regions.data.size = e.regions * e.recordLength := by
  rw [(Shape.count?_eq_some_iff.mp h.regions_count).2, h.regions_sizes]
  simp only [List.prod_cons, List.prod_nil]
  ring

theorem output_size (h : e.Fits input regions output) :
    output.data.size = e.regions * e.slabSize := by
  rw [(Shape.count?_eq_some_iff.mp h.output_count).2, h.output_sizes, Extents.slabSize]
  simp only [List.prod_cons, List.prod_nil]
  ring

/-- Products of sizes of the feature map are addresses; a size may be left out. -/
theorem input_product_lt (h : e.Fits input regions output) {a b c d : Nat}
    (ha : a ≤ max 1 e.batches) (hb : b ≤ max 1 e.height) (hc : c ≤ max 1 e.width)
    (hd : d ≤ max 1 e.depth) : a * b * c * d < addressable :=
  Shape.product_lt_of_count? h.input_count h.input_sizes ha hb hc hd

/-- Products of sizes of the output are addresses; a size may be left out. -/
theorem output_product_lt (h : e.Fits input regions output) {a b c d : Nat}
    (ha : a ≤ max 1 e.regions) (hb : b ≤ max 1 e.rows) (hc : c ≤ max 1 e.columns)
    (hd : d ≤ max 1 e.depth) : a * b * c * d < addressable :=
  Shape.product_lt_of_count? h.output_count h.output_sizes ha hb hc hd

theorem grid_lt (h : e.Fits input regions output) : e.rows * e.columns < addressable := by
  simpa using h.output_product_lt (Nat.le_max_left ..) (Nat.le_max_right ..) (Nat.le_max_right ..)
    (Nat.le_max_left ..)

theorem slabSize_lt (h : e.Fits input regions output) : e.slabSize < addressable := by
  simpa [slabSize] using h.output_product_lt (Nat.le_max_left ..) (Nat.le_max_right ..)
    (Nat.le_max_right ..) (Nat.le_max_right ..)

end Fits

end Extents

/-! ## Runs that pass their checks -/

namespace Job

theorem check_eq_ok_iff {job : Job} {output : Array Single} {e : Extents} :
    job.check output = .ok e ↔
      Extents.resolve job.input job.regions ⟨job.output, output⟩ = .ok e ∧
        e.checkBatchIndices job.regions.data = .ok () := by
  constructor
  · intro h
    obtain ⟨resolved, hresolve, h⟩ := bind_eq_ok.mp h
    obtain ⟨_, hbatches, h⟩ := bind_eq_ok.mp h
    cases h
    exact ⟨hresolve, hbatches⟩
  · rintro ⟨hresolve, hbatches⟩
    exact bind_eq_ok.mpr ⟨e, hresolve, bind_eq_ok.mpr ⟨(), hbatches, rfl⟩⟩

theorem fits_of_check {job : Job} {output : Array Single} {e : Extents}
    (h : job.check output = .ok e) : e.Fits job.input job.regions ⟨job.output, output⟩ :=
  Extents.fits_of_resolve (check_eq_ok_iff.mp h).1

/-- After its checks a run pools the regions, unless there is nothing to write. -/
theorem align_of_check {job : Job} {output : Array Single} {e : Extents}
    (h : job.check output = .ok e) :
    job.align output = (.ok (), if e.slabSize = 0 then output
      else (List.range e.regions).foldl (job.poolInto e) output) := by
  unfold align alignIn
  rw [h]
  show (if _ then _ else _) = _
  split
  · rfl
  · rfl

/-- A run ends without an error exactly if its checks pass. -/
theorem align_eq_ok_iff {job : Job} {output : Array Single} :
    (job.align output).1 = .ok () ↔ ∃ e, job.check output = .ok e := by
  constructor
  · intro h
    cases hcheck : job.check output with
    | ok e => exact ⟨e, rfl⟩
    | error error =>
      unfold align alignIn at h
      rw [hcheck] at h
      cases h
  · rintro ⟨e, h⟩
    rw [align_of_check h]

end Job

end RegionPooling
