import RegionPooling.Proofs.Pooling.Checked
import RegionPooling.Proofs.Pooling.Outcome

/-!
# The preconditions of a run

`Preconditions` lists what the three shapes and the three buffers of a run have to satisfy,
each condition on its own and in terms of single dimensions. `Extents.resolve` looks at them one
after the other and stops at the first one that fails. What it lets through are exactly the
calls that meet the whole list, so no condition goes unchecked and nothing else is asked for.

Sizes of zero are allowed where there is nothing to read or write. That they make a whole
product zero must not hide that a part of it is too large, and so the list asks for the product
of the other sizes to be an address.

Main results:

* `Extents.exists_fits_iff` — some sizes fit exactly under the preconditions.
* `Extents.resolve_outcome` — which calls are accepted, and what the sizes of a run are then.
-/

namespace RegionPooling

/-- What a run asks of its feature map, of its region records and of its output. -/
structure Preconditions (input regions output : View) : Prop where
  input_rank : input.shape.rank = 4
  regions_rank : regions.shape.rank = 2
  output_rank : output.shape.rank = 4
  recordLength : regions.shape.sizes[1]? = some 4 ∨ regions.shape.sizes[1]? = some 5
  batches_ne : input.shape.sizes[0]? ≠ some 0
  height_ne : input.shape.sizes[1]? ≠ some 0
  width_ne : input.shape.sizes[2]? ≠ some 0
  output_regions : output.shape.sizes[0]? = regions.shape.sizes[0]?
  output_depth : output.shape.sizes[3]? = input.shape.sizes[3]?
  extent_lt : ∀ v ∈ [input, regions, output], v.shape.extent < addressable
  buffer_size : ∀ v ∈ [input, regions, output],
    v.data.size = (v.shape.sizes.map UInt32.toNat).prod

namespace Extents

variable {input regions output : View} {e : Extents}

theorem toNat_pos {size : UInt32} (h : size ≠ 0) : 0 < size.toNat :=
  Nat.pos_of_ne_zero fun hzero => h (UInt32.toNat_inj.mp hzero)

/-- The two conditions on a view make its number of elements the size of its buffer. -/
theorem count?_eq_size_iff {v : View} : v.shape.count? = some v.data.size ↔
    v.shape.extent < addressable ∧ v.data.size = (v.shape.sizes.map UInt32.toNat).prod :=
  Shape.count?_eq_some_iff

/-! ## Fitting sizes and preconditions -/

theorem Fits.preconditions (h : e.Fits input regions output) :
    Preconditions input regions output := by
  obtain ⟨batches, height, width, depth, hinput, hbatches, hheight, hwidth, hdepth⟩ :=
    exists_quadruple h.input_sizes
  obtain ⟨count, recordLength, hregions, hcount, hlength⟩ := exists_pair h.regions_sizes
  obtain ⟨written, rows, columns, channels, houtput, hwritten, -, -, hchannels⟩ :=
    exists_quadruple h.output_sizes
  have hviews : ∀ v ∈ [input, regions, output], v.shape.count? = some v.data.size := by
    simp only [List.mem_cons, List.not_mem_nil, or_false, forall_eq_or_imp, forall_eq]
    exact ⟨h.input_count, h.regions_count, h.output_count⟩
  have hne {size : UInt32} (hpos : 0 < size.toNat) : some size ≠ some 0 := by
    rintro ⟨⟩
    exact absurd hpos (by decide)
  exact {
    input_rank := by rw [Shape.rank, hinput]; rfl
    regions_rank := by rw [Shape.rank, hregions]; rfl
    output_rank := by rw [Shape.rank, houtput]; rfl
    recordLength := by
      rw [hregions]
      rcases h.recordLength with h4 | h5
      · exact .inl (congrArg some (UInt32.toNat_inj.mp (hlength.trans h4)))
      · exact .inr (congrArg some (UInt32.toNat_inj.mp (hlength.trans h5)))
    batches_ne := by rw [hinput]; exact hne (hbatches ▸ h.batches_pos)
    height_ne := by rw [hinput]; exact hne (hheight ▸ h.height_pos)
    width_ne := by rw [hinput]; exact hne (hwidth ▸ h.width_pos)
    output_regions := by
      rw [houtput, hregions]
      exact congrArg some (UInt32.toNat_inj.mp (hwritten.trans hcount.symm))
    output_depth := by
      rw [houtput, hinput]
      exact congrArg some (UInt32.toNat_inj.mp (hchannels.trans hdepth.symm))
    extent_lt := fun v hv => (count?_eq_size_iff.mp (hviews v hv)).1
    buffer_size := fun v hv => (count?_eq_size_iff.mp (hviews v hv)).2 }

theorem exists_fits (h : Preconditions input regions output) :
    ∃ e : Extents, e.Fits input regions output := by
  obtain ⟨batches, height, width, depth, hinput⟩ := List.length_eq_four.mp h.input_rank
  obtain ⟨count, recordLength, hregions⟩ := List.length_eq_two.mp h.regions_rank
  obtain ⟨written, rows, columns, channels, houtput⟩ := List.length_eq_four.mp h.output_rank
  -- The lists of sizes now have the entries that the conditions speak of.
  obtain ⟨-, -, -, hlength, hbatches, hheight, hwidth, hwritten, hchannels, hextent, hbuffer⟩ := h
  rw [hinput] at hbatches hheight hwidth hchannels
  rw [hregions] at hlength hwritten
  rw [houtput] at hwritten hchannels
  obtain rfl : written = count := Option.some.inj hwritten
  obtain rfl : channels = depth := Option.some.inj hchannels
  have hviews (v : View) (hv : v ∈ [input, regions, output]) :
      v.shape.count? = some v.data.size :=
    count?_eq_size_iff.mpr ⟨hextent v hv, hbuffer v hv⟩
  have hpos {size : UInt32} (h : some size ≠ some 0) : 0 < size.toNat :=
    toNat_pos fun hzero => h (congrArg some hzero)
  refine ⟨⟨batches.toNat, height.toNat, width.toNat, channels.toNat, rows.toNat, columns.toNat,
    written.toNat, recordLength.toNat⟩, ?_⟩
  exact {
    input_sizes := by rw [hinput]; rfl
    regions_sizes := by rw [hregions]; rfl
    output_sizes := by rw [houtput]; rfl
    recordLength := by
      rcases hlength with h4 | h5
      · exact .inl (congrArg UInt32.toNat (Option.some.inj h4))
      · exact .inr (congrArg UInt32.toNat (Option.some.inj h5))
    batches_pos := hpos hbatches
    height_pos := hpos hheight
    width_pos := hpos hwidth
    input_count := hviews input (by simp)
    regions_count := hviews regions (by simp)
    output_count := hviews output (by simp) }

/-- Some sizes fit exactly under the preconditions. -/
theorem exists_fits_iff :
    (∃ e : Extents, e.Fits input regions output) ↔ Preconditions input regions output :=
  ⟨fun ⟨_, h⟩ => h.preconditions, exists_fits⟩

/-! ## Sizes of parts, as a machine multiplies -/

namespace Fits

/-- No step of the product of a batch leaves the addresses, whatever the number of batches. -/
theorem product_batchSize (h : e.Fits input regions output) :
    ((Checked.product e.height e.width).bind (Checked.product · e.depth)) =
      some e.batchSize := by
  have hplane : e.height * e.width < addressable := by
    simpa using h.input_product_lt (Nat.le_max_left ..) (Nat.le_max_right ..)
      (Nat.le_max_right ..) (Nat.le_max_left ..)
  have hbatch : e.height * e.width * e.depth < addressable := by
    simpa using h.input_product_lt (Nat.le_max_left ..) (Nat.le_max_right ..)
      (Nat.le_max_right ..) (Nat.le_max_right ..)
  rw [Checked.product_eq hplane, Option.bind_some, Checked.product_eq hbatch, batchSize]

/-- Likewise for a pooled map, also where there are no regions. -/
theorem product_slabSize (h : e.Fits input regions output) :
    ((Checked.product e.rows e.columns).bind (Checked.product · e.depth)) =
      some e.slabSize := by
  rw [Checked.product_eq h.grid_lt, Option.bind_some, Checked.product_eq h.slabSize_lt, slabSize]

end Fits

/-! ## The outcome of the checks -/

/--
The checks accept a call exactly under its preconditions, and no refusal is about an axis that
a shape does not have. The sizes that they give back for an accepted call are all sizes of the
three shapes, each in its place, and the sizes of a batch and of a pooled map are the products
of theirs, in which no step of the multiplication overflows.
-/
theorem resolve_outcome (input regions output : View) :
    ((∃ e, resolve input regions output = .ok e) ↔ Preconditions input regions output) ∧
    (∀ axis rank, resolve input regions output ≠ .error (.axisOutOfRange axis rank)) ∧
    ∀ e, resolve input regions output = .ok e →
      input.shape.sizes.map UInt32.toNat = [e.batches, e.height, e.width, e.depth] ∧
      regions.shape.sizes.map UInt32.toNat = [e.regions, e.recordLength] ∧
      output.shape.sizes.map UInt32.toNat = [e.regions, e.rows, e.columns, e.depth] ∧
      e.batchSize = e.height * e.width * e.depth ∧
      ((Checked.product e.height e.width).bind (Checked.product · e.depth)) =
        some e.batchSize ∧
      e.slabSize = e.rows * e.columns * e.depth ∧
      ((Checked.product e.rows e.columns).bind (Checked.product · e.depth)) =
        some e.slabSize := by
  refine ⟨?_, fun axis rank herror => ?_, fun e he => ?_⟩
  · rw [← exists_fits_iff]
    exact exists_congr fun e => resolve_eq_ok_iff
  · exact (refuses_resolve input regions output _ herror).not_axis axis rank rfl
  · have hfits : e.Fits input regions output := resolve_eq_ok_iff.mp he
    exact ⟨hfits.input_sizes, hfits.regions_sizes, hfits.output_sizes, rfl,
      hfits.product_batchSize, rfl, hfits.product_slabSize⟩

/-- A feature map of one pixel. -/
def pixelMap (channels : UInt32) : View :=
  ⟨⟨[1, 1, 1, channels]⟩, Array.replicate channels.toNat (Binary.ofNat 1)⟩

def noRecords : View := ⟨⟨[0, 4]⟩, #[]⟩

/-- Pooled maps of the largest grid, of which there are none. -/
def noMaps (channels : UInt32) : View := ⟨⟨[0, 0xFFFFFFFF, 0xFFFFFFFF, channels]⟩, #[]⟩

/-- With one channel the call is accepted, and a pooled map would have just less elements than
there are addresses. With two channels it is refused, although the buffer would fit. -/
theorem noMaps_resolve_outcome :
    resolve (pixelMap 1) noRecords (noMaps 1) =
      .ok ⟨1, 1, 1, 1, 0xFFFFFFFF, 0xFFFFFFFF, 0, 4⟩ ∧
    ((Checked.product 0xFFFFFFFF 0xFFFFFFFF).bind (Checked.product · 1)) =
      some 0xFFFFFFFE00000001 ∧
    ¬∃ e, resolve (pixelMap 2) noRecords (noMaps 2) = .ok e := by
  have hok : resolve (pixelMap 1) noRecords (noMaps 1) =
      .ok ⟨1, 1, 1, 1, 0xFFFFFFFF, 0xFFFFFFFF, 0, 4⟩ := rfl
  refine ⟨hok, ?_, fun hexists => ?_⟩
  · exact ((resolve_outcome _ _ _).2.2 _ hok).2.2.2.2.2.2
  · have hpreconditions := (resolve_outcome _ _ _).1.mp hexists
    have hlt := hpreconditions.extent_lt (noMaps 2) (by simp)
    exact absurd hlt (by decide)

end Extents

end RegionPooling
