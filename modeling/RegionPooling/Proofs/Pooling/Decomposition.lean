import RegionPooling.Proofs.Pooling.Mean
import RegionPooling.Proofs.Pooling.Outcome

/-!
# A run is the sum of its records

The pooled map of a region depends on little: on the coordinates of its record, on the batch
that the record selects, and on what all records share. `Job.Alike` says that two regions, of
possibly different runs, agree in this, and then their pooled maps agree too
(`Job.pooledMap_eq_of_alike`). All that follows compares a run with one that has other records
or another feature map, and only shows that the regions are alike.

* `Job.select` takes some of the records, `Job.selectBoxes` only their coordinates.
* `Job.withBatch` takes one batch for the whole feature map.
* `Job.alone` takes both: the coordinates of one record, and the batch that it selects.

Main results:

* `Job.check_select`, `Job.check_selectBoxes`, `Job.check_alone` — such runs pass their checks.
* `Job.toList_align_of_alike` — a run whose regions are like some of another run makes their maps.
* `Job.align_decomposes` — each pooled map is the output of its record alone.
-/

namespace RegionPooling

/-! ## What a pooled map depends on -/

/-- Two axes with the same bins and the same samples in them. That leaves open how the bins are
computed; the starts may differ. -/
structure Axis.SameBins (a b : Axis) : Prop where
  edge : ∀ index, a.edge index = b.edge index
  ratio : a.ratio = b.ratio
  bin : a.bin = b.bin

theorem Axis.SameBins.of_eq {a b : Axis} (h : a = b) : a.SameBins b := by
  subst h
  exact ⟨fun _ => rfl, rfl, rfl⟩

namespace Job

/-- The number at a site depends on the bins of its axes and on one channel of its batch. -/
theorem valueAt_congr {job other : Job} {e e' : Extents} {site site' : Site}
    (hheight : e.height = e'.height) (hwidth : e.width = e'.width) (hpos : 0 < e.height)
    (hpos' : 0 < e.width) (hrow : site.row = site'.row) (hcolumn : site.column = site'.column)
    (hvertical : (job.region e site.region).vertical.SameBins
      (other.region e' site'.region).vertical)
    (hhorizontal : (job.region e site.region).horizontal.SameBins
      (other.region e' site'.region).horizontal)
    (hpixel : ∀ y < e.height, ∀ x < e.width,
      job.pixel e (job.batchOf e site.region) y x site.channel =
        other.pixel e' (other.batchOf e' site'.region) y x site'.channel) :
    job.valueAt e site = other.valueAt e' site' := by
  -- Whatever the positions are, the pixels around them are pixels of the map.
  have hsample (y x : Single) :
      job.interpolated e (job.batchOf e site.region) (.around y e.height) (.around x e.width)
          site.channel =
        other.interpolated e' (other.batchOf e' site'.region) (.around y e'.height)
          (.around x e'.width) site'.channel := by
    obtain ⟨hlower, hupper⟩ := Corners.around_lt y hpos
    obtain ⟨hleft, hright⟩ := Corners.around_lt x hpos'
    simp only [interpolated, hpixel _ hlower _ hleft, hpixel _ hlower _ hright,
      hpixel _ hupper _ hleft, hpixel _ hupper _ hright]
    rw [hheight, hwidth]
  simp only [valueAt, sumAt, hsample, hvertical.edge, hvertical.ratio, hvertical.bin,
    hhorizontal.edge, hhorizontal.ratio, hhorizontal.bin, hrow, hcolumn]

/-- The coordinates of a record, without its batch index. -/
def box (job : Job) (e : Extents) (index : Nat) : List Single :=
  (List.range 4).map fun place =>
    e.entry job.regions.data index ((if e.hasBatchIndex then 1 else 0) + place)

/-- Region `i` of one run and region `j` of another one are pooled from the same numbers. -/
structure Alike (job : Job) (e : Extents) (i : Nat) (other : Job) (e' : Extents) (j : Nat) :
    Prop where
  sampling : job.sampling = other.sampling
  height : e.height = e'.height
  width : e.width = e'.width
  depth : e.depth = e'.depth
  rows : e.rows = e'.rows
  columns : e.columns = e'.columns
  box : job.box e i = other.box e' j
  pixel : ∀ y < e.height, ∀ x < e.width, ∀ channel < e.depth,
    job.pixel e (job.batchOf e i) y x channel = other.pixel e' (other.batchOf e' j) y x channel

namespace Alike

variable {job other : Job} {e e' : Extents} {i j : Nat}

theorem coordinate_eq (h : Alike job e i other e' j) {place : Nat} (hplace : place < 4) :
    job.coordinate e i place = other.coordinate e' j place :=
  List.map_inj_left.mp h.box place (List.mem_range.mpr hplace)

theorem vertical_eq (h : Alike job e i other e' j) :
    (job.region e i).vertical = (other.region e' j).vertical := by
  rw [region_vertical, region_vertical, h.coordinate_eq (show 1 < 4 by decide),
    h.coordinate_eq (show 3 < 4 by decide), h.sampling, h.rows]

theorem horizontal_eq (h : Alike job e i other e' j) :
    (job.region e i).horizontal = (other.region e' j).horizontal := by
  rw [region_horizontal, region_horizontal, h.coordinate_eq (show 0 < 4 by decide),
    h.coordinate_eq (show 2 < 4 by decide), h.sampling, h.columns]

end Alike

/-- The part of an output buffer that is the pooled map of a region. -/
def pooledMap (e : Extents) (output : Array Single) (index : Nat) : Array Single :=
  output.extract (index * e.slabSize) ((index + 1) * e.slabSize)

/-- The pooled maps of some regions, one after the other. -/
def pooledMaps (e : Extents) (output : Array Single) (picks : List Nat) : List Single :=
  picks.flatMap fun pick => (pooledMap e output pick).toList

/-- Every place of a pooled map is that of a row, a column and a channel. -/
theorem exists_site {e : Extents} {index offset : Nat} (hindex : index < e.regions)
    (hoffset : offset < e.slabSize) : ∃ site : Site, site.Within e ∧ site.region = index ∧
      site.index e = index * e.slabSize + offset := by
  have hlt : index * e.slabSize + offset < e.regions * e.slabSize := block_lt hindex hoffset
  obtain ⟨site, ⟨hsite, hplace⟩, -⟩ := Site.existsUnique_of_lt hlt
  have hown : site.region * e.slabSize ≤ index * e.slabSize + offset ∧
      index * e.slabSize + offset < (site.region + 1) * e.slabSize := by
    have hbefore := Site.offset_lt hsite
    rw [Site.index_eq] at hplace
    rw [Nat.succ_mul]
    omega
  have hother : index * e.slabSize ≤ index * e.slabSize + offset ∧
      index * e.slabSize + offset < (index + 1) * e.slabSize := by
    rw [Nat.succ_mul]
    omega
  exact ⟨site, hsite, region_eq_of_place hown hother, hplace⟩

section Run

variable {job other : Job} {output buffer : Array Single} {e e' : Extents}

theorem size_align (hcheck : job.check output = .ok e) :
    (job.align output).2.size = e.regions * e.slabSize :=
  (size_alignIn ..).trans (fits_of_check hcheck).output_size

theorem size_pooledMap (hcheck : job.check output = .ok e) {index : Nat}
    (hindex : index < e.regions) : (pooledMap e (job.align output).2 index).size = e.slabSize :=
  Checked.size_chunk hindex (size_align hcheck)

theorem getElem?_pooledMap (hcheck : job.check output = .ok e) {index offset : Nat}
    (hindex : index < e.regions) (hoffset : offset < e.slabSize) :
    (pooledMap e (job.align output).2 index)[offset]? =
      (job.align output).2[index * e.slabSize + offset]? := by
  have hnext : (index + 1) * e.slabSize ≤ (job.align output).2.size := by
    rw [size_align hcheck]
    exact Nat.mul_le_mul_right _ hindex
  rw [Nat.succ_mul] at hnext
  rw [pooledMap, Nat.succ_mul, Checked.getElem?_extract_eq_getD (by omega) hnext,
    Array.getD_eq_getD_getElem?, Array.getElem?_eq_getElem (by omega), Option.getD_some]

/-- Two pooled maps of one shape agree if the numbers at their sites do. -/
theorem pooledMap_congr (hcheck : job.check output = .ok e)
    (hcheck' : other.check buffer = .ok e') {i j : Nat} (hi : i < e.regions)
    (hj : j < e'.regions) (hrows : e.rows = e'.rows) (hcolumns : e.columns = e'.columns)
    (hdepth : e.depth = e'.depth)
    (hvalue : ∀ site : Site, site.Within e → site.region = i →
      job.valueAt e site = other.valueAt e' { site with region := j }) :
    pooledMap e (job.align output).2 i = pooledMap e' (other.align buffer).2 j := by
  have hslab : e.slabSize = e'.slabSize := by
    rw [Extents.slabSize, Extents.slabSize, hrows, hcolumns, hdepth]
  refine Array.ext_getElem? fun offset => ?_
  by_cases hoffset : offset < e.slabSize
  · obtain ⟨site, hsite, rfl, hplace⟩ := exists_site hi hoffset
    have hsite' : Site.Within { site with region := j } e' :=
      ⟨hj, hrows ▸ hsite.row, hcolumns ▸ hsite.column, hdepth ▸ hsite.channel⟩
    have hplace' : Site.index e' { site with region := j } = j * e'.slabSize + offset := by
      rw [Site.index_eq] at hplace ⊢
      simp only [Site.cell, hcolumns, hdepth] at hplace ⊢
      omega
    rw [getElem?_pooledMap hcheck hi hoffset, getElem?_pooledMap hcheck' hj (hslab ▸ hoffset),
      ← hplace, ← hplace', getElem?_align hcheck hsite, getElem?_align hcheck' hsite',
      hvalue site hsite rfl]
  · rw [Array.getElem?_eq_none (by rw [size_pooledMap hcheck hi]; omega),
      Array.getElem?_eq_none (by rw [size_pooledMap hcheck' hj]; omega)]

/-- Regions that are alike are pooled alike, whatever else the two runs do. -/
theorem pooledMap_eq_of_alike (hcheck : job.check output = .ok e)
    (hcheck' : other.check buffer = .ok e') {i j : Nat} (hi : i < e.regions)
    (hj : j < e'.regions) (h : Alike job e i other e' j) :
    pooledMap e (job.align output).2 i = pooledMap e' (other.align buffer).2 j := by
  have hfits := fits_of_check hcheck
  refine pooledMap_congr hcheck hcheck' hi hj h.rows h.columns h.depth ?_
  rintro site hsite rfl
  exact valueAt_congr h.height h.width hfits.height_pos hfits.width_pos rfl rfl
    (.of_eq h.vertical_eq) (.of_eq h.horizontal_eq)
    fun y hy x hx => h.pixel y hy x hx _ hsite.channel

/-- A buffer of parts of one size is these parts, one after the other. -/
theorem toList_eq_flatMap_extract {a : Array Single} {count size : Nat}
    (h : a.size = count * size) :
    a.toList = (List.range count).flatMap fun index =>
      (a.extract (index * size) ((index + 1) * size)).toList := by
  have hlength : ∀ index ∈ List.range count,
      (a.extract (index * size) ((index + 1) * size)).toList.length = size := by
    intro index hindex
    rw [Array.length_toList]
    exact Checked.size_chunk (List.mem_range.mp hindex) h
  refine List.ext_getElem? fun i => ?_
  by_cases hi : i < count * size
  · have hsize : 0 < size := Nat.pos_of_ne_zero fun hzero => by simp [hzero] at hi
    have hblock : i / size < count := Nat.div_lt_of_lt_mul (by rwa [Nat.mul_comm size])
    have hnext : (i / size + 1) * size ≤ count * size := Nat.mul_le_mul_right _ hblock
    have hplace := Nat.div_add_mod' i size
    have hoffset := Nat.mod_lt i hsize
    rw [← hplace, getElem?_flatMap_of_length _ _ size hlength _ _ hoffset,
      List.getElem?_range hblock, Option.bind_some, Array.getElem?_toList, Array.getElem?_toList]
    rw [Nat.succ_mul] at hnext
    rw [Nat.succ_mul, Checked.getElem?_extract_eq_getD (by omega) (by omega),
      Array.getD_eq_getD_getElem?, Array.getElem?_eq_getElem (by omega), Option.getD_some]
  · rw [List.getElem?_eq_none (by rw [Array.length_toList]; omega), List.getElem?_eq_none]
    rw [length_flatMap_of_length _ _ size hlength, List.length_range]
    omega

/-- The output is made of the pooled maps, in the order of the records. -/
theorem toList_align (hcheck : job.check output = .ok e) :
    (job.align output).2.toList =
      pooledMaps e (job.align output).2 (List.range e.regions) :=
  toList_eq_flatMap_extract (size_align hcheck)

end Run

end Job

/-! ## Other records -/

/-- The sizes of a run with other records. -/
def Extents.withRecords (e : Extents) (length count : Nat) : Extents :=
  { e with regions := count, recordLength := length }

/-- A number of the feature map stands at its place in its batch. -/
theorem Extents.pixel_place (e : Extents) (batch y x channel : Nat) :
    ((batch * e.height + y) * e.width + x) * e.depth + channel =
      batch * e.batchSize + (y * (e.width * e.depth) + x * e.depth + channel) := by
  unfold batchSize
  ring

namespace Extents.Fits

variable {e : Extents} {input regions output : View}

/-- A size of a shape is stored in four bytes. -/
theorem toNat_ofNat_of_le {sizes : List UInt32} {numbers : List Nat} {n m : Nat}
    (h : sizes.map UInt32.toNat = numbers) (hm : m ∈ numbers) (hn : n ≤ m) :
    (UInt32.ofNat n).toNat = n := by
  obtain ⟨size, -, rfl⟩ := List.mem_map.mp (h ▸ hm)
  exact UInt32.toNat_ofNat_of_lt' (Nat.lt_of_le_of_lt hn size.toNat_lt)

/-- Four sizes have a product if larger ones do. -/
theorem count?_eq_of_le {s t : Shape} {n p q r u p' q' r' u' : Nat} (hcount : s.count? = some n)
    (hs : s.sizes.map UInt32.toNat = [p, q, r, u])
    (ht : t.sizes.map UInt32.toNat = [p', q', r', u']) (hp : p' ≤ max 1 p) (hq : q' ≤ max 1 q)
    (hr : r' ≤ max 1 r) (hu : u' ≤ max 1 u) : t.count? = some (p' * (q' * (r' * u'))) := by
  refine Shape.count?_eq_some_iff.mpr ⟨?_, by simp [ht]⟩
  have hlt := Shape.product_lt_of_count? hcount hs
    (max_le (Nat.le_max_left 1 p) hp) (max_le (Nat.le_max_left 1 q) hq)
    (max_le (Nat.le_max_left 1 r) hr) (max_le (Nat.le_max_left 1 u) hu)
  rw [Shape.extent_eq, ht]
  simpa [Nat.mul_assoc] using hlt

/-- Fitting sizes still fit with other records, no more than before. -/
theorem withRecords (h : e.Fits input regions output) {length count : Nat}
    {records buffer : Array Single} (hlength : length = 4 ∨ length = 5) (hcount : count ≤ e.regions)
    (hrecords : records.size = count * length) (hbuffer : buffer.size = count * e.slabSize) :
    (e.withRecords length count).Fits input ⟨⟨[.ofNat count, .ofNat length]⟩, records⟩
      ⟨⟨[.ofNat count, .ofNat e.rows, .ofNat e.columns, .ofNat e.depth]⟩, buffer⟩ := by
  have houtput {n m : Nat} (hm : m ∈ [e.regions, e.rows, e.columns, e.depth]) (hn : n ≤ m) :=
    toNat_ofNat_of_le h.output_sizes hm hn
  have hregions : (UInt32.ofNat count).toNat = count := houtput (by simp) hcount
  have hrecord : (UInt32.ofNat length).toNat = length := by
    rcases hlength with rfl | rfl <;> rfl
  have hshape : [UInt32.ofNat count, .ofNat e.rows, .ofNat e.columns, .ofNat e.depth].map
      UInt32.toNat = [count, e.rows, e.columns, e.depth] := by
    simp only [List.map_cons, List.map_nil, hregions, houtput (by simp) (Nat.le_refl e.rows),
      houtput (by simp) (Nat.le_refl e.columns), houtput (by simp) (Nat.le_refl e.depth)]
  have hoffered : (⟨[.ofNat count, .ofNat e.rows, .ofNat e.columns, .ofNat e.depth]⟩ :
      Shape).count? = some (count * (e.rows * (e.columns * e.depth))) :=
    count?_eq_of_le h.output_count h.output_sizes hshape (hcount.trans (Nat.le_max_right ..))
      (Nat.le_max_right ..) (Nat.le_max_right ..) (Nat.le_max_right ..)
  exact {
    input_sizes := h.input_sizes
    regions_sizes := by
      simp only [List.map_cons, List.map_nil, hregions, hrecord]
      rfl
    output_sizes := hshape
    recordLength := hlength
    batches_pos := h.batches_pos
    height_pos := h.height_pos
    width_pos := h.width_pos
    input_count := h.input_count
    regions_count := by
      refine Shape.count?_eq_some_iff.mpr ⟨?_, by simp [hregions, hrecord, hrecords]⟩
      have hlt := (UInt32.ofNat count).toNat_lt
      rw [hregions] at hlt
      rw [Shape.extent_eq]
      simp only [List.map_cons, List.map_nil, hregions, hrecord, List.prod_cons, List.prod_nil,
        Nat.mul_one]
      calc max 1 count * max 1 length ≤ 2 ^ 32 * 5 := Nat.mul_le_mul (by omega) (by omega)
        _ < addressable := by decide
    output_count := by
      rw [hoffered, hbuffer, Extents.slabSize, Nat.mul_assoc e.rows] }

/-- Fitting sizes still fit with one batch, and then no record selects another one. -/
theorem withBatch (h : e.Fits input regions output) {data : Array Single}
    (hdata : data.size = e.batchSize) :
    Fits { e with batches := 1 }
      ⟨⟨[1, .ofNat e.height, .ofNat e.width, .ofNat e.depth]⟩, data⟩ regions output := by
  have hinput {m : Nat} (hm : m ∈ [e.batches, e.height, e.width, e.depth]) :=
    toNat_ofNat_of_le h.input_sizes hm (Nat.le_refl m)
  have hshape : [(1 : UInt32), .ofNat e.height, .ofNat e.width, .ofNat e.depth].map
      UInt32.toNat = [1, e.height, e.width, e.depth] := by
    simp [hinput]
  have hoffered : (⟨[1, .ofNat e.height, .ofNat e.width, .ofNat e.depth]⟩ : Shape).count? =
      some (1 * (e.height * (e.width * e.depth))) :=
    count?_eq_of_le h.input_count h.input_sizes hshape (Nat.le_max_left ..)
      (Nat.le_max_right ..) (Nat.le_max_right ..) (Nat.le_max_right ..)
  exact { h with
    input_sizes := hshape
    batches_pos := Nat.one_pos
    input_count := by
      rw [hoffered, hdata, Extents.batchSize, Nat.one_mul, Nat.mul_assoc] }

end Extents.Fits

namespace Job

/-- The entries of a record. -/
def record (job : Job) (e : Extents) (index : Nat) : List Single :=
  (List.range e.recordLength).map (e.entry job.regions.data index)

/-- The run with other records, all of one length, and an output for as many. -/
def withRecords (job : Job) (e : Extents) (length : Nat) (records : List (List Single)) : Job :=
  { job with
    regions := ⟨⟨[.ofNat records.length, .ofNat length]⟩, records.flatten.toArray⟩
    output := ⟨[.ofNat records.length, .ofNat e.rows, .ofNat e.columns, .ofNat e.depth]⟩ }

/-- The run with some of its records, in any order. -/
def select (job : Job) (e : Extents) (picks : List Nat) : Job :=
  job.withRecords e e.recordLength (picks.map (job.record e))

/-- The run with the coordinates of some of its records, all on the first batch. -/
def selectBoxes (job : Job) (e : Extents) (picks : List Nat) : Job :=
  job.withRecords e 4 (picks.map (job.box e))

/-- The run on one batch of the feature map. -/
def withBatch (job : Job) (e : Extents) (batch : Nat) : Job :=
  { job with
    input := ⟨⟨[1, .ofNat e.height, .ofNat e.width, .ofNat e.depth]⟩,
      job.input.data.extract (batch * e.batchSize) ((batch + 1) * e.batchSize)⟩ }

/-- The run on the batch that a record selects, with its coordinates as the only record. -/
def alone (job : Job) (e : Extents) (index : Nat) : Job :=
  (job.selectBoxes e [index]).withBatch e (job.batchOf e index)

section Entries

variable {job : Job} {e : Extents} {length : Nat}

/-- The entries of other records, all of one length. -/
theorem entry_withRecords {picks : List Nat} {entries : Nat → Nat → Single} {index pick place : Nat}
    (hpick : picks[index]? = some pick) (hplace : place < length) :
    (e.withRecords length picks.length).entry
      (job.withRecords e length (picks.map fun pick =>
        (List.range length).map (entries pick))).regions.data index place =
      entries pick place := by
  have hlength : ∀ pick ∈ picks, ((List.range length).map (entries pick)).length = length := by
    intro pick _
    rw [List.length_map, List.length_range]
  have hblock := getElem?_flatMap_of_length picks _ length hlength index place hplace
  rw [hpick, Option.bind_some, List.getElem?_map, List.getElem?_range hplace] at hblock
  show (List.flatten _).toArray.getD (index * length + place) _ = _
  rw [← List.flatMap_def, Array.getD_eq_getD_getElem?, List.getElem?_toArray, hblock]
  rfl

theorem entry_select {picks : List Nat} {index pick place : Nat}
    (hpick : picks[index]? = some pick) (hplace : place < e.recordLength) :
    (e.withRecords e.recordLength picks.length).entry (job.select e picks).regions.data
      index place = e.entry job.regions.data pick place :=
  entry_withRecords hpick hplace

theorem entry_selectBoxes {picks : List Nat} {index pick place : Nat}
    (hpick : picks[index]? = some pick) (hplace : place < 4) :
    (e.withRecords 4 picks.length).entry (job.selectBoxes e picks).regions.data index place =
      e.entry job.regions.data pick ((if e.hasBatchIndex then 1 else 0) + place) :=
  entry_withRecords hpick hplace

end Entries

/-! ## The derived runs pass their checks -/

section Checks

variable {job : Job} {output buffer : Array Single} {e : Extents} {picks : List Nat}

theorem box_place_lt (hcheck : job.check output = .ok e) {place : Nat} (h : place < 4) :
    (if e.hasBatchIndex then 1 else 0) + place < e.recordLength := by
  have hlength := (fits_of_check hcheck).recordLength
  split
  · rename_i hindex
    have hfive : e.recordLength = 5 := beq_iff_eq.mp hindex
    omega
  · omega

theorem resolve_withRecords (hcheck : job.check output = .ok e) {length : Nat}
    (hlength : length = 4 ∨ length = 5) (hcount : picks.length ≤ e.regions)
    (entries : Nat → Nat → Single) (hbuffer : buffer.size = picks.length * e.slabSize) :
    let other := job.withRecords e length (picks.map fun pick =>
      (List.range length).map (entries pick))
    Extents.resolve other.input other.regions ⟨other.output, buffer⟩ =
      .ok (e.withRecords length picks.length) := by
  have hsize : (picks.map fun pick =>
      (List.range length).map (entries pick)).flatten.toArray.size = picks.length * length := by
    rw [List.size_toArray, ← List.flatMap_def]
    refine length_flatMap_of_length _ _ _ fun pick _ => ?_
    rw [List.length_map, List.length_range]
  have hfits := (fits_of_check hcheck).withRecords hlength hcount hsize hbuffer
  simp only [withRecords, List.length_map]
  exact Extents.resolve_of_fits hfits

/-- A run with some of its records passes its checks. -/
theorem check_select (hcheck : job.check output = .ok e) (hcount : picks.length ≤ e.regions)
    (hpicks : ∀ pick ∈ picks, pick < e.regions)
    (hbuffer : buffer.size = picks.length * e.slabSize) :
    (job.select e picks).check buffer = .ok (e.withRecords e.recordLength picks.length) := by
  have hfits := fits_of_check hcheck
  refine check_eq_ok_iff.mpr
    ⟨resolve_withRecords hcheck hfits.recordLength hcount _ hbuffer, ?_⟩
  refine Extents.checkBatchIndices_eq_ok_of fun hindex index hlt => ?_
  have hpick : picks[index]? = some picks[index] := List.getElem?_eq_getElem hlt
  have hpositive : 0 < e.recordLength := by
    have := hfits.recordLength
    omega
  rw [entry_select hpick hpositive]
  exact Extents.isBatch_of_checkBatchIndices (check_eq_ok_iff.mp hcheck).2 hindex
    (hpicks _ (List.getElem_mem hlt))

/-- Records without batch indices pass the checks. -/
theorem check_selectBoxes (hcheck : job.check output = .ok e) (hcount : picks.length ≤ e.regions)
    (hbuffer : buffer.size = picks.length * e.slabSize) :
    (job.selectBoxes e picks).check buffer = .ok (e.withRecords 4 picks.length) :=
  check_eq_ok_iff.mpr ⟨resolve_withRecords hcheck (.inl rfl) hcount _ hbuffer, rfl⟩

/-- The end of a batch is in the buffer. -/
theorem size_batch (hcheck : job.check output = .ok e) {batch : Nat} (hbatch : batch < e.batches) :
    (job.input.data.extract (batch * e.batchSize) ((batch + 1) * e.batchSize)).size =
      e.batchSize :=
  Checked.size_chunk hbatch (fits_of_check hcheck).input_size

/-- The sizes of a run with one record and one batch. -/
def aloneExtents (e : Extents) : Extents := { e.withRecords 4 1 with batches := 1 }

/-- A record alone passes the checks. -/
theorem check_alone (hcheck : job.check output = .ok e) {index : Nat} (hindex : index < e.regions)
    (hbuffer : buffer.size = e.slabSize) :
    (job.alone e index).check buffer = .ok (aloneExtents e) := by
  have hboxes : (job.selectBoxes e [index]).check buffer = .ok (e.withRecords 4 1) :=
    check_selectBoxes hcheck (Nat.one_le_iff_ne_zero.mpr (by omega)) (by simpa using hbuffer)
  have hfits := (fits_of_check hboxes).withBatch (size_batch hcheck (batchOf_lt hcheck hindex))
  exact check_eq_ok_iff.mpr ⟨Extents.resolve_of_fits hfits, rfl⟩

end Checks

/-! ## The derived runs pool the same -/

section Pooling

variable {job other : Job} {output buffer : Array Single} {e e' : Extents} {picks : List Nat}

theorem alike_select (hcheck : job.check output = .ok e) {index pick : Nat}
    (hpick : picks[index]? = some pick) :
    Alike (job.select e picks) (e.withRecords e.recordLength picks.length) index job e pick where
  sampling := rfl
  height := rfl
  width := rfl
  depth := rfl
  rows := rfl
  columns := rfl
  box := List.map_congr_left fun _ hplace =>
    entry_select hpick (box_place_lt hcheck (List.mem_range.mp hplace))
  pixel := by
    have hpositive : 0 < e.recordLength := by
      have := (fits_of_check hcheck).recordLength
      omega
    have hbatch : (job.select e picks).batchOf (e.withRecords e.recordLength picks.length) index =
        job.batchOf e pick := by
      unfold batchOf
      rw [entry_select hpick hpositive]
      rfl
    intro y _ x _ channel _
    rw [hbatch]
    rfl

/-- Without its batch index a record is on the first batch. -/
theorem alike_selectBoxes {index pick : Nat} (hpick : picks[index]? = some pick)
    (hbatch : job.batchOf e pick = 0) :
    Alike (job.selectBoxes e picks) (e.withRecords 4 picks.length) index job e pick where
  sampling := rfl
  height := rfl
  width := rfl
  depth := rfl
  rows := rfl
  columns := rfl
  box := List.map_congr_left fun place hplace =>
    (congrArg _ (Nat.zero_add place)).trans (entry_selectBoxes hpick (List.mem_range.mp hplace))
  pixel := by
    intro y _ x _ channel _
    rw [hbatch]
    rfl

/-- The only batch of a run on one batch is this batch. -/
theorem pixel_withBatch (hcheck : job.check output = .ok e) {batch : Nat}
    (hbatch : batch < e.batches) {y x channel : Nat} (hy : y < e.height) (hx : x < e.width)
    (hchannel : channel < e.depth) :
    (job.withBatch e batch).pixel e 0 y x channel = job.pixel e batch y x channel := by
  have hend := e.pixel_end_le hy hx
  have hnext : (batch + 1) * e.batchSize ≤ job.input.data.size := by
    rw [(fits_of_check hcheck).input_size]
    exact Nat.mul_le_mul_right _ hbatch
  have hstop : batch * e.batchSize + (y * (e.width * e.depth) + x * e.depth + channel) <
      (batch + 1) * e.batchSize := by
    rw [Nat.succ_mul]
    omega
  show (job.input.data.extract _ _).getD _ _ = _
  rw [pixel, Extents.pixel_place, Extents.pixel_place, Nat.zero_mul, Nat.zero_add,
    Array.getD_eq_getD_getElem?, Checked.getElem?_extract_eq_getD hstop hnext, Option.getD_some]

theorem alike_alone (hcheck : job.check output = .ok e) {index : Nat} (hindex : index < e.regions) :
    Alike (job.alone e index) (aloneExtents e) 0 job e index where
  sampling := rfl
  height := rfl
  width := rfl
  depth := rfl
  rows := rfl
  columns := rfl
  box := List.map_congr_left fun place hplace =>
    (congrArg _ (Nat.zero_add place)).trans
      (entry_selectBoxes (show [index][0]? = some index from rfl) (List.mem_range.mp hplace))
  pixel := fun _ hy _ hx _ hchannel =>
    pixel_withBatch hcheck (batchOf_lt hcheck hindex) hy hx hchannel

/-- A run whose regions are like some of another run makes the pooled maps of these. -/
theorem toList_align_of_alike (hcheck : job.check output = .ok e)
    (hcheck' : other.check buffer = .ok e') (hcount : e'.regions = picks.length)
    (hpicks : ∀ pick ∈ picks, pick < e.regions)
    (h : ∀ index pick, picks[index]? = some pick → Alike other e' index job e pick) :
    (other.align buffer).2.toList = pooledMaps e (job.align output).2 picks := by
  rw [toList_align hcheck', pooledMaps, pooledMaps, List.flatMap_def, List.flatMap_def]
  congr 1
  refine List.ext_getElem? fun index => ?_
  rw [List.getElem?_map, List.getElem?_map]
  by_cases hlt : index < picks.length
  · have hpick : picks[index]? = some picks[index] := List.getElem?_eq_getElem hlt
    rw [hpick, List.getElem?_range (hcount ▸ hlt), Option.map_some, Option.map_some,
      pooledMap_eq_of_alike hcheck' hcheck (hcount ▸ hlt) (hpicks _ (List.getElem_mem hlt))
        (h index _ hpick)]
  · rw [List.getElem?_eq_none (by rw [List.length_range]; omega),
      List.getElem?_eq_none (by omega)]
    rfl

/-- Where only other batches change, a region is like it was. -/
theorem alike_withMap {index : Nat} {data : Array Single}
    (h : ∀ place, job.batchOf e index * e.batchSize ≤ place →
      place < (job.batchOf e index + 1) * e.batchSize → data[place]? = job.input.data[place]?) :
    Alike (job.withMap data) e index job e index where
  sampling := rfl
  height := rfl
  width := rfl
  depth := rfl
  rows := rfl
  columns := rfl
  box := rfl
  pixel := by
    intro y hy x hx channel hchannel
    have hend := e.pixel_end_le hy hx
    have hstop : job.batchOf e index * e.batchSize +
        (y * (e.width * e.depth) + x * e.depth + channel) <
          (job.batchOf e index + 1) * e.batchSize := by
      rw [Nat.succ_mul]
      omega
    show (job.withMap data).pixel e (job.batchOf e index) y x channel = _
    rw [pixel, pixel, Extents.pixel_place, Array.getD_eq_getD_getElem?,
      Array.getD_eq_getD_getElem?, ← h _ (Nat.le_add_right ..) hstop]
    rfl

end Pooling

/-! ## Main result -/

/-- The batch of a record is its rounded index, and the first one where it has none. -/
theorem batchOf_spec {job : Job} {output : Array Single} {e : Extents}
    (hcheck : job.check output = .ok e) {index : Nat} (hindex : index < e.regions) :
    (job.batchOf e index : ℚ) =
      if e.hasBatchIndex then (e.entry job.regions.data index 0).round.value else 0 := by
  unfold batchOf
  split
  · rename_i hbatched
    obtain ⟨n, -, hvalue, hn⟩ := Extents.exists_batch_of_isBatch
      (Extents.isBatch_of_checkBatchIndices (check_eq_ok_iff.mp hcheck).2 hbatched hindex)
      (Nat.le_of_lt (fits_of_check hcheck).batches_lt)
    rw [hn, hvalue]
  · rfl

/--
A run that ends without an error is the sum of its records. The output is made of their pooled
maps in order. Each of them is the output of the record alone: without its batch index, on the
batch that the rounded index selects, with the same sampling and grid. Hence some of the
records, in any order, are pooled to their maps in this order; so are, on the same feature map,
the coordinates of records whose rounded index is zero; and a change to other batches than that
of a record leaves its map alone.
-/
theorem align_decomposes (job : Job) (output : Array Single)
    (hok : (job.align output).1 = .ok ()) :
    ∃ e, job.check output = .ok e ∧
      (job.align output).2.toList = pooledMaps e (job.align output).2 (List.range e.regions) ∧
      (∀ index < e.regions,
        (job.batchOf e index : ℚ) =
          (if e.hasBatchIndex then (e.entry job.regions.data index 0).round.value else 0) ∧
        ∀ buffer : Array Single, buffer.size = e.slabSize →
          (job.alone e index).align buffer = (.ok (), pooledMap e (job.align output).2 index)) ∧
      (∀ picks : List Nat, (∀ pick ∈ picks, pick < e.regions) → picks.length ≤ e.regions →
        ∀ buffer : Array Single, buffer.size = picks.length * e.slabSize →
          (job.select e picks).align buffer =
            (.ok (), (pooledMaps e (job.align output).2 picks).toArray) ∧
          ((∀ pick ∈ picks, job.batchOf e pick = 0) →
            (job.selectBoxes e picks).align buffer =
              (.ok (), (pooledMaps e (job.align output).2 picks).toArray))) ∧
      ∀ data : Array Single, data.size = job.input.data.size →
        ((job.withMap data).align output).1 = .ok () ∧
        ∀ index < e.regions,
          (∀ place, job.batchOf e index * e.batchSize ≤ place →
            place < (job.batchOf e index + 1) * e.batchSize →
            data[place]? = job.input.data[place]?) →
          pooledMap e ((job.withMap data).align output).2 index =
            pooledMap e (job.align output).2 index := by
  obtain ⟨e, hcheck⟩ := align_eq_ok_iff.mp hok
  have hpair {other : Job} {buffer : Array Single} {numbers : List Single}
      (hother : ∃ e', other.check buffer = .ok e')
      (hnumbers : (other.align buffer).2.toList = numbers) :
      other.align buffer = (.ok (), numbers.toArray) :=
    Prod.ext (align_eq_ok_iff.mpr hother) (by rw [← hnumbers])
  refine ⟨e, hcheck, toList_align hcheck, ?_, ?_, ?_⟩
  · intro index hindex
    refine ⟨batchOf_spec hcheck hindex, fun buffer hbuffer => ?_⟩
    have hother := check_alone hcheck hindex hbuffer
    have hmap : (job.alone e index).align buffer =
        (.ok (), (pooledMaps e (job.align output).2 [index]).toArray) := by
      refine hpair ⟨_, hother⟩ (toList_align_of_alike hcheck hother rfl (by simpa) ?_)
      intro place pick hpick
      obtain ⟨rfl, rfl⟩ : place = 0 ∧ pick = index := by
        rcases place with _ | place
        · exact ⟨rfl, (Option.some.inj hpick).symm⟩
        · cases hpick
      exact alike_alone hcheck hindex
    rw [hmap, pooledMaps, List.flatMap_singleton]
  · intro picks hpicks hcount buffer hbuffer
    refine ⟨?_, fun hzero => ?_⟩
    · have hother := check_select hcheck hcount hpicks hbuffer
      exact hpair ⟨_, hother⟩ (toList_align_of_alike hcheck hother rfl hpicks
        fun _ _ hpick => alike_select hcheck hpick)
    · have hother := check_selectBoxes hcheck hcount hbuffer
      exact hpair ⟨_, hother⟩ (toList_align_of_alike hcheck hother rfl hpicks
        fun _ _ hpick => alike_selectBoxes hpick (hzero _ (List.mem_of_getElem? hpick)))
  · intro data hdata
    have hother : (job.withMap data).check output = .ok e := check_withMap job output hdata ▸ hcheck
    refine ⟨align_eq_ok_iff.mpr ⟨e, hother⟩, fun index hindex hsame => ?_⟩
    exact pooledMap_eq_of_alike hother hcheck hindex hindex (alike_withMap hsame)

/-- The map of `quadrants` as two batches of two by four pixels; the first record pools the second
batch, the second record the first one. -/
def halves : Job :=
  { quadrants with
    input := ⟨⟨[2, 2, 4, 1]⟩, quadrants.input.data⟩
    regions := ⟨⟨[2, 5]⟩, ([1, 0, 0, 4, 2, 0, 0, 0, 4, 2].map Binary.ofNat).toArray⟩
    output := ⟨[2, 1, 2, 1]⟩ }

/-- The sizes of the run over the halves. -/
def halvesExtents : Extents where
  batches := 2
  height := 2
  width := 4
  depth := 1
  rows := 1
  columns := 2
  regions := 2
  recordLength := 5

-- The checks are evaluated on both records.
set_option maxRecDepth 4000 in
/-- The first record alone, both in the other order, and the second one without its index. -/
theorem halves_decompose :
    (halves.align quadrantMeans).1 = .ok () ∧ halves.check quadrantMeans = .ok halvesExtents ∧
      (halves.alone halvesExtents 0).align (Array.replicate 2 .nan) =
        (.ok (), pooledMap halvesExtents (halves.align quadrantMeans).2 0) ∧
      (halves.select halvesExtents [1, 0]).align quadrantMeans =
        (.ok (), (pooledMaps halvesExtents (halves.align quadrantMeans).2 [1, 0]).toArray) ∧
      (halves.selectBoxes halvesExtents [1]).align (Array.replicate 2 .nan) =
        (.ok (), (pooledMaps halvesExtents (halves.align quadrantMeans).2 [1]).toArray) := by
  have hok : (halves.align quadrantMeans).1 = .ok () := rfl
  have hcheck : halves.check quadrantMeans = .ok halvesExtents := rfl
  obtain ⟨e, he, -, halone, hpicks, -⟩ := align_decomposes halves quadrantMeans hok
  obtain rfl : e = halvesExtents := Except.ok.inj (he.symm.trans hcheck)
  have hfirst : ∀ pick ∈ [1], halves.batchOf halvesExtents pick = 0 := by
    intro pick hpick
    obtain rfl := List.mem_singleton.mp hpick
    rfl
  refine ⟨hok, hcheck, (halone 0 (by decide)).2 _ rfl, ?_, ?_⟩
  · exact (hpicks [1, 0] (by decide) (by decide) _ rfl).1
  · exact (hpicks [1] (by decide) (by decide) _ rfl).2 hfirst

end Job

end RegionPooling
