import Mathlib.Algebra.BigOperators.Group.List.Basic
import Mathlib.Data.List.Basic
import Mathlib.Tactic.Ring
import RegionPooling.Proofs.Pooling.Extents

/-!
# The layout of the output

A run never computes a position from a region, a row, a column and a channel: it writes
whole pooled maps one after the other, each of them cell by cell. This module says what
stands at such a position afterwards.

A `Site` names a number of the output, and `Site.index` is its position. `Job.valueAt` is
the number that belongs there, written with one channel of the feature map only: a fold over
the sample positions of the two bins, divided by the announced number of samples.

Main results:

* `Site.existsUnique_of_lt` — every position is that of exactly one site.
* `Job.getElem?_foldl_poolInto` — after any sequence of regions, a position holds the number
  of its site if its region is among them, and what it held before otherwise.
* `Job.getElem?_align`, `Job.align_writes_every_site` — a run without an error leaves `valueAt`
  at every site.
-/

namespace RegionPooling

/-! ## Sites -/

/-- A number of the output. -/
structure Site where
  region : Nat
  row : Nat
  column : Nat
  channel : Nat

/-- What is counted in blocks of one length stays below the end of the last block. -/
theorem block_lt {place count offset length : Nat} (hplace : place < count)
    (hoffset : offset < length) : place * length + offset < count * length := by
  rw [Nat.mul_comm place]
  exact Nat.mul_add_lt_mul_of_lt_of_lt hplace hoffset

namespace Site

/-- The site exists in a run of these sizes. -/
structure Within (site : Site) (e : Extents) : Prop where
  region : site.region < e.regions
  row : site.row < e.rows
  column : site.column < e.columns
  channel : site.channel < e.depth

/-- The position of a site in the output buffer. -/
def index (e : Extents) (site : Site) : Nat :=
  ((site.region * e.rows + site.row) * e.columns + site.column) * e.depth + site.channel

/-- The cell of a site in its pooled map, counted row by row. -/
def cell (e : Extents) (site : Site) : Nat := site.row * e.columns + site.column

theorem cell_lt {e : Extents} {site : Site} (h : site.Within e) :
    site.cell e < e.rows * e.columns :=
  block_lt h.row h.column

theorem cell_div_columns {e : Extents} {site : Site} (h : site.Within e) :
    site.cell e / e.columns = site.row := by
  have hcolumns : 0 < e.columns := Nat.zero_lt_of_lt h.column
  rw [cell, Nat.mul_comm, Nat.mul_add_div hcolumns, Nat.div_eq_of_lt h.column, Nat.add_zero]

theorem cell_mod_columns {e : Extents} {site : Site} (h : site.Within e) :
    site.cell e % e.columns = site.column := by
  rw [cell, Nat.mul_comm, Nat.mul_add_mod, Nat.mod_eq_of_lt h.column]

/-- The position of a site within the pooled map of its region. -/
theorem index_eq (e : Extents) (site : Site) :
    site.index e = site.region * e.slabSize + (site.cell e * e.depth + site.channel) := by
  unfold index cell Extents.slabSize
  ring

theorem offset_lt {e : Extents} {site : Site} (h : site.Within e) :
    site.cell e * e.depth + site.channel < e.slabSize :=
  block_lt (cell_lt h) h.channel

theorem index_lt {e : Extents} {site : Site} (h : site.Within e) :
    site.index e < e.regions * e.slabSize := by
  rw [index_eq]
  exact block_lt h.region (offset_lt h)

/-- Two numbers written in one base agree if their values do. -/
private theorem digits_eq {a b c d base : Nat} (hb : b < base) (hd : d < base)
    (h : a * base + b = c * base + d) : a = c ∧ b = d := by
  have hbase : 0 < base := by omega
  have hquotient : (b + a * base) / base = (d + c * base) / base := by
    rw [Nat.add_comm b, Nat.add_comm d, h]
  rw [Nat.add_mul_div_right _ _ hbase, Nat.add_mul_div_right _ _ hbase,
    Nat.div_eq_of_lt hb, Nat.div_eq_of_lt hd] at hquotient
  have hac : a = c := by omega
  subst hac
  exact ⟨rfl, by omega⟩

/-- Different sites have different positions. -/
theorem index_injective {e : Extents} {a b : Site} (ha : a.Within e) (hb : b.Within e)
    (h : a.index e = b.index e) : a = b := by
  -- From the last digit to the first.
  unfold index at h
  obtain ⟨hplace, hchannel⟩ := digits_eq ha.channel hb.channel h
  obtain ⟨hline, hcolumn⟩ := digits_eq ha.column hb.column hplace
  obtain ⟨hregion, hrow⟩ := digits_eq ha.row hb.row hline
  cases a
  cases b
  simp_all

/-- Every position is that of exactly one site. -/
theorem existsUnique_of_lt {e : Extents} {i : Nat} (hi : i < e.regions * e.slabSize) :
    ∃! site : Site, site.Within e ∧ site.index e = i := by
  have hregions : i < e.regions * e.rows * e.columns * e.depth := by
    calc i < e.regions * e.slabSize := hi
      _ = e.regions * e.rows * e.columns * e.depth := by unfold Extents.slabSize; ring
  have hdepth : 0 < e.depth := Nat.pos_of_ne_zero fun h => by simp [h] at hregions
  have hcolumns : 0 < e.columns := Nat.pos_of_ne_zero fun h => by simp [h] at hregions
  have hrows : 0 < e.rows := Nat.pos_of_ne_zero fun h => by simp [h] at hregions
  -- The digits of the position in the mixed base of columns, rows and regions.
  have hcell : i / e.depth < e.regions * e.rows * e.columns :=
    Nat.div_lt_of_lt_mul (by rwa [Nat.mul_comm e.depth])
  have hline : i / e.depth / e.columns < e.regions * e.rows :=
    Nat.div_lt_of_lt_mul (by rwa [Nat.mul_comm e.columns])
  have hregion : i / e.depth / e.columns / e.rows < e.regions :=
    Nat.div_lt_of_lt_mul (by rwa [Nat.mul_comm e.rows])
  let site : Site :=
    { region := i / e.depth / e.columns / e.rows
      row := i / e.depth / e.columns % e.rows
      column := i / e.depth % e.columns
      channel := i % e.depth }
  have hwithin : site.Within e :=
    ⟨hregion, Nat.mod_lt _ hrows, Nat.mod_lt _ hcolumns, Nat.mod_lt _ hdepth⟩
  have hindex : site.index e = i := by
    show ((i / e.depth / e.columns / e.rows * e.rows + i / e.depth / e.columns % e.rows)
      * e.columns + i / e.depth % e.columns) * e.depth + i % e.depth = i
    rw [Nat.div_add_mod', Nat.div_add_mod', Nat.div_add_mod']
  refine ⟨site, ⟨hwithin, hindex⟩, ?_⟩
  rintro other ⟨hother, hplace⟩
  exact index_injective hother hwithin (hplace.trans hindex.symm)

end Site

/-! ## Writing -/

namespace Job

theorem getElem?_writeAt (buffer : Array Single) (place : Nat) (numbers : List Single)
    (i : Nat) :
    (writeAt buffer place numbers)[i]? =
      if place ≤ i ∧ i < place + numbers.length ∧ i < buffer.size then numbers[i - place]?
      else buffer[i]? := by
  induction numbers generalizing buffer place with
  | nil =>
    rw [writeAt, if_neg]
    simp only [List.length_nil]
    omega
  | cons x rest ih =>
    rw [writeAt, ih, Array.size_setIfInBounds, Array.getElem?_setIfInBounds]
    simp only [List.length_cons]
    -- Before the first number, at it, or behind it, where the rest is written.
    rcases Nat.lt_trichotomy i place with hlt | rfl | hgt
    · rw [if_neg (by omega), if_neg (by omega), if_neg (by omega)]
    · by_cases hi : i < buffer.size
      · simp [hi]
      · simp [hi]
    · have hsub : i - place = i - (place + 1) + 1 := by omega
      by_cases hi : i < place + 1 + rest.length ∧ i < buffer.size
      · rw [if_pos (by omega), if_pos (by omega), hsub, List.getElem?_cons_succ]
      · rw [if_neg (by omega), if_neg (by omega), if_neg (by omega)]

end Job

/-! ## One cell -/

namespace Region

/-- The samples of a cell, row by row. -/
def grid (e : Extents) (r : Region) (row column : Nat) : List Sample :=
  (walk (r.vertical.bounds row).1 (r.vertical.bounds row).2 r.vertical.bin).flatMap fun y =>
    (walk (r.horizontal.bounds column).1 (r.horizontal.bounds column).2 r.horizontal.bin).map
      fun x => .ofCorners r.base (e.width * e.depth) e.depth (.around y e.height)
        (.around x e.width)

/-- The two walks of a cell make one walk over its samples. -/
theorem cellSums_eq (e : Extents) (input : Array Single) (r : Region) (row column : Nat) :
    cellSums e input r row column =
      (grid e r row column).foldl (addSample input) (Array.replicate e.depth (.zero false)) := by
  unfold cellSums grid
  rw [← Array.foldl_toList, toList_binCorners, List.foldl_map, List.foldl_flatMap]
  congr 1
  funext sums y
  rw [← Array.foldl_toList, toList_binCorners, List.foldl_map, List.foldl_map]

/-- Adding samples to all channels adds to each channel what it has of them. -/
theorem getElem?_foldl_addSample (input : Array Single) (samples : List Sample)
    (sums : Array Single) (channel : Nat) :
    (samples.foldl (addSample input) sums)[channel]? =
      sums[channel]?.map fun sum =>
        samples.foldl (fun sum s => sum + s.value input channel) sum := by
  induction samples generalizing sums with
  | nil => simp
  | cons s rest ih =>
    rw [List.foldl_cons, ih, addSample, Array.getElem?_mapIdx, Option.map_map]
    rfl

/-- The number of a cell in one channel. -/
theorem getElem?_cell (e : Extents) (input : Array Single) (r : Region) (row column : Nat)
    {channel : Nat} (h : channel < e.depth) :
    (cell e input r row column)[channel]? =
      some ((grid e r row column).foldl (fun sum s => sum + s.value input channel)
        (.zero false) / r.samples) := by
  rw [cell, Array.getElem?_map, cellSums_eq, getElem?_foldl_addSample,
    Array.getElem?_replicate, if_pos h]
  rfl

theorem size_cell (e : Extents) (input : Array Single) (r : Region) (row column : Nat) :
    (cell e input r row column).size = e.depth := by
  have hsums (samples : List Sample) (sums : Array Single) :
      (samples.foldl (addSample input) sums).size = sums.size := by
    induction samples generalizing sums with
    | nil => rfl
    | cons s rest ih => rw [List.foldl_cons, ih, addSample, Array.size_mapIdx]
  rw [cell, Array.size_map, cellSums_eq, hsums, Array.size_replicate]

end Region

/-! ## One pooled map -/

/-- In a list of blocks of one length, a place is found by block and offset. -/
theorem getElem?_flatMap_of_length {α β : Type} (blocks : List α) (f : α → List β) (size : Nat)
    (hsize : ∀ a ∈ blocks, (f a).length = size) (block offset : Nat) (ho : offset < size) :
    (blocks.flatMap f)[block * size + offset]? = blocks[block]?.bind fun a => (f a)[offset]? := by
  induction blocks generalizing block with
  | nil => simp
  | cons a rest ih =>
    have ha : (f a).length = size := hsize a (List.mem_cons_self ..)
    rw [List.flatMap_cons]
    cases block with
    | zero =>
      rw [List.getElem?_append_left (by omega)]
      simp
    | succ block =>
      have hsub : (block + 1) * size + offset - (f a).length = block * size + offset := by
        rw [ha, Nat.succ_mul]
        omega
      rw [List.getElem?_append_right (by rw [ha, Nat.succ_mul]; omega), hsub,
        ih (fun b hb => hsize b (List.mem_cons_of_mem _ hb)), List.getElem?_cons_succ]

theorem length_flatMap_of_length {α β : Type} (blocks : List α) (f : α → List β) (size : Nat)
    (hsize : ∀ a ∈ blocks, (f a).length = size) :
    (blocks.flatMap f).length = blocks.length * size := by
  rw [List.length_flatMap, List.map_congr_left hsize, List.map_const', List.sum_replicate_nat]

namespace Region

theorem length_slab (e : Extents) (input : Array Single) (r : Region) :
    (slab e input r).length = e.slabSize := by
  unfold slab
  rw [length_flatMap_of_length _ _ e.depth, List.length_range, Extents.slabSize]
  intro place _
  rw [Array.length_toList, size_cell]

/-- A place of the pooled map holds the number of its cell. -/
theorem getElem?_slab (e : Extents) (input : Array Single) (r : Region) {place channel : Nat}
    (hp : place < e.rows * e.columns) (hc : channel < e.depth) :
    (slab e input r)[place * e.depth + channel]? =
      (cell e input r (place / e.columns) (place % e.columns))[channel]? := by
  unfold slab
  rw [getElem?_flatMap_of_length _ _ e.depth _ _ _ hc]
  · rw [List.getElem?_range hp]
    simp
  · intro place _
    rw [Array.length_toList, size_cell]

end Region

/-! ## All regions -/

namespace Job

/-- One region writes at its own positions and nowhere else. -/
theorem getElem?_poolInto (job : Job) (e : Extents) (output : Array Single) (index : Nat)
    {site : Site} (h : site.Within e) (hsize : output.size = e.regions * e.slabSize) :
    (job.poolInto e output index)[site.index e]? =
      if index = site.region then
        (Region.cell e job.input.data (job.region e site.region) site.row site.column)[site.channel]?
      else output[site.index e]? := by
  have hoffset := Site.offset_lt h
  have hi : site.index e < output.size := hsize ▸ Site.index_lt h
  unfold poolInto
  rw [getElem?_writeAt, Region.length_slab]
  by_cases hindex : index = site.region
  · -- Its own region: the offset in the pooled map is taken apart into cell and channel.
    subst hindex
    have hplace := Site.index_eq e site
    have hsub : site.index e - site.region * e.slabSize =
        site.cell e * e.depth + site.channel := by omega
    rw [if_pos (by omega), if_pos rfl, hsub, Region.getElem?_slab _ _ _ (Site.cell_lt h) h.channel,
      Site.cell_div_columns h, Site.cell_mod_columns h]
  · rw [if_neg, if_neg hindex]
    rw [Site.index_eq]
    -- The positions of another region all lie before this one or all behind it.
    rcases Nat.lt_or_gt_of_ne hindex with hlt | hgt
    · have hnext : (index + 1) * e.slabSize ≤ site.region * e.slabSize :=
        Nat.mul_le_mul_right _ hlt
      rw [Nat.succ_mul] at hnext
      omega
    · have hnext : (site.region + 1) * e.slabSize ≤ index * e.slabSize :=
        Nat.mul_le_mul_right _ hgt
      rw [Nat.succ_mul] at hnext
      omega

/--
After any sequence of regions a position holds the number of its site, if its region was
among them, and otherwise what it held before. Repetitions and the order do not matter, since
what a region writes does not depend on the buffer.
-/
theorem getElem?_foldl_poolInto (job : Job) (e : Extents) (order : List Nat)
    (output : Array Single) {site : Site} (h : site.Within e)
    (hsize : output.size = e.regions * e.slabSize) :
    (order.foldl (job.poolInto e) output)[site.index e]? =
      if site.region ∈ order then
        (Region.cell e job.input.data (job.region e site.region) site.row site.column)[site.channel]?
      else output[site.index e]? := by
  -- Along the sequence, for any buffer: what a later region leaves alone is up to this one.
  induction order generalizing output with
  | nil => simp
  | cons index rest ih =>
    rw [List.foldl_cons, ih _ (by rw [size_poolInto, hsize]), getElem?_poolInto _ _ _ _ h hsize]
    by_cases hrest : site.region ∈ rest
    · rw [if_pos hrest, if_pos (List.mem_cons_of_mem _ hrest)]
    · rw [if_neg hrest]
      by_cases hindex : index = site.region
      · rw [if_pos hindex, if_pos (by simp [hindex])]
      · rw [if_neg hindex, if_neg]
        rw [List.mem_cons, not_or]
        exact ⟨Ne.symm hindex, hrest⟩

/-! ## The number at a site -/

/-- The batch that a record selects. -/
def batchOf (job : Job) (e : Extents) (region : Nat) : Nat :=
  if e.hasBatchIndex then
    ((e.entry job.regions.data region 0).round.clampToInt 0 0xFFFFFFFFFFFFFFFF).toNat
  else 0

/-- The coordinate of a record: left, top, right and bottom, after the batch index. -/
def coordinate (job : Job) (e : Extents) (region place : Nat) : Single :=
  e.entry job.regions.data region ((if e.hasBatchIndex then 1 else 0) + place)

/-- The number of the feature map at a batch, a row, a column and a channel. -/
def pixel (job : Job) (e : Extents) (batch row column channel : Nat) : Single :=
  job.input.data.getD (((batch * e.height + row) * e.width + column) * e.depth + channel)
    (.zero false)

/-- The interpolated value of one channel between the corners `y` and `x`. -/
def interpolated (job : Job) (e : Extents) (batch : Nat) (y x : Corners) (channel : Nat) :
    Single :=
  let left := Binary.ofNat 1 - x.fraction
  let top := Binary.ofNat 1 - y.fraction
  left * top * job.pixel e batch y.lower x.lower channel
    + x.fraction * top * job.pixel e batch y.lower x.upper channel
    + left * y.fraction * job.pixel e batch y.upper x.lower channel
    + x.fraction * y.fraction * job.pixel e batch y.upper x.upper channel

/-- The sum of the interpolated values over the samples of a site, row by row from zero. -/
def sumAt (job : Job) (e : Extents) (site : Site) : Single :=
  let r := job.region e site.region
  (walk (r.vertical.edge site.row) (r.vertical.edge (site.row + 1)) r.vertical.bin).foldl
    (fun sum y =>
      (walk (r.horizontal.edge site.column) (r.horizontal.edge (site.column + 1))
        r.horizontal.bin).foldl
        (fun sum x => sum + job.interpolated e (job.batchOf e site.region)
          (.around y e.height) (.around x e.width) site.channel)
        sum)
    (.zero false)

/-- The number that belongs to a site: the sum, divided by the announced number of samples. -/
def valueAt (job : Job) (e : Extents) (site : Site) : Single :=
  let r := job.region e site.region
  job.sumAt e site / Binary.ofInt (r.horizontal.ratio * r.vertical.ratio)

theorem region_vertical (job : Job) (e : Extents) (region : Nat) :
    (job.region e region).vertical =
      .ofRegion (job.coordinate e region 1 * job.sampling.spatialScale)
        (job.coordinate e region 3 * job.sampling.spatialScale) e.rows
        job.sampling.samplingRatio := rfl

theorem region_horizontal (job : Job) (e : Extents) (region : Nat) :
    (job.region e region).horizontal =
      .ofRegion (job.coordinate e region 0 * job.sampling.spatialScale)
        (job.coordinate e region 2 * job.sampling.spatialScale) e.columns
        job.sampling.samplingRatio := rfl

theorem region_base (job : Job) (e : Extents) (region : Nat) :
    (job.region e region).base = job.batchOf e region * e.batchSize := rfl

/-- A sample is found in the buffer by its batch, rows and columns. -/
theorem sample_value_eq (job : Job) (e : Extents) (batch : Nat) (y x : Corners) (channel : Nat) :
    (Sample.ofCorners (batch * e.batchSize) (e.width * e.depth) e.depth y x).value
      job.input.data channel = job.interpolated e batch y x channel := by
  have hplace (row column : Nat) :
      batch * e.batchSize + row * (e.width * e.depth) + column * e.depth + channel =
        ((batch * e.height + row) * e.width + column) * e.depth + channel := by
    unfold Extents.batchSize
    ring
  simp only [Sample.value, Sample.ofCorners, interpolated, pixel, hplace]

/-- The sum at a site is the sum over the samples of its cell. -/
theorem sumAt_eq (job : Job) (e : Extents) (site : Site) :
    job.sumAt e site =
      (Region.grid e (job.region e site.region) site.row site.column).foldl
        (fun sum s => sum + s.value job.input.data site.channel) (.zero false) := by
  unfold sumAt Region.grid Axis.bounds
  simp only [List.foldl_flatMap, List.foldl_map, region_base, sample_value_eq]

theorem getElem?_cell_eq_valueAt (job : Job) (e : Extents) {site : Site} (h : site.Within e) :
    (Region.cell e job.input.data (job.region e site.region) site.row site.column)[site.channel]? =
      some (job.valueAt e site) := by
  rw [Region.getElem?_cell _ _ _ _ _ h.channel, ← sumAt_eq]
  rfl

/-- After the checks a run leaves the number of each site at its position. -/
theorem getElem?_align {job : Job} {output : Array Single} {e : Extents}
    (h : job.check output = .ok e) {site : Site} (hsite : site.Within e) :
    (job.align output).2[site.index e]? = some (job.valueAt e site) := by
  have hslab : e.slabSize ≠ 0 := Nat.ne_of_gt (Nat.zero_lt_of_lt (Site.offset_lt hsite))
  rw [align_of_check h, if_neg hslab,
    getElem?_foldl_poolInto _ _ _ _ hsite (fits_of_check h).output_size,
    if_pos (List.mem_range.mpr hsite.region), getElem?_cell_eq_valueAt _ _ hsite]

/--
A run that ends without an error has written every site: the position of a site holds
`valueAt`, whatever it held before, and each position of the output is that of exactly one site.
-/
theorem align_writes_every_site (job : Job) (output : Array Single)
    (hok : (job.align output).1 = .ok ()) :
    ∃ e, job.check output = .ok e ∧
      (∀ site : Site, site.Within e →
        (job.align output).2[site.index e]? = some (job.valueAt e site)) ∧
      ∀ i < (job.align output).2.size, ∃! site : Site, site.Within e ∧ site.index e = i := by
  obtain ⟨e, hcheck⟩ := align_eq_ok_iff.mp hok
  refine ⟨e, hcheck, fun site hsite => getElem?_align hcheck hsite, ?_⟩
  intro i hi
  rw [show (job.align output).2.size = output.size from size_alignIn ..,
    show output.size = _ from (fits_of_check hcheck).output_size] at hi
  exact Site.existsUnique_of_lt hi

/-- Four by four pixels, numbered row by row, and one region that covers them all. Pooling
takes four samples in each quadrant. -/
def quadrants : Job where
  input := ⟨⟨[1, 4, 4, 1]⟩, ((List.range 16).map Binary.ofNat).toArray⟩
  regions := ⟨⟨[1, 4]⟩, ([0, 0, 4, 4].map Binary.ofNat).toArray⟩
  sampling := { spatialScale := Binary.ofNat 1, samplingRatio := 2 }
  output := ⟨[1, 2, 2, 1]⟩

/-- A buffer for the means of the four quadrants. -/
def quadrantMeans : Array Single := Array.replicate 4 (.zero false)

/-- The sizes of the run over the quadrants. -/
def quadrantExtents : Extents where
  batches := 1
  height := 4
  width := 4
  depth := 1
  rows := 2
  columns := 2
  regions := 1
  recordLength := 4

/-- The run over the quadrants ends without an error and writes all four sites. -/
theorem quadrants_writes_every_site :
    (quadrants.align quadrantMeans).1 = .ok () ∧
      ∃ e, quadrants.check quadrantMeans = .ok e ∧
        (∀ site : Site, site.Within e →
          (quadrants.align quadrantMeans).2[site.index e]? = some (quadrants.valueAt e site)) ∧
        ∀ i < (quadrants.align quadrantMeans).2.size,
          ∃! site : Site, site.Within e ∧ site.index e = i := by
  have hok : (quadrants.align quadrantMeans).1 = .ok () := rfl
  exact ⟨hok, align_writes_every_site quadrants quadrantMeans hok⟩

end Job

end RegionPooling
