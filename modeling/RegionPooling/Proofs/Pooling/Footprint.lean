import Mathlib.Tactic.IntervalCases
import RegionPooling.Proofs.Pooling.Mean
import RegionPooling.Proofs.Pooling.Walk

/-!
# Which pixels a cell reads

The samples of a cell lie in its two bins, and each of them is interpolated between a pixel and
its neighbour. So a cell reads a rectangle of the feature map: along each axis from the pixel
before the beginning of the bin to one past the pixel before its end, moved into the map. A bin
that begins at the last pixel or beyond reads only this pixel, and a bin that ends at the first
one or before only that. A bin with an end that is no number has no samples, and then the cell
reads nothing.

`Reaches` says this of one axis, `Job.Reads` of a cell. That nothing else is read means that two
feature maps which agree on these pixels give the same number, whatever they hold elsewhere.

Main results:

* `Corners.lower_around`, `Corners.upper_around` — the corners of a position in whole numbers.
* `Reaches.lower`, `Reaches.upper` — a sample of a bin reaches no other pixels.
* `Job.sampleValues_withMap` — the samples of a cell read no other pixels.
* `Job.align_reads_footprint` — and so does the cell.
-/

namespace RegionPooling

/-! ## One axis -/

/-- The whole part of a position, moved onto an axis of this length. -/
def pixelBefore (position : Single) (length : Nat) : Nat := min ⌊position.value⌋₊ (length - 1)

/-- The samples between `start` and `stop` are interpolated from this pixel and others of the
kind. The beginning is rounded down to a pixel, the end has one pixel more. -/
structure Reaches (start stop : Single) (length pixel : Nat) : Prop where
  start_ne_nan : start ≠ .nan
  stop_ne_nan : stop ≠ .nan
  start_le : pixelBefore start length ≤ pixel
  le_stop : pixel ≤ min (pixelBefore stop length + 1) (length - 1)
  /-- From the last pixel on, the last one counts. -/
  past_last : ((length - 1 : Nat) : ℚ) ≤ start.value → pixel = length - 1
  /-- Before the first pixel, the first one counts. -/
  before_first : stop.value ≤ 0 → pixel = 0

theorem pixelBefore_mono {x y : Single} (h : x.value ≤ y.value) (length : Nat) :
    pixelBefore x length ≤ pixelBefore y length :=
  min_le_min_right _ (Nat.floor_mono h)

theorem pixelBefore_eq_zero {x : Single} (h : x.value < 0) (length : Nat) :
    pixelBefore x length = 0 := by
  rw [pixelBefore, Nat.floor_of_nonpos h.le, Nat.zero_min]

theorem pixelBefore_eq_last {x : Single} {length : Nat}
    (h : ((length - 1 : Nat) : ℚ) ≤ x.value) : pixelBefore x length = length - 1 :=
  min_eq_right (Nat.le_floor h)

/-! ## Corners -/

namespace Corners

variable {position : Single} {length : Nat}

/-- The three cases of a position that is a number, by its value. -/
theorem around_cases (h : position ≠ .nan) (hlt : length < addressable) :
    (position.value < 0 ∧ around position length = ⟨0, 0, .zero false⟩) ∨
    (0 ≤ position.value ∧ length - 1 ≤ ⌊position.value⌋₊ ∧
      around position length = ⟨length - 1, length - 1, .zero false⟩) ∨
    (0 ≤ position.value ∧ ⌊position.value⌋₊ < length - 1 ∧
      around position length =
        ⟨⌊position.value⌋₊, ⌊position.value⌋₊ + 1, position - position.floor⟩) := by
  unfold addressable at hlt
  by_cases hfinite : position.isFinite = true
  · obtain ⟨hfloor, hvalue⟩ := Single.value_floor hfinite
    have hclamp := Single.clampToInt_eq_max 0 0xFFFFFFFFFFFFFFFF hfloor hvalue
    have hsign : position.floor < .zero false ↔ position.value < 0 := by
      rw [Binary.lt_iff_value_lt (Binary.ne_nan_of_isFinite hfloor) (Binary.zero_ne_nan _),
        Binary.value_zero, hvalue]
      exact Int.cast_lt_zero.trans Int.floor_lt_zero
    have hnat : ⌊position.value⌋.toNat = ⌊position.value⌋₊ := Int.floor_toNat _
    by_cases hneg : position.value < 0
    · left
      exact ⟨hneg, by simp only [around, hsign.mpr hneg, if_true]⟩
    · right
      have hnonneg : 0 ≤ position.value := not_lt.mp hneg
      have hfloor0 : 0 ≤ ⌊position.value⌋ := Int.floor_nonneg.mpr hnonneg
      have hbelow : ¬ position.floor < .zero false := fun hlt => hneg (hsign.mp hlt)
      by_cases hlast : length - 1 ≤ ⌊position.value⌋₊
      · left
        refine ⟨hnonneg, hlast, ?_⟩
        simp only [around, if_neg hbelow, hclamp]
        rw [if_pos (by omega)]
      · right
        refine ⟨hnonneg, by omega, ?_⟩
        have hlower : (max 0 (min 0xFFFFFFFFFFFFFFFF ⌊position.value⌋)).toNat =
            ⌊position.value⌋₊ := by omega
        simp only [around, if_neg hbelow, hclamp, hlower]
        rw [if_neg hlast]
  · -- The infinities lie before the first pixel and past the last one.
    obtain ⟨s, rfl⟩ := Binary.exists_eq_infinity h hfinite
    cases s with
    | true =>
      left
      refine ⟨?_, rfl⟩
      rw [show (Binary.infinity true : Single) = (Binary.infinity false : Single).neg from rfl,
        Binary.value_neg, Single.value_infinity]
      norm_num
    | false =>
      right; left
      rw [Single.value_infinity]
      have hlarge : length - 1 ≤ 2 ^ 128 := by omega
      refine ⟨by positivity, Nat.le_floor (by exact_mod_cast hlarge), ?_⟩
      have hclamp : (Binary.infinity false : Single).floor.clampToInt 0 0xFFFFFFFFFFFFFFFF =
          0xFFFFFFFFFFFFFFFF := rfl
      have hbelow : ¬ (Binary.infinity false : Single).floor < .zero false := by decide
      simp only [around, if_neg hbelow, hclamp]
      rw [if_pos (by omega)]

/-- The lower corner is the pixel before the position. -/
theorem lower_around (h : position ≠ .nan) (hlt : length < addressable) :
    (around position length).lower = pixelBefore position length := by
  rcases around_cases h hlt with ⟨hneg, heq⟩ | ⟨-, hlast, heq⟩ | ⟨-, hbetween, heq⟩
  · rw [heq, pixelBefore_eq_zero hneg]
  · rw [heq, pixelBefore, min_eq_right hlast]
  · rw [heq, pixelBefore, min_eq_left hbetween.le]

/-- The upper corner is its neighbour, if there is one, but before the first pixel it is that. -/
theorem upper_around (h : position ≠ .nan) (hlt : length < addressable) :
    (around position length).upper =
      if position.value < 0 then 0 else min (pixelBefore position length + 1) (length - 1) := by
  rcases around_cases h hlt with ⟨hneg, heq⟩ | ⟨hnonneg, hlast, heq⟩ | ⟨hnonneg, hbetween, heq⟩
  · rw [heq, if_pos hneg]
  · rw [heq, if_neg (not_lt.mpr hnonneg), pixelBefore, min_eq_right hlast]
    exact (min_eq_right (Nat.le_succ _)).symm
  · rw [heq, if_neg (not_lt.mpr hnonneg), pixelBefore, min_eq_left hbetween.le]
    exact (min_eq_left hbetween).symm

end Corners

namespace Reaches

variable {start stop position : Single} {length : Nat}

theorem lower (h : InInterval start stop position) (hlt : length < addressable) :
    Reaches start stop length (Corners.around position length).lower := by
  rw [Corners.lower_around h.ne_nan hlt]
  exact {
    start_ne_nan := h.start_ne_nan
    stop_ne_nan := h.stop_ne_nan
    start_le := pixelBefore_mono h.start_le length
    le_stop := by
      have hmono := pixelBefore_mono h.lt_stop.le length
      exact le_min (by omega) (min_le_right _ _)
    past_last := fun hlast => pixelBefore_eq_last (hlast.trans h.start_le)
    before_first := fun hfirst => pixelBefore_eq_zero (h.lt_stop.trans_le hfirst) length }

theorem upper (h : InInterval start stop position) (hlt : length < addressable) :
    Reaches start stop length (Corners.around position length).upper := by
  have hstart := pixelBefore_mono h.start_le length
  have hstop := pixelBefore_mono h.lt_stop.le length
  have hrange : pixelBefore position length ≤ length - 1 := min_le_right _ _
  rw [Corners.upper_around h.ne_nan hlt]
  split
  · -- Before the first pixel both corners are this one.
    rename_i hneg
    have hzero := pixelBefore_eq_zero hneg length
    exact {
      start_ne_nan := h.start_ne_nan
      stop_ne_nan := h.stop_ne_nan
      start_le := hstart.trans hzero.le
      le_stop := Nat.zero_le _
      past_last := fun hlast => by
        have hnonneg : (0 : ℚ) ≤ ((length - 1 : Nat) : ℚ) := Nat.cast_nonneg _
        linarith [h.start_le]
      before_first := fun _ => rfl }
  · rename_i hnonneg
    exact {
      start_ne_nan := h.start_ne_nan
      stop_ne_nan := h.stop_ne_nan
      start_le := by omega
      le_stop := by omega
      past_last := fun hlast => by
        have heq := pixelBefore_eq_last (hlast.trans h.start_le)
        omega
      before_first := fun hfirst => absurd (h.lt_stop.trans_le hfirst) hnonneg }

end Reaches

namespace Job

/-! ## One cell -/

/-- The samples of a cell are interpolated from the pixel in this row and this column. -/
def Reads (job : Job) (e : Extents) (site : Site) (row column : Nat) : Prop :=
  let r := job.region e site.region
  Reaches (r.vertical.bounds site.row).1 (r.vertical.bounds site.row).2 e.height row ∧
    Reaches (r.horizontal.bounds site.column).1 (r.horizontal.bounds site.column).2 e.width column

section Run

variable {job : Job} {output : Array Single} {e : Extents} {site : Site} {data : Array Single}

/-- The positions along an axis of a region lie in their bin. -/
theorem inInterval_of_mem_vertical (hsizes : e.Addressed) {y : Single}
    (hy : y ∈ walk ((job.region e site.region).vertical.edge site.row)
      ((job.region e site.region).vertical.edge (site.row + 1))
      (job.region e site.region).vertical.bin) :
    InInterval ((job.region e site.region).vertical.bounds site.row).1
      ((job.region e site.region).vertical.bounds site.row).2 y :=
  .of_mem_walk (Axis.isStep_bin _ _ hsizes.rows_pos hsizes.rows_lt _) hy

theorem inInterval_of_mem_horizontal (hsizes : e.Addressed) {x : Single}
    (hx : x ∈ walk ((job.region e site.region).horizontal.edge site.column)
      ((job.region e site.region).horizontal.edge (site.column + 1))
      (job.region e site.region).horizontal.bin) :
    InInterval ((job.region e site.region).horizontal.bounds site.column).1
      ((job.region e site.region).horizontal.bounds site.column).2 x :=
  .of_mem_walk (Axis.isStep_bin _ _ hsizes.columns_pos hsizes.columns_lt _) hx

/-- The samples of a cell have the same values on maps that agree where the cell reads. -/
theorem sampleValues_withMap (hsizes : e.Addressed)
    (h : ∀ row column, job.Reads e site row column →
      (job.withMap data).pixel e (job.batchOf e site.region) row column site.channel =
        job.pixel e (job.batchOf e site.region) row column site.channel) :
    (job.withMap data).sampleValues e site = job.sampleValues e site := by
  show List.flatMap _ _ = List.flatMap _ _
  refine List.flatMap_congr fun y hy => List.map_congr_left fun x hx => ?_
  have hrow := inInterval_of_mem_vertical hsizes hy
  have hcolumn := inInterval_of_mem_horizontal hsizes hx
  -- Each of the four pixels is a corner along both axes.
  have hpixel {row column : Nat}
      (hy' : row = (Corners.around y e.height).lower ∨ row = (Corners.around y e.height).upper)
      (hx' : column = (Corners.around x e.width).lower ∨
        column = (Corners.around x e.width).upper) :
      (job.withMap data).pixel e (job.batchOf e site.region) row column site.channel =
        job.pixel e (job.batchOf e site.region) row column site.channel := by
    refine h row column ⟨?_, ?_⟩
    · rcases hy' with rfl | rfl
      · exact Reaches.lower hrow hsizes.height_lt
      · exact Reaches.upper hrow hsizes.height_lt
    · rcases hx' with rfl | rfl
      · exact Reaches.lower hcolumn hsizes.width_lt
      · exact Reaches.upper hcolumn hsizes.width_lt
  show (job.withMap data).interpolated e (job.batchOf e site.region) _ _ _ = _
  simp only [interpolated, hpixel (.inl rfl) (.inl rfl), hpixel (.inl rfl) (.inr rfl),
    hpixel (.inr rfl) (.inl rfl), hpixel (.inr rfl) (.inr rfl)]

theorem valueAt_withMap (hsizes : e.Addressed)
    (h : ∀ row column, job.Reads e site row column →
      (job.withMap data).pixel e (job.batchOf e site.region) row column site.channel =
        job.pixel e (job.batchOf e site.region) row column site.channel) :
    (job.withMap data).valueAt e site = job.valueAt e site := by
  have hsum : (job.withMap data).sumAt e site = job.sumAt e site := by
    rw [sumAt_eq_sum, sumAt_eq_sum, sampleValues_withMap hsizes h]
  simp only [valueAt, hsum]
  rfl

end Run

/-! ## Main result -/

/--
The numbers of a cell depend on the pixels that `Reads` names, all of them in the batch of the
record, and on no others: with another feature map that has the same numbers there, the run goes
through too and leaves the same number at the site. Each channel depends on this channel alone.
-/
theorem align_reads_footprint (job : Job) (output : Array Single)
    (hok : (job.align output).1 = .ok ()) :
    ∃ e, job.check output = .ok e ∧
      ∀ data : Array Single, data.size = job.input.data.size →
        ((job.withMap data).align output).1 = .ok () ∧
        ∀ site : Site, site.Within e →
          (∀ row column, job.Reads e site row column →
            (job.withMap data).pixel e (job.batchOf e site.region) row column site.channel =
              job.pixel e (job.batchOf e site.region) row column site.channel) →
          ((job.withMap data).align output).2[site.index e]? =
            (job.align output).2[site.index e]? := by
  obtain ⟨e, hcheck⟩ := align_eq_ok_iff.mp hok
  refine ⟨e, hcheck, ?_⟩
  intro data hdata
  have hother : (job.withMap data).check output = .ok e := check_withMap job output hdata ▸ hcheck
  refine ⟨align_eq_ok_iff.mpr ⟨e, hother⟩, ?_⟩
  intro site hsite hsame
  rw [getElem?_align hother hsite, getElem?_align hcheck hsite,
    valueAt_withMap (addressed_of_within hcheck hsite) hsame]

/-- The map of `quadrants` in its last quadrant, and no numbers anywhere else. -/
def lastQuadrant : Array Single :=
  ((List.range 16).map fun place =>
    if 2 ≤ place / 4 ∧ 2 ≤ place % 4 then Binary.ofNat place else .nan).toArray

/-- The cell of the last quadrant reads nothing before the third row or the third column. -/
theorem two_le_of_reads {row column : Nat}
    (h : quadrants.Reads quadrantExtents ⟨0, 1, 1, 0⟩ row column) :
    2 ≤ row ∧ row ≤ 3 ∧ 2 ≤ column ∧ column ≤ 3 := by
  obtain ⟨hrow, hcolumn⟩ := h
  have hstart : pixelBefore (Binary.ofNat 2) 4 = 2 := by
    rw [pixelBefore, (Single.ofNat_exact (by decide)).2]
    norm_num
  have hvertical : ((quadrants.region quadrantExtents 0).vertical.bounds 1).1 = .ofNat 2 := by
    decide +kernel
  have hhorizontal : ((quadrants.region quadrantExtents 0).horizontal.bounds 1).1 = .ofNat 2 := by
    decide +kernel
  have hrowStart := hrow.start_le
  have hcolumnStart := hcolumn.start_le
  rw [hvertical, show quadrantExtents.height = 4 from rfl, hstart] at hrowStart
  rw [hhorizontal, show quadrantExtents.width = 4 from rfl, hstart] at hcolumnStart
  have hrowStop : row ≤ 4 - 1 := hrow.le_stop.trans (min_le_right _ _)
  have hcolumnStop : column ≤ 4 - 1 := hcolumn.le_stop.trans (min_le_right _ _)
  exact ⟨hrowStart, hrowStop, hcolumnStart, hcolumnStop⟩

/-- Without the other quadrants, the mean of the last one is the same. -/
theorem quadrants_reads_footprint :
    (quadrants.align quadrantMeans).1 = .ok () ∧
      quadrants.check quadrantMeans = .ok quadrantExtents ∧
      lastQuadrant.size = quadrants.input.data.size ∧
      (∀ row column, quadrants.Reads quadrantExtents ⟨0, 1, 1, 0⟩ row column →
        (quadrants.withMap lastQuadrant).pixel quadrantExtents 0 row column 0 =
          quadrants.pixel quadrantExtents 0 row column 0) ∧
      ((quadrants.withMap lastQuadrant).align quadrantMeans).2[3]? =
        (quadrants.align quadrantMeans).2[3]? := by
  have hok : (quadrants.align quadrantMeans).1 = .ok () := rfl
  have hcheck : quadrants.check quadrantMeans = .ok quadrantExtents := rfl
  have hsize : lastQuadrant.size = quadrants.input.data.size := rfl
  have hsame : ∀ row column, quadrants.Reads quadrantExtents ⟨0, 1, 1, 0⟩ row column →
      (quadrants.withMap lastQuadrant).pixel quadrantExtents 0 row column 0 =
        quadrants.pixel quadrantExtents 0 row column 0 := by
    intro row column hreads
    obtain ⟨hrow, hrow', hcolumn, hcolumn'⟩ := two_le_of_reads hreads
    interval_cases row <;> interval_cases column <;> rfl
  obtain ⟨e, he, hdata⟩ := align_reads_footprint quadrants quadrantMeans hok
  obtain rfl : e = quadrantExtents := Except.ok.inj (he.symm.trans hcheck)
  have hwithin : (⟨0, 1, 1, 0⟩ : Site).Within quadrantExtents :=
    ⟨by decide, by decide, by decide, by decide⟩
  exact ⟨hok, hcheck, hsize, hsame, (hdata lastQuadrant hsize).2 ⟨0, 1, 1, 0⟩ hwithin hsame⟩

end Job

end RegionPooling
