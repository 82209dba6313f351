import RegionPooling.Proofs.Binary.Single
import RegionPooling.Proofs.Pooling.Layout

/-!
# Batch indices

The batch index of a record is a number of four bytes that is rounded, compared with the
number of batches as such a number, and turned into a whole one. The comparison lets nothing
through: the number of batches may be rounded up, but no whole number of four bytes lies
between it and what it rounds to. Where it is rounded down, to `Extents.limit`, the batch of
this number is refused although it exists; every other one is accepted.

Main results:

* `Extents.isBatch_iff` — an index is accepted if its nearest whole number is a batch other than
  the limit.
* `Extents.exists_batch_of_isBatch` — an accepted index is a batch, and it is this batch that
  the conversion gives.
* `Job.batchOf_lt` — after the checks of a run every region selects an existing batch.
-/

namespace RegionPooling

namespace Extents

/-- The number of batches as the number of four bytes that the indices are compared with. -/
def limit (e : Extents) : ℚ := (Binary.ofNat e.batches : Single).value

/-- The nearest whole number to a batch index is this batch. -/
structure Selects (e : Extents) (index : Single) (batch : Nat) : Prop where
  isFinite : index.isFinite = true
  nearest : nearestInt index.value = batch
  lt_batches : batch < e.batches

/-- The rounded index is a whole number, so the comparisons with zero and with the number of
batches are about whole numbers. -/
theorem isBatch_iff {e : Extents} {index : Single} :
    e.isBatch index = true ↔ ∃ batch : Nat, e.Selects index batch ∧ (batch : ℚ) ≠ e.limit := by
  have hrounding := Binary.isRounding_ofNat (f := .single) e.batches
  simp only [isBatch, Bool.and_eq_true, Bool.not_eq_true', decide_eq_false_iff_not]
  constructor
  · rintro ⟨⟨hfinite, hzero⟩, hcount⟩
    have hindex := Single.isFinite_of_round hfinite
    have hvalue := (Single.value_round hindex).2
    have hnan := Binary.ne_nan_of_isFinite hfinite
    rw [Binary.lt_iff_value_lt hnan (Binary.zero_ne_nan _), Binary.value_zero, hvalue,
      not_lt] at hzero
    rw [Binary.le_iff_value_le hrounding.ne_nan hnan, hvalue, not_le] at hcount
    have hnonneg : 0 ≤ nearestInt index.value := by exact_mod_cast hzero
    obtain ⟨batch, hbatch⟩ := Int.eq_ofNat_of_zero_le hnonneg
    rw [hbatch] at hcount
    have hlt : (batch : ℚ) < e.limit := by exact_mod_cast hcount
    refine ⟨batch, ⟨hindex, hbatch, ?_⟩, hlt.ne⟩
    by_contra hge
    -- Otherwise the number of batches would round to at most the index.
    refine hlt.not_ge (?_ : e.limit ≤ batch)
    have hround : index.round.value = batch := by rw [hvalue, hbatch, Int.cast_natCast]
    rw [← hround]
    refine hrounding.value_le hnan ?_
    rw [hround]
    exact_mod_cast not_lt.mp hge
  · rintro ⟨batch, ⟨hindex, hbatch, hlt⟩, hne⟩
    obtain ⟨hfinite, hvalue⟩ := Single.value_round hindex
    have hnan := Binary.ne_nan_of_isFinite hfinite
    rw [hbatch, Int.cast_natCast] at hvalue
    rw [Binary.lt_iff_value_lt hnan (Binary.zero_ne_nan _), Binary.value_zero,
      Binary.le_iff_value_le hrounding.ne_nan hnan, hvalue, not_lt, not_le]
    refine ⟨⟨hfinite, Nat.cast_nonneg batch⟩, lt_of_le_of_ne ?_ hne⟩
    rw [← hvalue]
    refine hrounding.le_value hnan ?_
    rw [hvalue]
    exact_mod_cast hlt.le

/-- The number of a batch leaves the format unchanged. -/
theorem Selects.clampToInt_eq {e : Extents} {index : Single} {batch : Nat}
    (h : e.Selects index batch) (hbatches : e.batches ≤ addressable) :
    (index.round.clampToInt 0 0xFFFFFFFFFFFFFFFF).toNat = batch := by
  obtain ⟨hfinite, hvalue⟩ := Single.value_round h.isFinite
  have hlt := h.lt_batches
  unfold addressable at hbatches
  rw [Single.clampToInt_eq hfinite hvalue (by rw [h.nearest]; omega) (by rw [h.nearest]; omega),
    h.nearest, Int.toNat_natCast]

/-- An accepted index stands for a batch, and is turned into the number of this batch. -/
theorem exists_batch_of_isBatch {e : Extents} {index : Single} (h : e.isBatch index = true)
    (hbatches : e.batches ≤ addressable) :
    ∃ n : Nat, n < e.batches ∧ index.round.value = n ∧
      (index.round.clampToInt 0 0xFFFFFFFFFFFFFFFF).toNat = n := by
  obtain ⟨batch, hselects, -⟩ := isBatch_iff.mp h
  refine ⟨batch, hselects.lt_batches, ?_, hselects.clampToInt_eq hbatches⟩
  rw [(Single.value_round hselects.isFinite).2, hselects.nearest, Int.cast_natCast]

/-- The check of the batch indices accepts only existing batches. -/
theorem isBatch_of_checkBatchIndices {e : Extents} {regions : Array Single}
    (h : e.checkBatchIndices regions = .ok ()) (hindex : e.hasBatchIndex = true) {region : Nat}
    (hregion : region < e.regions) : e.isBatch (e.entry regions region 0) = true := by
  rw [checkBatchIndices, if_pos hindex] at h
  have hone := forM_eq_ok_iff.mp h region (List.mem_range.mpr hregion)
  by_contra hnot
  rw [Bool.not_eq_true] at hnot
  change (if (!e.isBatch (e.entry regions region 0)) = true then _ else _) = _ at hone
  rw [hnot, Bool.not_false, if_pos rfl] at hone
  cases hone

/-- Existing batches pass the check of the batch indices. -/
theorem checkBatchIndices_eq_ok_of {e : Extents} {regions : Array Single}
    (h : e.hasBatchIndex = true → ∀ region < e.regions,
      e.isBatch (e.entry regions region 0) = true) : e.checkBatchIndices regions = .ok () := by
  unfold checkBatchIndices
  split
  · rename_i hindex
    refine forM_eq_ok_iff.mpr fun region hregion => ?_
    dsimp only
    rw [h hindex region (List.mem_range.mp hregion)]
    rfl
  · rfl

theorem Fits.batches_lt {e : Extents} {input regions output : View}
    (h : e.Fits input regions output) : e.batches < addressable := by
  have hlt := h.input_product_lt (Nat.le_max_right 1 e.batches) (Nat.le_max_left 1 e.height)
    (Nat.le_max_left 1 e.width) (Nat.le_max_left 1 e.depth)
  simpa using hlt

end Extents

/-- After the checks of a run every region selects an existing batch. -/
theorem Job.batchOf_lt {job : Job} {output : Array Single} {e : Extents}
    (h : job.check output = .ok e) {region : Nat} (hregion : region < e.regions) :
    job.batchOf e region < e.batches := by
  have hfits := Job.fits_of_check h
  unfold Job.batchOf
  by_cases hindex : e.hasBatchIndex = true
  · rw [if_pos hindex]
    obtain ⟨n, hlt, -, hn⟩ := Extents.exists_batch_of_isBatch
      (Extents.isBatch_of_checkBatchIndices (Job.check_eq_ok_iff.mp h).2 hindex hregion)
      (Nat.le_of_lt hfits.batches_lt)
    rw [hn]
    exact hlt
  · rw [if_neg hindex]
    exact hfits.batches_pos

end RegionPooling
