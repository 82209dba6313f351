import RegionPooling.Proofs.Pooling.Decomposition

/-!
# Which batch a record selects

A record with a batch index is pooled from one batch of the feature map, and a run is refused at
the first record that selects none. `Extents.Selects` says which batch an index stands for,
without any four-byte arithmetic: the nearest whole number, if it counts a batch.

The check agrees with it except for one number. The count of the batches is compared as a
four-byte number, and above `2 ^ 24` that may be a smaller one, `Extents.limit`. The batch of this
number exists, and the check refuses it.

Main results:

* `Extents.checkBatchIndices_eq_ok_iff`, `Extents.checkBatchIndices_eq_error_iff` — what the check
  accepts, and what it reports.
* `Extents.accepts_iff` — up to `2 ^ 24` batches, every index that selects one is accepted.
* `Job.pooledMap_of_selects` — a region is pooled from the batch that its record selects.
* `Job.check_accepts_selecting` — all of this for one list of records.
-/

namespace RegionPooling

namespace Extents

variable {e : Extents} {regions : Array Single}

/-- The index of a record stands for a batch, and the check does not refuse it. -/
def Accepts (e : Extents) (index : Single) : Prop :=
  ∃ batch : Nat, e.Selects index batch ∧ (batch : ℚ) ≠ e.limit

theorem hasBatchIndex_of_recordLength (h : e.recordLength = 5) : e.hasBatchIndex = true := by
  rw [hasBatchIndex, h]
  rfl

/-- Only one batch is selected. -/
theorem Selects.unique {index : Single} {batch other : Nat} (h : e.Selects index batch)
    (hother : e.Selects index other) : batch = other := by
  exact_mod_cast h.nearest.symm.trans hother.nearest

/-- The number of a batch, where four bytes hold it, selects this batch. -/
theorem selects_ofNat {batch : Nat} (hbatch : batch ≤ 2 ^ 24) (hlt : batch < e.batches) :
    e.Selects (Binary.ofNat batch) batch := by
  obtain ⟨hfinite, hvalue⟩ := Single.ofNat_exact hbatch
  refine ⟨hfinite, ?_, hlt⟩
  rw [hvalue, ← Int.cast_natCast, nearestInt_intCast]

/-- Small counts are four-byte numbers themselves, so no batch has the number of the limit. -/
theorem accepts_iff (h : e.batches ≤ 2 ^ 24) {index : Single} :
    e.Accepts index ↔ ∃ batch : Nat, e.Selects index batch := by
  refine exists_congr fun batch => and_iff_left_of_imp fun hselects => ?_
  rw [limit, (Single.ofNat_exact h).2]
  exact_mod_cast hselects.lt_batches.ne

/-- The check of one record. -/
theorem checkBatchIndices_eq_forM (h : e.recordLength = 5) :
    e.checkBatchIndices regions = (List.range e.regions).forM fun region =>
      if !e.isBatch (e.entry regions region 0) then
        .error (.batchIndexOutOfRange region (e.entry regions region 0) (UInt32.ofNat e.batches))
      else .ok () := by
  rw [checkBatchIndices, if_pos (hasBatchIndex_of_recordLength h)]
  rfl

theorem checkBatchIndices_eq_ok_iff (h : e.recordLength = 5) :
    e.checkBatchIndices regions = .ok () ↔
      ∀ region < e.regions, e.Accepts (e.entry regions region 0) := by
  rw [checkBatchIndices_eq_forM h, forM_eq_ok_iff]
  refine forall_congr' fun region => ?_
  rw [List.mem_range, Accepts, ← isBatch_iff]
  cases e.isBatch (e.entry regions region 0) <;> simp

/-- The check reports the first record that selects no batch. -/
theorem checkBatchIndices_eq_error_iff (h : e.recordLength = 5) {error : Error} :
    e.checkBatchIndices regions = .error error ↔ ∃ region < e.regions,
      (∀ earlier < region, e.Accepts (e.entry regions earlier 0)) ∧
      ¬ e.Accepts (e.entry regions region 0) ∧
      error = .batchIndexOutOfRange region (e.entry regions region 0) (UInt32.ofNat e.batches) := by
  rw [checkBatchIndices_eq_forM h, forM_range_eq_error_iff]
  refine exists_congr fun region => and_congr_right fun _ => and_congr ?_ ?_
  · refine forall₂_congr fun earlier _ => ?_
    rw [Accepts, ← isBatch_iff]
    cases e.isBatch (e.entry regions earlier 0) <;> simp
  · rw [Accepts, ← isBatch_iff]
    cases e.isBatch (e.entry regions region 0) <;> simp [eq_comm]

end Extents

namespace Job

variable {job : Job} {output : Array Single} {e : Extents} {region batch : Nat}

theorem batchOf_eq_of_selects (hlength : e.recordLength = 5) (hbatches : e.batches < 2 ^ 32)
    (h : e.Selects (e.entry job.regions.data region 0) batch) : job.batchOf e region = batch := by
  rw [batchOf, if_pos (Extents.hasBatchIndex_of_recordLength hlength)]
  exact h.clampToInt_eq (by unfold addressable; omega)

/-- What a region is pooled from lies in the batch that its record selects. -/
theorem pooledMap_of_selects (hcheck : job.check output = .ok e) (hregion : region < e.regions)
    (hbatch : job.batchOf e region = batch) {data : Array Single}
    (hsize : data.size = job.input.data.size)
    (hsame : ∀ place, batch * e.batchSize ≤ place → place < (batch + 1) * e.batchSize →
      data[place]? = job.input.data[place]?) :
    pooledMap e ((job.withMap data).align output).2 region =
      pooledMap e (job.align output).2 region := by
  have hother : (job.withMap data).check output = .ok e := check_withMap job output hsize ▸ hcheck
  subst hbatch
  exact pooledMap_eq_of_alike hother hcheck hregion hregion (alike_withMap hsame)

/--
The check of the batch indices, for any list of records with one. It accepts the list if each
index selects a batch other than the limit, and otherwise reports the first record that does
not. Up to `2 ^ 24` batches the limit excludes none. An accepted record is pooled from exactly
the batch that it selects: there its pixels begin, and no number of another batch matters.
-/
theorem check_accepts_selecting (job : Job) (e : Extents) (hlength : e.recordLength = 5)
    (hbatches : e.batches < 2 ^ 32) :
    (e.checkBatchIndices job.regions.data = .ok () ↔
      ∀ region < e.regions, e.Accepts (e.entry job.regions.data region 0)) ∧
    (∀ error, e.checkBatchIndices job.regions.data = .error error ↔
      ∃ region < e.regions,
        (∀ earlier < region, e.Accepts (e.entry job.regions.data earlier 0)) ∧
        ¬ e.Accepts (e.entry job.regions.data region 0) ∧
        ∃ count : UInt32, count.toNat = e.batches ∧
          error = .batchIndexOutOfRange region (e.entry job.regions.data region 0) count) ∧
    (e.batches ≤ 2 ^ 24 → ∀ index, e.Accepts index ↔ ∃ batch : Nat, e.Selects index batch) ∧
    ∀ region batch, e.Selects (e.entry job.regions.data region 0) batch →
      (job.region e region).base = batch * e.batchSize ∧
      ∀ output, job.check output = .ok e → region < e.regions →
        ∀ data : Array Single, data.size = job.input.data.size →
          (∀ place, batch * e.batchSize ≤ place → place < (batch + 1) * e.batchSize →
            data[place]? = job.input.data[place]?) →
          pooledMap e ((job.withMap data).align output).2 region =
            pooledMap e (job.align output).2 region := by
  have hcount : (UInt32.ofNat e.batches).toNat = e.batches := UInt32.toNat_ofNat_of_lt' hbatches
  refine ⟨Extents.checkBatchIndices_eq_ok_iff hlength, fun error => ?_,
    fun h _ => Extents.accepts_iff h, fun region batch hselects => ?_⟩
  · rw [Extents.checkBatchIndices_eq_error_iff hlength]
    refine exists_congr fun region => and_congr_right fun _ => and_congr_right fun _ =>
      and_congr_right fun _ => ⟨fun h => ⟨_, hcount, h⟩, ?_⟩
    rintro ⟨count, hcount', rfl⟩
    rw [← hcount', UInt32.ofNat_toNat]
  · have hbatch : job.batchOf e region = batch := batchOf_eq_of_selects hlength hbatches hselects
    refine ⟨?_, fun output hcheck hregion data hsize hsame =>
      pooledMap_of_selects hcheck hregion hbatch hsize hsame⟩
    rw [region_base, hbatch]

/-- Both records of `halves` select a batch, and the first one is pooled from the second batch. -/
theorem halves_accepts_selecting :
    halvesExtents.recordLength = 5 ∧ halvesExtents.batches < 2 ^ 32 ∧
      halvesExtents.checkBatchIndices halves.regions.data = .ok () ∧
      (halves.region halvesExtents 0).base = 1 * 8 := by
  have hlength : halvesExtents.recordLength = 5 := rfl
  have hbatches : halvesExtents.batches < 2 ^ 32 := by decide
  obtain ⟨hok, -, hsmall, hslice⟩ := check_accepts_selecting halves halvesExtents hlength hbatches
  have hfirst : halvesExtents.Selects (halvesExtents.entry halves.regions.data 0 0) 1 :=
    Extents.selects_ofNat (by decide) (by decide)
  have hsecond : halvesExtents.Selects (halvesExtents.entry halves.regions.data 1 0) 0 :=
    Extents.selects_ofNat (by decide) (by decide)
  refine ⟨hlength, hbatches, hok.mpr fun region hregion => ?_, (hslice 0 1 hfirst).1⟩
  rw [hsmall (by decide)]
  obtain rfl | rfl : region = 0 ∨ region = 1 := by
    have : region < 2 := hregion
    omega
  · exact ⟨1, hfirst⟩
  · exact ⟨0, hsecond⟩

/-- A map of one batch more than four-byte numbers can count, without channels, and a record on
its last batch. -/
def lastOfMany : Job where
  input := ⟨⟨[16777217, 1, 1, 0]⟩, #[]⟩
  regions := ⟨⟨[1, 5]⟩, ([16777216, 0, 0, 1, 1].map Binary.ofNat).toArray⟩
  sampling := ⟨Binary.ofNat 1, 1⟩
  output := ⟨[1, 1, 1, 0]⟩

/-- The sizes of the run on the last batch. -/
def lastOfManyExtents : Extents where
  batches := 16777217
  height := 1
  width := 1
  depth := 0
  rows := 1
  columns := 1
  regions := 1
  recordLength := 5

/-- The count of the batches is rounded down to the index of the last one, which is refused. -/
theorem lastOfMany_refused :
    lastOfManyExtents.Selects (lastOfManyExtents.entry lastOfMany.regions.data 0 0) 16777216 ∧
      Extents.resolve lastOfMany.input lastOfMany.regions ⟨lastOfMany.output, #[]⟩ =
        .ok lastOfManyExtents ∧
      (lastOfMany.align #[]).1 =
        .error (.batchIndexOutOfRange 0 (Binary.ofNat 16777216) 16777217) := by
  have hselects : lastOfManyExtents.Selects
      (lastOfManyExtents.entry lastOfMany.regions.data 0 0) 16777216 :=
    Extents.selects_ofNat (by decide) (by decide)
  have hlimit : lastOfManyExtents.limit = 16777216 := by
    have hcount : (Binary.ofNat 16777217 : Single) = Binary.ofNat 16777216 := by decide +kernel
    rw [Extents.limit, show lastOfManyExtents.batches = 16777217 from rfl, hcount,
      (Single.ofNat_exact (by decide)).2]
    rfl
  have hresolve : Extents.resolve lastOfMany.input lastOfMany.regions ⟨lastOfMany.output, #[]⟩ =
      .ok lastOfManyExtents := rfl
  have hrefused : lastOfManyExtents.checkBatchIndices lastOfMany.regions.data =
      .error (.batchIndexOutOfRange 0 (Binary.ofNat 16777216) 16777217) := by
    refine (Extents.checkBatchIndices_eq_error_iff rfl).mpr
      ⟨0, by decide, fun _ h => absurd h (Nat.not_lt_zero _), ?_, rfl⟩
    rintro ⟨batch, hbatch, hne⟩
    rw [hbatch.unique hselects, hlimit] at hne
    exact hne rfl
  have hcheck : lastOfMany.check #[] =
      .error (.batchIndexOutOfRange 0 (Binary.ofNat 16777216) 16777217) :=
    bind_eq_error.mpr (.inr ⟨_, hresolve, bind_eq_error.mpr (.inl hrefused)⟩)
  refine ⟨hselects, hresolve, ?_⟩
  rw [align, alignIn, hcheck]

end Job

end RegionPooling
