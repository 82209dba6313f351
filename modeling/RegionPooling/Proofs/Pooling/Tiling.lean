import RegionPooling.Proofs.Pooling.Walk

/-!
# Bins tile their axis

The edges of the bins are computed one by one, each by a rounded product and a rounded sum, and
the positions within a bin by adding up from its beginning. Nothing is shared between two bins but
the edge, and this is enough: rounding keeps the edges in order, and the positions of a bin lie
between its edges. So no position is taken twice, and the positions of all bins ascend.

With an infinite step or an infinite start some edges are no numbers. No order is known of them,
but a bin with such an edge has no positions.

Main results:

* `pairwise_walk` — the positions of one bin ascend.
* `Axis.edge_value_le` — the edges that are numbers are in order.
* `Axis.bins_tile` — the positions of all bins ascend.
-/

namespace RegionPooling

/-! ## One bin -/

theorem pairwise_walkFrom (stop step position : Single) :
    (walkFrom stop step position).Pairwise (· < ·) := by
  fun_induction walkFrom stop step position with
  | case1 position hlt next ih =>
    refine List.pairwise_cons.mpr ⟨?_, ?_⟩
    · intro p hp
      by_cases hnext : position < next
      · rw [if_pos hnext] at hp
        -- The rest of the walk begins at the next position and does not fall behind it.
        obtain ⟨hnextNan, hle⟩ := le_of_mem_walkFrom hp
        have hnan : position ≠ .nan := by
          rintro rfl
          exact Binary.not_nan_lt _ hlt
        have hpnan : p ≠ .nan := by
          rintro rfl
          exact Binary.not_nan_lt _ (lt_of_mem_walkFrom hp)
        rw [Binary.lt_iff_value_lt hnan hnextNan] at hnext
        exact (Binary.lt_iff_value_lt hnan hpnan).mpr (hnext.trans_le hle)
      · rw [if_neg hnext] at hp
        exact absurd hp List.not_mem_nil
    · by_cases hnext : position < next
      · rw [if_pos hnext]
        exact ih hnext
      · rw [if_neg hnext]
        exact List.Pairwise.nil
  | case2 position hlt => exact List.Pairwise.nil

theorem pairwise_walk (start stop step : Single) : (walk start stop step).Pairwise (· < ·) :=
  pairwise_walkFrom ..

namespace Axis

/-! ## All bins -/

/-- The sample positions of a bin, as `Region.binCorners` goes through them. -/
def positions (a : Axis) (index : Nat) : List Single :=
  walk (a.bounds index).1 (a.bounds index).2 a.bin

variable {a : Axis} {bins index later : Nat}

/-- An edge that is a number is not behind a later one. The number of a bin may be rounded as it
becomes a number of four bytes, and the product with the step and the sum with the start once more;
all three keep the order. -/
theorem edge_value_le (hstep : IsStep a.step) (hindex : index ≤ later) (hlater : later < 2 ^ 64)
    (hnan : a.edge index ≠ .nan) (hnan' : a.edge later ≠ .nan) :
    (a.edge index).value ≤ (a.edge later).value := by
  have hfinite {n : Nat} (hn : n ≤ later) : (Binary.ofNat n : Single).isFinite = true :=
    Single.ofNat_isFinite (by omega)
  have hindexRounding := Binary.isRounding_ofNat (f := .single) index
  have hmono : (Binary.ofNat index : Single).value ≤ (Binary.ofNat later : Single).value :=
    hindexRounding.mono (Binary.isRounding_ofNat later) (Nat.cast_le.mpr hindex)
  have hproduct := Binary.mul_value_le hstep.nonneg (hfinite hindex) (hfinite (le_refl later))
    (Binary.ne_nan_of_add hnan).1 (Binary.ne_nan_of_add hnan').1
    (hindexRounding.value_nonneg (Nat.cast_nonneg index)) hmono
  exact Binary.add_value_le hnan hnan' hproduct (le_refl a.start.value)

/-- The positions of a bin lie before those of any later one: before its own end, which is no later
than the beginning of the other one. -/
theorem lt_of_mem_positions (hstep : IsStep a.step) (hbin : IsStep a.bin) (hindex : index < later)
    (hlater : later < 2 ^ 64) {p q : Single} (hp : p ∈ a.positions index)
    (hq : q ∈ a.positions later) : p < q := by
  have hbefore := InInterval.of_mem_walk hbin hp
  have hbehind := InInterval.of_mem_walk hbin hq
  have hedge : (a.edge (index + 1)).value ≤ (a.edge later).value :=
    edge_value_le hstep hindex hlater hbefore.stop_ne_nan hbehind.start_ne_nan
  rw [Binary.lt_iff_value_lt hbefore.ne_nan hbehind.ne_nan]
  calc p.value < (a.edge (index + 1)).value := hbefore.lt_stop
    _ ≤ (a.edge later).value := hedge
    _ ≤ q.value := hbehind.start_le

/--
The bins of an axis follow one another without a gap: each of them ends where the next one begins,
bit for bit. The sample positions of a bin lie from its beginning on and before its end, and those
of all bins, one bin after the other, ascend strictly. This holds of any two ends of a region, also
of infinite ones and of ones that are no numbers.
-/
theorem bins_tile (start stop : Single) {bins : Nat} (hbins : 0 < bins) (hlt : bins < addressable)
    (samplingRatio : Int32) :
    let a := ofRegion start stop bins samplingRatio
    (∀ index, (a.bounds index).2 = (a.bounds (index + 1)).1) ∧
      (∀ index, ∀ p ∈ a.positions index, (a.bounds index).1 ≤ p ∧ p < (a.bounds index).2) ∧
      ((List.range bins).flatMap a.positions).Pairwise (· < ·) := by
  intro a
  have hstep : IsStep a.step := isStep_step start stop hbins hlt samplingRatio
  have hbin : IsStep a.bin := isStep_bin start stop hbins hlt samplingRatio
  refine ⟨fun index => rfl, ?_, ?_⟩
  · intro index p hp
    have hinterval := InInterval.of_mem_walk hbin hp
    exact ⟨(Binary.le_iff_value_le hinterval.start_ne_nan hinterval.ne_nan).mpr hinterval.start_le,
      lt_of_mem_walk hp⟩
  · rw [List.pairwise_flatMap]
    refine ⟨fun index _ => pairwise_walk .., ?_⟩
    -- Any two different bins are an earlier and a later one of the grid.
    refine List.pairwise_lt_range.imp_of_mem ?_
    intro index later _ hlater hindex p hp q hq
    have hlater : later < 2 ^ 64 := (List.mem_range.mp hlater).trans hlt
    exact lt_of_mem_positions hstep hbin hindex hlater hp hq

/-- At `2 ^ 24` the neighbours of a number are two apart, while the bins are one and a half wide;
the edges are rounded to `2 ^ 24`, `2 ^ 24 + 2`, `2 ^ 24 + 4` (twice) and `2 ^ 24 + 6`. -/
theorem narrowBins_tile :
    let a := ofRegion (Binary.ofNat 16777216) (Binary.ofNat 16777222) 4 1
    0 < 4 ∧ 4 < addressable ∧
      (∀ index, (a.bounds index).2 = (a.bounds (index + 1)).1) ∧
      (∀ index, ∀ p ∈ a.positions index, (a.bounds index).1 ≤ p ∧ p < (a.bounds index).2) ∧
      ((List.range 4).flatMap a.positions).Pairwise (· < ·) := by
  intro a
  have hbins : 0 < 4 := by decide
  have hlt : 4 < addressable := by decide
  exact ⟨hbins, hlt, bins_tile (Binary.ofNat 16777216) (Binary.ofNat 16777222) hbins hlt 1⟩

end Axis

end RegionPooling
