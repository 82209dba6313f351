import RegionPooling.Binary.Arithmetic

/-!
# Sampling along one axis

A region covers an interval of each axis of the feature map. The interval is cut into equal
bins, one for each cell of the pooled grid, and in each bin samples are taken at equal
distances. `Axis` holds these distances, `Axis.bounds` gives the interval of a bin, and
`walk` lists the sample positions in it.

Positions are added up in four-byte numbers. A step too small to change the position ends
the walk, so every walk is finite: the positions ascend, and there are only so many numbers.
-/

namespace RegionPooling

/-- The layout of bins and samples along one axis. -/
structure Axis where
  /-- Where the region begins. -/
  start : Single
  /-- The width of a bin. -/
  step : Single
  /-- The number of samples meant to lie in a bin. -/
  ratio : Int
  /-- The distance of neighbouring samples. -/
  bin : Single
  deriving DecidableEq

namespace Axis

/--
The layout for a region from `start` to `stop` cut into `bins`. The region is taken to be at
least one pixel long. A ratio that is not positive stands for one sample per pixel.
-/
def ofRegion (start stop : Single) (bins : Nat) (samplingRatio : Int32) : Axis :=
  -- An inverted region and one without a size have this extent too.
  let extent := (stop - start).max (Binary.ofNat 1)
  let step := extent / Binary.ofNat bins
  let ratio :=
    if 0 < samplingRatio then samplingRatio.toInt
    else step.ceil.clampToInt (-0x80000000) 0x7FFFFFFF
  { start, step, ratio, bin := step / Binary.ofInt ratio }

/-- Where a bin begins. -/
def edge (a : Axis) (index : Nat) : Single := a.step * Binary.ofNat index + a.start

/-- Where a bin begins and where it ends. -/
def bounds (a : Axis) (index : Nat) : Single × Single := (a.edge index, a.edge (index + 1))

end Axis

/-! ## Walks -/

/-- How many numbers lie above a position. -/
def above (position : Single) : Nat :=
  ((Format.single.infinityIndex : Int) - position.place.getD 0).toNat

theorem Binary.place_le {f : Format} {x : Binary f} {p : Int} (h : x.place = some p) :
    p ≤ f.infinityIndex := by
  cases x with
  | nan => cases h
  | number negative index index_le =>
    simp only [Binary.place, Option.some.injEq] at h
    split at h <;> omega

theorem Binary.place_lt_of_lt {f : Format} {x y : Binary f} (h : x < y) :
    ∃ p q, x.place = some p ∧ y.place = some q ∧ p < q := by
  have h : Binary.lt x y = true := h
  unfold Binary.lt Binary.compareWith at h
  split at h
  · exact ⟨_, _, by assumption, by assumption, by simpa using h⟩
  · cases h

theorem above_lt_of_lt {x y : Single} (h : x < y) : above y < above x := by
  obtain ⟨p, q, hp, hq, hlt⟩ := Binary.place_lt_of_lt h
  have := Binary.place_le hq
  simp only [above, hp, hq, Option.getD_some]
  omega

/-- The positions from `position` on in steps of `step`, as long as they ascend below `stop`. -/
def walkFrom (stop step position : Single) : List Single :=
  if position < stop then
    let next := position + step
    -- A step that is lost in rounding, or does not lead up, ends the walk here.
    position :: if position < next then walkFrom stop step next else []
  else []
termination_by above position
decreasing_by exact above_lt_of_lt (by assumption)

/-- The first sample position of an interval: half a step in. -/
def firstPosition (start step : Single) : Single := start + step / Binary.ofNat 2

/-- The sample positions between `start` and `stop`: half a step in, then step by step. -/
def walk (start stop step : Single) : List Single :=
  walkFrom stop step (firstPosition start step)

/-- Visits the positions of `walkFrom` in order, without listing them. -/
def foldWalkFrom {α : Type} (visit : α → Single → α) (stop step position : Single)
    (result : α) : α :=
  if position < stop then
    let next := position + step
    if position < next then foldWalkFrom visit stop step next (visit result position)
    else visit result position
  else result
termination_by above position
decreasing_by exact above_lt_of_lt (by assumption)

/-- Visits the positions of `walk` in order. -/
def foldWalk {α : Type} (visit : α → Single → α) (start stop step : Single) (result : α) : α :=
  foldWalkFrom visit stop step (firstPosition start step) result

theorem foldWalkFrom_eq {α : Type} (visit : α → Single → α) (stop step position : Single)
    (result : α) :
    foldWalkFrom visit stop step position result =
      (walkFrom stop step position).foldl visit result := by
  fun_induction foldWalkFrom visit stop step position result with
  | case1 position result h next hnext ih =>
    rw [walkFrom, if_pos h, ih]
    simp only [List.foldl_cons, if_pos hnext, next]
  | case2 position result h next hnext =>
    rw [walkFrom, if_pos h]
    simp only [List.foldl_cons, if_neg hnext, List.foldl_nil, next]
  | case3 position result h => rw [walkFrom, if_neg h, List.foldl_nil]

theorem foldWalk_eq {α : Type} (visit : α → Single → α) (start stop step : Single) (result : α) :
    foldWalk visit start stop step result = (walk start stop step).foldl visit result :=
  foldWalkFrom_eq ..

end RegionPooling
