import RegionPooling.Pooling.Axis
import RegionPooling.Pooling.Corners
import RegionPooling.Pooling.Extents

/-!
# Pooling one region

The pooled map of a region has a cell for each pair of bins, and a cell has a number for
each channel: the mean of the interpolated values at the samples in the two bins. Samples
are added up row by row, and the sum is divided by the number of samples that the ratios of
the axes announce.
-/

namespace RegionPooling

/-- How the coordinates of regions are to be read and sampled. -/
structure Sampling where
  /-- From coordinates of regions to pixels. -/
  spatialScale : Single
  /-- Samples per bin along each axis; not positive for one per pixel. -/
  samplingRatio : Int32

/-- A region in pixels: where it lies in the buffer and how its axes are sampled. -/
structure Region where
  /-- The place of the first pixel of its batch. -/
  base : Nat
  vertical : Axis
  horizontal : Axis
  deriving DecidableEq

namespace Region

/-- The region of a record. -/
def ofRecord (e : Extents) (s : Sampling) (regions : Array Single) (region : Nat) : Region :=
  -- The coordinates follow the batch index, where there is one.
  let first := if e.hasBatchIndex then 1 else 0
  let coordinate (place : Nat) : Single :=
    e.entry regions region (first + place) * s.spatialScale
  let batch :=
    if e.hasBatchIndex then ((e.entry regions region 0).round.clampToInt 0 0xFFFFFFFFFFFFFFFF).toNat
    else 0
  { base := batch * e.batchSize
    vertical := .ofRegion (coordinate 1) (coordinate 3) e.rows s.samplingRatio
    horizontal := .ofRegion (coordinate 0) (coordinate 2) e.columns s.samplingRatio }

/-- The number of samples in a cell, as announced by the ratios. -/
def samples (r : Region) : Single := Binary.ofInt (r.horizontal.ratio * r.vertical.ratio)

/-- The corners at the samples of one bin, in the order of the walk. -/
def binCorners (a : Axis) (length index : Nat) : Array Corners :=
  let (start, stop) := a.bounds index
  foldWalk (fun corners position => corners.push (.around position length)) start stop a.bin #[]

/-- Adds the interpolated values of a sample to the sums of the channels. -/
def addSample (input : Array Single) (sums : Array Single) (s : Sample) : Array Single :=
  sums.mapIdx fun channel sum => sum + s.value input channel

/-- The sums of the channels over all samples of a cell, row by row. -/
def cellSums (e : Extents) (input : Array Single) (r : Region) (row column : Nat) :
    Array Single :=
  let xs := binCorners r.horizontal e.width column
  (binCorners r.vertical e.height row).foldl
    (fun sums y => xs.foldl
      (fun sums x => addSample input sums (.ofCorners r.base (e.width * e.depth) e.depth y x))
      sums)
    (Array.replicate e.depth (.zero false))

/-- The numbers of a cell, one for each channel. -/
def cell (e : Extents) (input : Array Single) (r : Region) (row column : Nat) : Array Single :=
  (cellSums e input r row column).map (· / r.samples)

/-- The pooled map, cell after cell in row-major order. -/
def slab (e : Extents) (input : Array Single) (r : Region) : List Single :=
  (List.range (e.rows * e.columns)).flatMap fun place =>
    (cell e input r (place / e.columns) (place % e.columns)).toList

/-! ## The samples of a bin -/

theorem toList_binCorners (a : Axis) (length index : Nat) :
    (binCorners a length index).toList =
      (walk (a.bounds index).1 (a.bounds index).2 a.bin).map (.around · length) := by
  simp [binCorners, foldWalk_eq]

end Region

end RegionPooling
