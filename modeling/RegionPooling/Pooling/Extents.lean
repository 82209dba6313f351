import RegionPooling.Shape

/-!
# Extents of a pooling run

A run reads a feature map `[batches, height, width, depth]` and region records
`[regions, 4 or 5]`, and writes pooled maps `[regions, rows, columns, depth]`. The caller
hands over buffers together with shapes. `Extents.resolve` checks that everything fits and
collects the sizes; `Extents.checkBatchIndices` checks the one thing in the records that can
lead out of the feature map.
-/

namespace RegionPooling

/-- A buffer and the shape that it is said to have. -/
structure View where
  shape : Shape
  data : Array Single

/-- The number of coordinates of a region. -/
def boxLength : UInt32 := 4

/-- The length of a record that begins with a batch index. -/
def batchedLength : UInt32 := boxLength + 1

/-- The sizes of one run. -/
structure Extents where
  batches : Nat
  height : Nat
  width : Nat
  depth : Nat
  rows : Nat
  columns : Nat
  regions : Nat
  recordLength : Nat
  deriving DecidableEq

namespace Extents

/-! ## Checks -/

/-- Checks the length of the region records. -/
def checkRecordLength (length : UInt32) : Except Error Unit :=
  if length = boxLength ∨ length = batchedLength then .ok () else .error (.wrongRecordLength length)

/-- Checks that the feature map has batches, rows and columns. -/
def checkNotEmpty (input : Shape) : Except Error Unit :=
  [0, 1, 2].forM fun axis => do
    if (← input.size axis) = 0 then throw (.emptyDimension "input" axis)

/-- Checks one dimension of a shape. -/
def checkDimension (what : String) (expected : UInt32) (s : Shape) (axis : Nat) :
    Except Error Unit := do
  let actual ← s.size axis
  if actual ≠ expected then throw (.dimensionMismatch what expected actual)

/-- Checks that a buffer has as many elements as its shape. -/
def checkBuffer (tensor : String) (v : View) : Except Error Unit := do
  let expected ← v.shape.count
  if v.data.size ≠ expected then throw (.bufferSizeMismatch tensor expected v.data.size)

/-- The sizes of a run, if shapes and buffers fit. -/
def resolve (input regions output : View) : Except Error Extents := do
  input.shape.expectRank "input" 4
  regions.shape.expectRank "roi" 2
  output.shape.expectRank "output" 4
  let recordLength ← regions.shape.size 1
  checkRecordLength recordLength
  checkNotEmpty input.shape
  let count ← regions.shape.size 0
  let depth ← input.shape.size 3
  checkDimension "output batch (number of ROIs)" count output.shape 0
  checkDimension "output depth" depth output.shape 3
  checkBuffer "input" input
  checkBuffer "roi" regions
  checkBuffer "output" output
  return {
    batches := (← input.shape.size 0).toNat
    height := (← input.shape.size 1).toNat
    width := (← input.shape.size 2).toNat
    depth := depth.toNat
    rows := (← output.shape.size 1).toNat
    columns := (← output.shape.size 2).toNat
    regions := count.toNat
    recordLength := recordLength.toNat }

/-! ## Sizes of parts -/

/-- The number of elements of one batch of the feature map. -/
def batchSize (e : Extents) : Nat := e.height * e.width * e.depth

/-- The number of elements of one pooled map. -/
def slabSize (e : Extents) : Nat := e.rows * e.columns * e.depth

/-- Whether the records begin with a batch index. -/
def hasBatchIndex (e : Extents) : Bool := e.recordLength == batchedLength.toNat

/-! ## Records -/

/-- An entry of a record. -/
def entry (e : Extents) (regions : Array Single) (region place : Nat) : Single :=
  regions.getD (region * e.recordLength + place) (.zero false)

/-- Whether a batch index, rounded, is one of the batches. -/
def isBatch (e : Extents) (index : Single) : Bool :=
  let rounded := index.round
  rounded.isFinite && !decide (rounded < .zero false)
    && !decide ((Binary.ofNat e.batches : Single) ≤ rounded)

/-- Checks the batch indices of all records, if they have any. -/
def checkBatchIndices (e : Extents) (regions : Array Single) : Except Error Unit :=
  if e.hasBatchIndex then
    (List.range e.regions).forM fun region => do
      let index := e.entry regions region 0
      if !e.isBatch index then
        throw (.batchIndexOutOfRange region index (UInt32.ofNat e.batches))
  else .ok ()

end Extents

end RegionPooling
