import RegionPooling.Proofs.Pooling.Batches

/-!
# A run that checks every address

The definitions of a run compute addresses with natural numbers and read buffers with a
default, so they cannot go wrong. This module repeats the run with addresses as a machine has
them: a sum or a product that is no address, a difference below zero, a division by zero, a
part or an element outside of its buffer each end the run without a result. Buffers are cut
into parts the way the run goes through them: the records and the pooled maps side by side,
in each pooled map the cells, in the feature map the batch, and in the batch the four pixels
of a sample.

The checked run is the run (`Checked.align_eq`): no check ever fails, for whatever shapes,
buffers and numbers.
-/

namespace RegionPooling

namespace Checked

/-! ## Addresses -/

def sum (a b : Nat) : Option Nat := if a + b < addressable then some (a + b) else none

def product (a b : Nat) : Option Nat := Shape.checkedProduct a b

def difference (a b : Nat) : Option Nat := if b ≤ a then some (a - b) else none

def quotient (a b : Nat) : Option Nat := if b = 0 then none else some (a / b)

def remainder (a b : Nat) : Option Nat := if b = 0 then none else some (a % b)

theorem sum_eq {a b : Nat} (h : a + b < addressable) : sum a b = some (a + b) := if_pos h

theorem product_eq {a b : Nat} (h : a * b < addressable) : product a b = some (a * b) := if_pos h

theorem difference_eq {a b : Nat} (h : b ≤ a) : difference a b = some (a - b) := if_pos h

theorem quotient_eq {a b : Nat} (h : 0 < b) : quotient a b = some (a / b) := if_neg h.ne'

theorem remainder_eq {a b : Nat} (h : 0 < b) : remainder a b = some (a % b) := if_neg h.ne'

/-! ## Parts of buffers -/

/-- The part of a buffer from one place to another. -/
def part (buffer : Array Single) (start stop : Nat) : Option (Array Single) :=
  if start ≤ stop ∧ stop ≤ buffer.size then some (buffer.extract start stop) else none

/-- The parts of one size that a buffer has, with their numbers; a rest is left out. -/
def chunks (buffer : Array Single) (size : Nat) : Option (List (Nat × Array Single)) :=
  if size = 0 then none
  else some ((List.range (buffer.size / size)).map fun index =>
    (index, buffer.extract (index * size) ((index + 1) * size)))

theorem part_eq {buffer : Array Single} {start stop : Nat} (h : start ≤ stop)
    (hsize : stop ≤ buffer.size) : part buffer start stop = some (buffer.extract start stop) :=
  if_pos ⟨h, hsize⟩

/-- A buffer of parts of one size is cut into all of them. -/
theorem chunks_eq {buffer : Array Single} {count size : Nat} (hpos : 0 < size)
    (h : buffer.size = count * size) :
    chunks buffer size = some ((List.range count).map fun index =>
      (index, buffer.extract (index * size) ((index + 1) * size))) := by
  rw [chunks, if_neg hpos.ne', h, Nat.mul_div_cancel _ hpos]

/-- A part of a buffer that has all of it is of the size it should have. -/
theorem size_chunk {buffer : Array Single} {index count size : Nat} (hindex : index < count)
    (h : buffer.size = count * size) :
    (buffer.extract (index * size) ((index + 1) * size)).size = size := by
  have hend : (index + 1) * size ≤ buffer.size := by
    rw [h]
    exact Nat.mul_le_mul_right _ hindex
  rw [Array.size_extract, Nat.min_eq_left hend, Nat.add_one_mul, Nat.add_sub_cancel_left]

/-- An element of a part, as the buffer has it. -/
theorem getElem?_extract_eq_getD {buffer : Array Single} {start stop place : Nat}
    (h : start + place < stop) (hsize : stop ≤ buffer.size) :
    (buffer.extract start stop)[place]? = some (buffer.getD (start + place) (.zero false)) := by
  rw [Array.getElem?_extract_of_lt (by omega), Array.getD_eq_getD_getElem?,
    Array.getElem?_eq_getElem (by omega), Option.getD_some]

/-! ## Pooling one region -/

/-- The pixels around a position along one axis. -/
def around (position : Single) (length : Nat) : Option Corners := do
  let whole := position.floor
  if whole < .zero false then return ⟨0, 0, .zero false⟩
  let lower := (whole.clampToInt 0 0xFFFFFFFFFFFFFFFF).toNat
  let last ← difference length 1
  if last ≤ lower then return ⟨last, last, .zero false⟩
  return ⟨lower, ← sum lower 1, position - whole⟩

/-- The channels of a pixel of a batch. -/
def pixel (e : Extents) (batch : Array Single) (rowSize y x : Nat) : Option (Array Single) := do
  let offset ← sum (← product y rowSize) (← product x e.depth)
  let rest ← part batch offset batch.size
  part rest 0 e.depth

/-- Adds the interpolated values of a sample to the sums of the channels. -/
def addSample (e : Extents) (batch : Array Single) (rowSize : Nat) (y x : Corners)
    (sums : Array Single) : Option (Array Single) := do
  let left := Binary.ofNat 1 - x.fraction
  let top := Binary.ofNat 1 - y.fraction
  let topLeft ← pixel e batch rowSize y.lower x.lower
  let topRight ← pixel e batch rowSize y.lower x.upper
  let bottomLeft ← pixel e batch rowSize y.upper x.lower
  let bottomRight ← pixel e batch rowSize y.upper x.upper
  let numbers ← (List.range e.depth).mapM fun channel => do
    let value := left * top * (← topLeft[channel]?) + x.fraction * top * (← topRight[channel]?)
      + left * y.fraction * (← bottomLeft[channel]?)
      + x.fraction * y.fraction * (← bottomRight[channel]?)
    return (← sums[channel]?) + value
  return numbers.toArray

/-- The numbers of a cell, found by its number in the pooled map. -/
def cell (e : Extents) (batch : Array Single) (rowSize : Nat) (vertical horizontal : Axis)
    (samples : Single) (index : Nat) (part : Array Single) : Option (Array Single) := do
  let row ← quotient index e.columns
  let column ← remainder index e.columns
  let bottom ← sum row 1
  let right ← sum column 1
  let sums ← (walk (vertical.edge row) (vertical.edge bottom) vertical.bin).foldlM
    (fun sums y => do
      let y ← around y e.height
      (walk (horizontal.edge column) (horizontal.edge right) horizontal.bin).foldlM
        (fun sums x => do addSample e batch rowSize y (← around x e.width) sums) sums)
    (part.map fun _ => .zero false)
  return sums.map (· / samples)

/-- The announced number of samples; the product is a whole number of eight bytes. -/
def samples (vertical horizontal : Axis) : Option Single :=
  if (horizontal.ratio * vertical.ratio).natAbs < 2 ^ 63 then
    some (Binary.ofInt (horizontal.ratio * vertical.ratio))
  else none

/-- The coordinates of a record; they follow the batch index, where there is one. -/
def coordinates (e : Extents) (record : Array Single) : Option (Array Single) :=
  if e.hasBatchIndex then part record 1 record.size else some record

/-- The batch that a record selects. -/
def batchIndex (e : Extents) (record : Array Single) : Option Nat :=
  if e.hasBatchIndex then record[0]?.map fun x => (x.round.clampToInt 0 0xFFFFFFFFFFFFFFFF).toNat
  else some 0

/-- The part of the feature map that is a batch. -/
def batch (e : Extents) (input : Array Single) (index : Nat) : Option (Array Single) := do
  let batchSize ← product (← product e.height e.width) e.depth
  let start ← product index batchSize
  let stop ← product (← sum index 1) batchSize
  part input start stop

/-- The numbers of the pooled map of a record, written over `slab`. -/
def pool (e : Extents) (s : Sampling) (input record slab : Array Single) :
    Option (List Single) := do
  let coordinates ← coordinates e record
  let batch ← batch e input (← batchIndex e record)
  let coordinate (place : Nat) : Option Single := coordinates[place]?.map (· * s.spatialScale)
  let horizontal := Axis.ofRegion (← coordinate 0) (← coordinate 2) e.columns s.samplingRatio
  let vertical := Axis.ofRegion (← coordinate 1) (← coordinate 3) e.rows s.samplingRatio
  let count ← samples vertical horizontal
  let rowSize ← product e.width e.depth
  let numbers ← (← chunks slab e.depth).mapM fun (index, part) =>
    cell e batch rowSize vertical horizontal count index part
  return numbers.flatMap Array.toList

/-! ## Pooling all regions -/

/-- Checks the batch indices of all records, if they have any. -/
def checkBatchIndices (e : Extents) (regions : Array Single) : Option (Except Error Unit) :=
  if e.hasBatchIndex then do
    let indices ← (← chunks regions e.recordLength).mapM fun (region, record) => do
      return (region, ← record[0]?)
    return indices.forM fun (region, index) => do
      if !e.isBatch index then
        throw (.batchIndexOutOfRange region index (UInt32.ofNat e.batches))
  else some (.ok ())

/-- Pools every record into the part of the output next to it. -/
def poolAll (job : Job) (e : Extents) (output : Array Single) : Option (Array Single) := do
  let slabSize ← product (← product e.rows e.columns) e.depth
  if slabSize = 0 then return output
  let records ← chunks job.regions.data e.recordLength
  let slabs ← chunks output slabSize
  (records.zip slabs).foldlM
    (fun output ((_, record), (index, slab)) => do
      return Job.writeAt output (index * slabSize)
        (← pool e job.sampling job.input.data record slab))
    output

/-- The run with all checks of addresses. -/
def align (job : Job) (output : Array Single) : Option (Except Error Unit × Array Single) :=
  match Extents.resolve job.input job.regions ⟨job.output, output⟩ with
  | .error error => some (.error error, output)
  | .ok e => do
    match ← checkBatchIndices e job.regions.data with
    | .error error => return (.error error, output)
    | .ok () => return (.ok (), ← poolAll job e output)

end Checked

end RegionPooling
