import RegionPooling.Pooling.Region

/-!
# Pooling all regions

A run pools every region into its own part of the output buffer. The parts are disjoint, so
the regions can be pooled in any order: `alignIn` takes a schedule, and `align` is the run
in the order of the records.

All checks come first. Where one fails, the output buffer is left as it is.
-/

namespace RegionPooling

/-- What a run reads, and the shape that it writes. -/
structure Job where
  input : View
  regions : View
  sampling : Sampling
  output : Shape

namespace Job

/-- The sizes of the run on an output buffer, if all checks pass. -/
def check (job : Job) (output : Array Single) : Except Error Extents := do
  let e ← Extents.resolve job.input job.regions ⟨job.output, output⟩
  e.checkBatchIndices job.regions.data
  return e

/-- The region of a record of the run. -/
def region (job : Job) (e : Extents) (index : Nat) : Region :=
  .ofRecord e job.sampling job.regions.data index

/-- Writes numbers into a buffer, from a place on. -/
def writeAt (buffer : Array Single) (place : Nat) : List Single → Array Single
  | [] => buffer
  | x :: rest => writeAt (buffer.setIfInBounds place x) (place + 1) rest

/-- Pools one region into its part of the output. -/
def poolInto (job : Job) (e : Extents) (output : Array Single) (index : Nat) : Array Single :=
  writeAt output (index * e.slabSize) ((job.region e index).slab e job.input.data)

/--
Pools the regions in the order that `schedule` gives for their number. Gives back the output
buffer in any case, and the error if a check fails.
-/
def alignIn (job : Job) (schedule : Nat → List Nat) (output : Array Single) :
    Except Error Unit × Array Single :=
  match job.check output with
  | .error error => (.error error, output)
  | .ok e =>
    -- Without cells or channels there is nothing to write.
    if e.slabSize = 0 then (.ok (), output)
    else (.ok (), (schedule e.regions).foldl (job.poolInto e) output)

/-- Pools the regions one after the other. -/
def align (job : Job) (output : Array Single) : Except Error Unit × Array Single :=
  job.alignIn List.range output

/-! ## The size of the output -/

theorem size_writeAt (buffer : Array Single) (place : Nat) (numbers : List Single) :
    (writeAt buffer place numbers).size = buffer.size := by
  induction numbers generalizing buffer place with
  | nil => rfl
  | cons x rest ih => simp [writeAt, ih]

theorem size_poolInto (job : Job) (e : Extents) (output : Array Single) (index : Nat) :
    (job.poolInto e output index).size = output.size :=
  size_writeAt ..

theorem size_foldl_poolInto (job : Job) (e : Extents) (order : List Nat) (output : Array Single) :
    (order.foldl (job.poolInto e) output).size = output.size := by
  induction order generalizing output with
  | nil => rfl
  | cons index rest ih => simp [ih, size_poolInto]

/-- A run never changes the size of the output buffer. -/
theorem size_alignIn (job : Job) (schedule : Nat → List Nat) (output : Array Single) :
    (job.alignIn schedule output).2.size = output.size := by
  unfold alignIn
  split
  · rfl
  · split
    · rfl
    · exact size_foldl_poolInto ..

end Job

end RegionPooling
