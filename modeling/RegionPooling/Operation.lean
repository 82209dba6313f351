import RegionPooling.Operation.Params
import RegionPooling.Pooling.Align
import RegionPooling.Tensor

/-!
# Pooling operations

An operation is a set of parameters that have been validated, so its type carries the
validation. It infers the shape of its output, pools tensors, and lets its parameters be
replaced: all at once from a document, or one by one. A replacement that fails leaves the
operation as it was, since it gives back no new one.

Inferring a shape only counts its elements, while pooling makes a buffer for them. So there are
shapes that can be inferred but not pooled: those with more elements than a buffer can have.
-/

namespace RegionPooling

/-- Validated parameters. -/
structure Operation where
  params : Params
  valid : params.validate = .ok ()

namespace Operation

/-- Validates parameters. -/
def ofParams (p : Params) : Except Error Operation :=
  match h : p.validate with
  | .error error => .error error
  | .ok () => .ok ⟨p, h⟩

/-! ## Pooling -/

/-- The shape of the output for a feature map and region records of these shapes. -/
def prepare (op : Operation) (input regions : Shape) : Except Error Shape := do
  input.expectRank "input" 4
  regions.expectRank "roi" 2
  Extents.checkRecordLength (← regions.size 1)
  Extents.checkNotEmpty input
  let output : Shape :=
    ⟨[← regions.size 0, op.params.outputHeight, op.params.outputWidth, ← input.size 3]⟩
  let _ ← input.count
  let _ ← output.count
  return output

/-- The run of the operation on a feature map and region records. -/
def job (op : Operation) (input regions : Tensor) (output : Shape) : Job where
  input := ⟨input.shape, input.data⟩
  regions := ⟨regions.shape, regions.data⟩
  sampling := ⟨op.params.spatialScale, op.params.samplingRatio⟩
  output := output

/-- Pools the regions of a feature map. -/
def execute (op : Operation) (input regions : Tensor) : Except Stop Tensor := do
  let shape ← (op.prepare input.shape regions.shape).mapError .failed
  let output ← Tensor.zeros shape
  let run := (op.job input regions output.shape).align output.data
  have size_eq : run.2.size = output.data.size := Job.size_alignIn ..
  run.1.mapError .failed
  return { output with data := run.2, count_eq := size_eq ▸ output.count_eq }

/-! ## Parameters -/

/-- Replaces one parameter by name. -/
def setParam (op : Operation) (name : String) (v : Value) : Except Error Operation := do
  ofParams (← op.params.replace name v)

/-- Parameters that replace all those of an operation. -/
def ofValue (v : Value) : Except Error Operation := do
  ofParams (← (Params.ofValue v).mapError .unreadable)

end Operation

end RegionPooling
