import RegionPooling.Shape

/-!
# Parameters of pooling

The size of the pooled grid, the scale of the region coordinates and the sampling ratio.
Parameters can be written as a document and read back, and single ones can be replaced by
name. `Params.validate` says which parameters are usable.
-/

namespace RegionPooling

/-- The parameters of a pooling operation. -/
structure Params where
  /-- Rows of the pooled grid. -/
  outputHeight : UInt32
  /-- Columns of the pooled grid. -/
  outputWidth : UInt32
  /-- From coordinates of regions to pixels. -/
  spatialScale : Single
  /-- Samples per bin along each axis; not positive for one per pixel. -/
  samplingRatio : Int32
  deriving DecidableEq

namespace Params

/-- Unit scale and one sample per pixel. -/
def ofGrid (outputHeight outputWidth : UInt32) : Params :=
  { outputHeight, outputWidth, spatialScale := Binary.ofNat 1, samplingRatio := 0 }

/-- Whether the number of samples follows from the size of each region. -/
def isAdaptive (p : Params) : Bool := decide (p.samplingRatio ≤ 0)

/-- Checks the ranges of the parameters. -/
def validate (p : Params) : Except Error Unit :=
  if p.outputHeight = 0 then
    .error (.invalidParameter "output_height" "must be greater than zero")
  else if p.outputWidth = 0 then
    .error (.invalidParameter "output_width" "must be greater than zero")
  else if !p.spatialScale.isFinite || decide (p.spatialScale ≤ .zero false) then
    .error (.invalidParameter "spatial_scale"
      ("must be finite and positive, got " ++ Layout.plain.render p.spatialScale))
  else .ok ()

/-! ## Documents -/

/-- The members of the written form. -/
def members (p : Params) : List (String × Written) :=
  [("output_height", .number (.whole p.outputHeight.toNat)),
    ("output_width", .number (.whole p.outputWidth.toNat)),
    ("spatial_scale", .number (.single p.spatialScale)),
    ("sampling_ratio", .number (.whole p.samplingRatio.toInt))]

def written (p : Params) : Written := .object p.members

/-- The parameters as a value. -/
def toValue (p : Params) : Value := p.written.widen

/-- The parameters and whether they are adaptive, as a value. -/
def summary (p : Params) : Value :=
  Json.widen (.object (p.members ++ [("adaptive", .bool p.isAdaptive)]))

def schema : Schema where
  name := "RoiAlignParams"
  fields := [.required "output_height" Document.asUInt32,
    .required "output_width" Document.asUInt32,
    .required "spatial_scale" Document.asSingle,
    .optionally "sampling_ratio" Document.asInt32]

/-- Reads parameters; only the sampling ratio may be left out. -/
def ofDocument (excess : Nat → Failure) (d : Document) : Except Failure Params := do
  let fields ← schema.read excess d
  return {
    outputHeight := ← fields.get "output_height" Document.asUInt32
    outputWidth := ← fields.get "output_width" Document.asUInt32
    spatialScale := ← fields.get "spatial_scale" Document.asSingle
    samplingRatio := ← fields.getD "sampling_ratio" Document.asInt32 0 }

/-- Reads parameters from a value. -/
def ofValue (v : Value) : Except Failure Params :=
  ofDocument Document.tooLong (.ofValue v)

/-! ## Single parameters -/

/-- The failure of a value of the wrong type. -/
def wrongType (name expected : String) (v : Value) : Error :=
  .invalidParameter name ("expected " ++ expected ++ ", got " ++ v.describe)

/-- A whole number between two bounds. -/
def wholeWithin? (lower upper : Int) : Value → Option Int
  | .number (.whole n) => if lower ≤ n ∧ n ≤ upper then some n else none
  | _ => none

/-- A size of the pooled grid. -/
def gridSize (name : String) (v : Value) : Except Error UInt32 :=
  match wholeWithin? 0 0xFFFFFFFF v with
  | some n => .ok (UInt32.ofNat n.toNat)
  | none => .error (wrongType name "unsigned integer" v)

/-- A scale; whole numbers become eight-byte numbers first. -/
def scale (name : String) : Value → Except Error Single
  | .number (.whole n) => .ok (Binary.ofInt n : Double).convert
  | .number (.real x) => .ok x.convert
  | v => .error (wrongType name "number" v)

/-- A sampling ratio. -/
def ratio (name : String) (v : Value) : Except Error Int32 :=
  match wholeWithin? (-0x80000000) 0x7FFFFFFF v with
  | some n => .ok (Int32.ofInt n)
  | none => .error (wrongType name "integer" v)

/-- The parameters with one of them replaced; the result is not validated. -/
def replace (p : Params) (name : String) (v : Value) : Except Error Params :=
  match name with
  | "output_height" => (gridSize name v).map fun n => { p with outputHeight := n }
  | "output_width" => (gridSize name v).map fun n => { p with outputWidth := n }
  | "spatial_scale" => (scale name v).map fun x => { p with spatialScale := x }
  | "sampling_ratio" => (ratio name v).map fun n => { p with samplingRatio := n }
  | _ => .error (.invalidParameter name "unknown parameter")

end Params

end RegionPooling
