import RegionPooling.Operation

/-!
# Fixtures

A fixture is one pooling run kept as a document: parameters, feature map, region records
and, once it has been recorded, the expected output with a tolerance. Verifying a fixture
runs it again and gives a report on how far the output is from the expected one.
-/

namespace RegionPooling

/-- One stored run. -/
structure Fixture where
  name : String
  description : Option String
  params : Params
  input : Tensor
  regions : Tensor
  expected : Option Tensor
  tolerance : Single

/-- The outcome of verifying a fixture. -/
structure Report where
  name : String
  maxAbsDiff : Single
  tolerance : Single
  deriving DecidableEq

namespace Report

/-- A difference that is not finite never passes. -/
def passed (r : Report) : Bool := r.maxAbsDiff.isFinite && decide (r.maxAbsDiff ≤ r.tolerance)

/-- A report that has passed, or the mismatch. -/
def check (r : Report) : Except Error Report :=
  if r.passed then .ok r else .error (.fixtureMismatch r.name r.maxAbsDiff r.tolerance)

end Report

namespace Fixture

/-- The tolerance of a fixture that does not name one. -/
def defaultTolerance : Single := Decimal.toBinary false ⟨1, -5⟩

/-- A fixture that has not been recorded yet. -/
def new (name : String) (params : Params) (input regions : Tensor) : Fixture :=
  { name, description := none, params, input, regions, expected := none,
    tolerance := defaultTolerance }

/-! ## Running -/

/-- Runs the stored run. -/
def run (f : Fixture) : Except Stop Tensor := do
  let op ← (Operation.ofParams f.params).mapError .failed
  op.execute f.input f.regions

/-- Takes the output of a run as the expected one, in the fixture that there is. -/
def recordInPlace : EStateM Stop Fixture Unit := do
  let f ← get
  let output ← MonadExcept.ofExcept f.run
  set { f with expected := some output }

/-- The fixture after recording, if that goes through. -/
def record (f : Fixture) : Except Stop Fixture :=
  match recordInPlace f with
  | .ok () g => .ok g
  | .error stop _ => .error stop

/-- A number of elements as the size of a dimension. -/
def clampSize (n : Nat) : UInt32 := UInt32.ofNat (min n 0xFFFFFFFF)

/-- The error of an output whose shape is not the expected one. -/
def shapeMismatch (f : Fixture) (actual expected : Tensor) : Error :=
  .dimensionMismatch
    ("fixture '" ++ f.name ++ "' output shape " ++ actual.shape.text ++ " vs expected "
      ++ expected.shape.text)
    (clampSize expected.data.size) (clampSize actual.data.size)

/-- Runs the stored run and compares the output with the expected one. -/
def verify (f : Fixture) : Except Stop Report := do
  let some expected := f.expected | throw (.failed (.missingExpected f.name))
  let actual ← f.run
  let some maxAbsDiff := actual.maxAbsDiff expected
    | throw (.failed (f.shapeMismatch actual expected))
  return { name := f.name, maxAbsDiff, tolerance := f.tolerance }

/-- Verifies, and refuses a report that has not passed. -/
def check (f : Fixture) : Except Stop Report := do (← f.verify).check.mapError .failed

/-! ## Documents -/

/-- A member that is left out where there is nothing to write. -/
def optionalMember (name : String) : Option Written → List (String × Written)
  | some written => [(name, written)]
  | none => []

/-- The written form. -/
def written (f : Fixture) : Written :=
  .object ([("name", .string f.name)]
    ++ optionalMember "description" (f.description.map .string)
    ++ [("params", f.params.written), ("input", f.input.written), ("rois", f.regions.written)]
    ++ optionalMember "expected" (f.expected.map Tensor.written)
    ++ [("tolerance", .number (.single f.tolerance))])

def paramsOfDocument : Document → Except Failure Params := Params.ofDocument Document.unclosed

def schema : Schema where
  name := "OperatorFixture"
  fields := [.required "name" Document.asString,
    .optionally "description" (Document.asOption Document.asString),
    .required "params" paramsOfDocument,
    .required "input" Tensor.ofDocument,
    .required "rois" Tensor.ofDocument,
    .optionally "expected" (Document.asOption Tensor.ofDocument),
    .optionally "tolerance" Document.asSingle]

def ofDocument (d : Document) : Except Failure Fixture := do
  let fields ← schema.read Document.unclosed d
  return {
    name := ← fields.get "name" Document.asString
    description := ← fields.getD "description" (Document.asOption Document.asString) none
    params := ← fields.get "params" paramsOfDocument
    input := ← fields.get "input" Tensor.ofDocument
    regions := ← fields.get "rois" Tensor.ofDocument
    expected := ← fields.getD "expected" (Document.asOption Tensor.ofDocument) none
    tolerance := ← fields.getD "tolerance" Document.asSingle defaultTolerance }

/-! ## Files -/

/-- The text that is saved. -/
def page (f : Fixture) : String := f.written.page

/-- Reads a saved text. -/
def ofJson (text : String) : Except Error Fixture :=
  (Document.decode ofDocument text).mapError .unreadable

/-- Reads what a file holds. -/
def ofFile : Except FileError ByteArray → Except Error Fixture
  | .error error => .error (.file error)
  | .ok bytes =>
    match String.fromUTF8? bytes with
    | none => .error (.file .notText)
    | some text => ofJson text

end Fixture

end RegionPooling
