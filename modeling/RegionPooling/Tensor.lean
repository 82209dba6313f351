import RegionPooling.Shape

/-!
# Tensors

A tensor is a shape with one number for each of its elements, in row-major order. The fit of
the two is part of the type, so every way to make a tensor checks it: `Tensor.ofData` against
given data, `Tensor.tabulate` and `Tensor.zeros` by making as many elements as needed, or by
stopping where a buffer cannot have so many.
-/

namespace RegionPooling

/-- A shape and the numbers at its places, in row-major order. -/
structure Tensor where
  shape : Shape
  data : Array Single
  count_eq : shape.count? = some data.size

namespace Tensor

/-! ## Making -/

/-- Pairs a shape with data of the right length. -/
def ofData (shape : Shape) (data : Array Single) : Except Error Tensor :=
  match h : shape.count? with
  | none => .error (.shapeOverflow shape.text)
  | some expected =>
    if hsize : data.size = expected then .ok ⟨shape, data, hsize ▸ h⟩
    else .error (.bufferSizeMismatch "tensor" expected data.size)

/-- The most elements of a buffer: it has at most `2 ^ 63 - 1` bytes, four for each of them. -/
def maxElements : Nat := 0x7FFFFFFFFFFFFFFF / 4

/-- Computes every element from its place. -/
def tabulate (shape : Shape) (element : Nat → Single) : Except Stop Tensor :=
  match h : shape.count? with
  | none => .error (.failed (.shapeOverflow shape.text))
  | some count =>
    if count ≤ maxElements then
      .ok ⟨shape, Array.ofFn (n := count) fun i => element i, by simp [h]⟩
    else .error .capacityOverflow

def zeros (shape : Shape) : Except Stop Tensor := tabulate shape fun _ => .zero false

/-- Replaces the element at a place, if there is one. -/
def set? (t : Tensor) (place : Nat) (value : Single) : Option Tensor :=
  if place < t.data.size then
    some { t with data := t.data.setIfInBounds place value, count_eq := by simp [t.count_eq] }
  else none

/-! ## Looking -/

def isFinite (t : Tensor) : Bool := t.data.all Binary.isFinite

/-- The smallest and the largest element; numbers that are none are left out of account. -/
def valueRange (t : Tensor) : Option (Single × Single) :=
  if t.data.isEmpty then none
  else some (t.data.foldl Binary.min (.infinity false), t.data.foldl Binary.max (.infinity true))

/-- The larger of two differences; not-a-number wins over everything. -/
def worse (a b : Single) : Single := if a.isNaN || b.isNaN then .nan else a.max b

/-- The largest distance between elements at the same place, for tensors of one shape. -/
def maxAbsDiff (a b : Tensor) : Option Single :=
  if a.shape = b.shape then
    some (((a.data.toList.zip b.data.toList).map fun (x, y) => (x - y).abs).foldl worse
      (.zero false))
  else none

/-- Equality of the shapes and of the elements as numbers. -/
def numEq (a b : Tensor) : Bool :=
  a.shape == b.shape && (a.data.toList.zip b.data.toList).all fun (x, y) => x.numEq y

/-! ## Documents -/

/-- The written form: shape and data, in this order. -/
def written (t : Tensor) : Written :=
  .object [("shape", t.shape.written),
    ("data", .array (t.data.toList.map fun x => .number (.single x)))]

def dataOfDocument (d : Document) : Except Failure (Array Single) :=
  (d.asList Document.asSingle).map List.toArray

def schema : Schema where
  name := "RawTensor"
  fields := [.required "shape" Shape.ofDocument, .required "data" dataOfDocument]

/-- Reads shape and data and checks that they fit. -/
def ofDocument (d : Document) : Except Failure Tensor := do
  let fields ← schema.read Document.unclosed d
  let shape ← fields.get "shape" Shape.ofDocument
  let data ← fields.get "data" dataOfDocument
  (ofData shape data).mapError fun e => .mismatched (.refused e.message)

/-- Reads the text of a document. -/
def ofJson (text : String) : Except Error Tensor :=
  (Document.decode ofDocument text).mapError .unreadable

end Tensor

end RegionPooling
