import RegionPooling.Error
import RegionPooling.Text.Blank
import RegionPooling.Text.Numeral

/-!
# Shapes

The sizes of the dimensions of a tensor, outermost first. A shape is shown between brackets
and is read from a list separated by commas, with or without brackets.

The number of elements of a shape has to be an address, and so has every product of some of
its sizes: sizes of zero are left out when the product is checked.
-/

namespace RegionPooling

/-- The sizes of the dimensions, outermost first. -/
structure Shape where
  sizes : List UInt32
  deriving DecidableEq

/-- The number of different addresses. -/
def addressable : Nat := 0x10000000000000000

namespace Shape

def rank (s : Shape) : Nat := s.sizes.length

/-- The shape between brackets, with a blank after each comma. -/
def text (s : Shape) : String :=
  "[" ++ ", ".intercalate (s.sizes.map fun size => toString size.toNat) ++ "]"

/-- The size of one dimension. -/
def size (s : Shape) (axis : Nat) : Except Error UInt32 :=
  match s.sizes[axis]? with
  | some size => .ok size
  | none => .error (.axisOutOfRange axis s.rank)

/-- The product of two numbers, if it is an address. -/
def checkedProduct (a b : Nat) : Option Nat := if a * b < addressable then some (a * b) else none

/-- The product of the sizes that are not zero, multiplied one after the other. -/
def extent? (s : Shape) : Option Nat :=
  (s.sizes.filter (· ≠ 0)).foldlM (fun product size => checkedProduct product size.toNat) 1

/-- The number of elements; one for a shape without dimensions. -/
def count? (s : Shape) : Option Nat :=
  s.extent?.map fun extent => if s.sizes.contains 0 then 0 else extent

def count (s : Shape) : Except Error Nat :=
  match s.count? with
  | some n => .ok n
  | none => .error (.shapeOverflow s.text)

/-- Checks the number of dimensions of the tensor with this name. -/
def expectRank (s : Shape) (tensor : String) (rank : Nat) : Except Error Unit :=
  if s.rank = rank then .ok () else .error (.wrongRank tensor rank s.rank)

/-! ## Reading -/

/-- One size, with blanks around it. -/
def readSize (input : String) (part : List Char) : Except Error UInt32 :=
  let trimmed := Text.trim part
  match Text.readNumeral 0xFFFFFFFF trimmed with
  | .ok n => .ok (UInt32.ofNat n)
  | .error e =>
    .error (.invalidShape input ("'" ++ String.ofList trimmed ++ "': " ++ e.message))

/-- The text inside: without blanks at the ends, then without the brackets at the ends. -/
def interior (text : List Char) : List Char :=
  Text.dropEndWhile (· == ']') ((Text.trim text).dropWhile (· == '['))

/-- Reads a shape; nothing but blanks and brackets is the shape without dimensions. -/
def parse (input : String) : Except Error Shape :=
  let inside := interior input.toList
  if Text.trim inside = [] then .ok ⟨[]⟩
  else ((Text.parts ',' inside).mapM (readSize input)).map Shape.mk

/-! ## Documents -/

/-- A shape is written as the array of its sizes. -/
def written (s : Shape) : Written :=
  .array (s.sizes.map fun size => .number (.whole size.toNat))

def ofDocument (d : Document) : Except Failure Shape :=
  (d.asList Document.asUInt32).map Shape.mk

/-- Reads the text of a document. -/
def ofJson (text : String) : Except Error Shape :=
  (Document.decode ofDocument text).mapError .unreadable

end Shape

end RegionPooling
