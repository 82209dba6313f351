import RegionPooling.Binary.Arithmetic
import RegionPooling.Decimal.Layout

/-!
# Values of a document

`Json ν` is the tree of a document whose numbers are of type `ν`. Two kinds of numbers are
in use. `Number` is what a text holds: whole numbers and floating-point ones are distinct.
`Literal` is what the library writes: whole numbers, and the four-byte numbers of tensors.

`Json.widen` leads from what is written to what is held: four-byte numbers become
eight-byte ones and the members of objects are sorted by key.
-/

namespace RegionPooling

/-- The tree of a document with numbers of type `ν`. -/
inductive Json (ν : Type) where
  | null
  | bool (value : Bool)
  | number (value : ν)
  | string (value : String)
  | array (items : List (Json ν))
  | object (members : List (String × Json ν))

/-- A number as a text holds it. -/
inductive Number where
  | whole (value : Int)
  | real (value : Double)
  deriving DecidableEq

/-- A number as the library writes it. -/
inductive Literal where
  | whole (value : Int)
  | single (value : Single)
  deriving DecidableEq

/-- A value of a document. -/
abbrev Value := Json Number

/-- The written form of an object of the library. -/
abbrev Written := Json Literal

def Number.text : Number → String
  | whole n => String.ofList (Layout.writeInt n)
  | real x => Layout.jsonDouble.render x

def Literal.text : Literal → String
  | whole n => String.ofList (Layout.writeInt n)
  | single x => Layout.jsonSingle.render x

namespace Json

variable {ν : Type}

/-! ## Objects -/

/-- Puts a member in its place by key; one with the same key is replaced. -/
def insertMember {α : Type} (key : String) (value : α) : List (String × α) → List (String × α)
  | [] => [(key, value)]
  | (other, old) :: rest =>
    if key = other then (key, value) :: rest
    else if key < other then (key, value) :: (other, old) :: rest
    else (other, old) :: insertMember key value rest

/-- The members in ascending order of their keys; of equal keys the last one counts. -/
def sortMembers {α : Type} (members : List (String × α)) : List (String × α) :=
  members.foldl (fun sorted (key, value) => insertMember key value sorted) []

/-! ## From written forms to values -/

/-- A written number as a value; what is not finite has no number and becomes `null`. -/
def ofLiteral : Literal → Value
  | .whole n => .number (.whole n)
  | .single x => if x.isFinite then .number (.real x.convert) else .null

mutual

/-- The value that a written form stands for. -/
def widen : Written → Value
  | .null => .null
  | .bool b => .bool b
  | .number n => ofLiteral n
  | .string s => .string s
  | .array items => .array (widenItems items)
  | .object members => .object (sortMembers (widenMembers members))

def widenItems : List Written → List Value
  | [] => []
  | item :: rest => widen item :: widenItems rest

def widenMembers : List (String × Written) → List (String × Value)
  | [] => []
  | (key, value) :: rest => (key, widen value) :: widenMembers rest

end

end Json

end RegionPooling
