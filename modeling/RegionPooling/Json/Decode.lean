import RegionPooling.Json.Document
import RegionPooling.Json.Printer

/-!
# Reading typed data from documents

A decoder takes a document to a value of some type or to a `Failure`, which says whether the
text is no document at all (`malformed`) or a document of the wrong kind (`mismatched`). The
line and the column of a failure are left out. Decoders walk the document in the order of the
text, so that of several failures the first one is reported.

Records are described by a `Schema`. A record may be written as an object, whose unknown
members are passed over, or as an array of its fields in order.
-/

namespace RegionPooling

/-- The kind of value met where another was expected. -/
inductive Found where
  | null
  | bool (value : Bool)
  | integer (value : Int)
  | floatingPoint (value : Double)
  | string (value : String)
  | sequence
  | map

def Found.describe : Found → String
  | null => "null"
  | bool b => "boolean `" ++ toString b ++ "`"
  | integer n => "integer `" ++ String.ofList (Layout.writeInt n) ++ "`"
  | floatingPoint x => "floating point `" ++ Layout.jsonDouble.render x ++ "`"
  | string s => "string " ++ Text.quoted s
  | sequence => "sequence"
  | map => "map"

/-- How a document differs from what is expected of it. -/
inductive Mismatch where
  | invalidType (found : Found) (expected : String)
  | invalidValue (found : Int) (expected : String)
  | invalidLength (length : Nat) (expected : String)
  | missingField (name : String)
  | duplicateField (name : String)
  /-- The parts are right, but together they are refused. -/
  | refused (reason : String)

def Mismatch.message : Mismatch → String
  | invalidType found expected => "invalid type: " ++ found.describe ++ ", expected " ++ expected
  | invalidValue found expected =>
    "invalid value: " ++ (Found.integer found).describe ++ ", expected " ++ expected
  | invalidLength length expected =>
    "invalid length " ++ toString length ++ ", expected " ++ expected
  | missingField name => "missing field `" ++ name ++ "`"
  | duplicateField name => "duplicate field `" ++ name ++ "`"
  | refused reason => reason

/-- Why a text does not hold the wanted data. -/
inductive Failure where
  | malformed (fault : Fault)
  | mismatched (mismatch : Mismatch)

/--
What is said of a failure, but for the remark of the reader at its end. To a mismatch this adds a
line and a column; what is said of a fault is all of it a remark.
-/
def Failure.message : Failure → String
  | malformed _ => ""
  | mismatched mismatch => mismatch.message

namespace Document

/-! ## Faults -/

mutual

/--
The first fault of a document that nothing is read from. Numbers and strings without a
value are none: they are passed over unseen.
-/
def firstFault? : Document → Option Fault
  | .fault reason => some reason
  | .array items => firstFaultOfItems? items
  | .object members => firstFaultOfMembers? members
  | _ => none

def firstFaultOfItems? : List Document → Option Fault
  | [] => none
  | item :: rest => (firstFault? item).or (firstFaultOfItems? rest)

def firstFaultOfMembers? : List (Option String × Document) → Option Fault
  | [] => none
  | (_, value) :: rest => (firstFault? value).or (firstFaultOfMembers? rest)

end

/-- Passes over a document. -/
def skip (d : Document) : Except Failure Unit :=
  match d.firstFault? with
  | some reason => .error (.malformed reason)
  | none => .ok ()

/-- The fault at a key that cannot be read. -/
def keyFault : Document → Fault
  | .fault reason => reason
  | _ => .unpairedSurrogate

/-! ## Simple types -/

/-- The failure of a document that is not of the expected type. -/
def wrongType (d : Document) (expected : String) : Failure :=
  let found (kind : Found) : Failure := .mismatched (.invalidType kind expected)
  match d with
  | .null => found .null
  | .bool b => found (.bool b)
  | .number (some (.whole n)) => found (.integer n)
  | .number (some (.real x)) => found (.floatingPoint x)
  | .number none => .malformed .numberTooLarge
  | .string (some s) => found (.string s)
  | .string none => .malformed .unpairedSurrogate
  | .array _ => found .sequence
  | .object _ => found .map
  | .fault reason => .malformed reason

/-- A whole number between two bounds; floating-point numbers are refused. -/
def asWhole (lower upper : Int) (expected : String) : Document → Except Failure Int
  | .number (some (.whole n)) =>
    if lower ≤ n ∧ n ≤ upper then .ok n else .error (.mismatched (.invalidValue n expected))
  | d => .error (d.wrongType expected)

def asUInt32 (d : Document) : Except Failure UInt32 := do
  return UInt32.ofNat (← d.asWhole 0 0xFFFFFFFF "u32").toNat

def asInt32 (d : Document) : Except Failure Int32 := do
  return Int32.ofInt (← d.asWhole (-0x80000000) 0x7FFFFFFF "i32")

/-- A four-byte number; an eight-byte number is rounded once more. -/
def asSingle : Document → Except Failure Single
  | .number (some (.whole n)) => .ok (Binary.ofInt n)
  | .number (some (.real x)) => .ok x.convert
  | d => .error (d.wrongType "f32")

def asString : Document → Except Failure String
  | .string (some s) => .ok s
  | d => .error (d.wrongType "a string")

/-- The items of an array, each read by the same decoder. -/
def asList {α : Type} (item : Document → Except Failure α) : Document → Except Failure (List α)
  | .array items => items.mapM item
  | d => .error (d.wrongType "a sequence")

/-- Something that may be `null`. -/
def asOption {α : Type} (some? : Document → Except Failure α) : Document → Except Failure (Option α)
  | .null => .ok none
  | d => (some? d).map some

end Document

/-! ## Records -/

/-- A field of a record: its name, whether it may be left out, and a check of its value. -/
structure Field where
  name : String
  optional : Bool
  check : Document → Except Failure Unit

namespace Field

variable {α : Type}

def required (name : String) (decode : Document → Except Failure α) : Field :=
  { name, optional := false, check := fun d => (decode d).map fun _ => () }

def optionally (name : String) (decode : Document → Except Failure α) : Field :=
  { name, optional := true, check := fun d => (decode d).map fun _ => () }

end Field

/-- The fields of a record in their order. -/
structure Schema where
  name : String
  fields : List Field

/-- The documents of the fields that are present. -/
abbrev Fields := List (String × Document)

namespace Schema

/-- The members of an object in order; known ones are checked and may not repeat. -/
def readMembers (schema : Schema) (present : Fields) :
    List (Option String × Document) → Except Failure Fields
  | [] => .ok present
  | (none, d) :: _ => .error (.malformed d.keyFault)
  | (some key, d) :: rest =>
    match schema.fields.find? fun field => field.name == key with
    | none => do
      -- Unknown members are passed over, but a fault in them still counts.
      d.skip
      schema.readMembers present rest
    | some field =>
      if present.any fun (name, _) => name == key then
        .error (.mismatched (.duplicateField key))
      else do
        field.check d
        schema.readMembers (present ++ [(key, d)]) rest

/-- The items of an array, one for each field; only fields that may be left out can miss. -/
def readItems (schema : Schema) (excess : Failure) (present : Fields) :
    List Field → List Document → Except Failure Fields
  | [], [] => .ok present
  | [], _ :: _ => .error excess
  | field :: fields, [] =>
    -- The first field that misses and may not is the one reported.
    if field.optional then schema.readItems excess present fields []
    else
      let expected := "struct " ++ schema.name ++ " with " ++ toString schema.fields.length
        ++ " elements"
      let place := schema.fields.length - (fields.length + 1)
      .error (.mismatched (.invalidLength place expected))
  | field :: fields, d :: rest => do
    field.check d
    schema.readItems excess (present ++ [(field.name, d)]) fields rest

/-- The fields of a record. An array with too many items has the failure `excess`. -/
def read (schema : Schema) (excess : Nat → Failure) : Document → Except Failure Fields
  | .object members => schema.readMembers [] members
  | .array items => schema.readItems (excess items.length) [] schema.fields items
  | d => .error (d.wrongType ("struct " ++ schema.name))

end Schema

namespace Fields

variable {α : Type}

/-- A field that has to be there. -/
def get (fields : Fields) (name : String) (decode : Document → Except Failure α) :
    Except Failure α :=
  match fields.lookup name with
  | some d => decode d
  | none => .error (.mismatched (.missingField name))

/-- A field with a default. -/
def getD (fields : Fields) (name : String) (decode : Document → Except Failure α) (default : α) :
    Except Failure α :=
  match fields.lookup name with
  | some d => decode d
  | none => .ok default

end Fields

/-! ## Texts -/

namespace Document

/-- A record written as an array with too many items, in a text: its end is missing. -/
def unclosed (_ : Nat) : Failure := .malformed .unexpected

/-- A record written as an array with too many items, in a value: it is too long. -/
def tooLong (length : Nat) : Failure :=
  .mismatched (.invalidLength length "fewer elements in array")

/-- Reads a whole text; nothing may follow its document. -/
def decode {α : Type} (decoder : Document → Except Failure α) (text : String) :
    Except Failure α := do
  let (d, rest) := read text
  let value ← decoder d
  if rest = [] then return value else throw (.malformed .trailingText)

/-! ## Values -/

mutual

/-- The value of a document in which at most `depth` arrays and objects are nested. -/
def toValue (depth : Nat) : Document → Except Fault Value
  | .null => .ok .null
  | .bool b => .ok (.bool b)
  | .number (some n) => .ok (.number n)
  | .number none => .error .numberTooLarge
  | .string (some s) => .ok (.string s)
  | .string none => .error .unpairedSurrogate
  | .array items =>
    if depth = 0 then .error .tooDeep else (toValues (depth - 1) items).map .array
  | .object members =>
    if depth = 0 then .error .tooDeep
    else (toMembers (depth - 1) members).map fun members => .object (Json.sortMembers members)
  | .fault reason => .error reason

def toValues (depth : Nat) : List Document → Except Fault (List Value)
  | [] => .ok []
  | item :: rest => do
    let value ← toValue depth item
    return value :: (← toValues depth rest)

def toMembers (depth : Nat) :
    List (Option String × Document) → Except Fault (List (String × Value))
  | [] => .ok []
  | (none, d) :: _ => .error d.keyFault
  | (some key, d) :: rest => do
    let value ← toValue depth d
    return (key, value) :: (← toMembers depth rest)

end

mutual

/-- A value as a document again. -/
def ofValue : Value → Document
  | .null => .null
  | .bool b => .bool b
  | .number n => .number (some n)
  | .string s => .string (some s)
  | .array items => .array (ofValues items)
  | .object members => .object (ofMembers members)

def ofValues : List Value → List Document
  | [] => []
  | item :: rest => ofValue item :: ofValues rest

def ofMembers : List (String × Value) → List (Option String × Document)
  | [] => []
  | (key, value) :: rest => (some key, ofValue value) :: ofMembers rest

end

end Document

namespace Json

/-- The deepest nesting of arrays and objects in a value. -/
def depthLimit : Nat := 127

/-- Reads the value of a text; of equal keys in an object the last one counts. -/
def parse (text : String) : Except Failure Value :=
  Document.decode (fun d => (d.toValue depthLimit).mapError .malformed) text

end Json

end RegionPooling
