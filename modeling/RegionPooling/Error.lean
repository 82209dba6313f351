import RegionPooling.Json.Decode

/-!
# Errors

Every way in which an operation of the library can fail, as a cause with the data it
concerns. `Error.message` words it and `Error.code` names its kind; the wording of a text that
cannot be read is left to the command line (`Command.Remarks`), which knows the file.
`Error.isPrecondition` singles out the checks that are made before anything is computed: where
one of them fails, nothing has been written.

What makes buffers can stop in one more way. A buffer has a bound on its size, and where more is
asked for, the program panics: no error comes back, and nobody catches it. A `Stop` is an error or
this. That memory runs out below the bound is a matter of the machine and is left out.
-/

namespace RegionPooling

/-- Why a file cannot be read or written. -/
inductive FileError where
  | notFound
  | isDirectory
  | notDirectory
  | nameTooLong
  /-- The bytes are no text. -/
  | notText
  | other (text : String)
  deriving DecidableEq

def FileError.message : FileError → String
  | notFound => "No such file or directory (os error 2)"
  | isDirectory => "Is a directory (os error 21)"
  | notDirectory => "Not a directory (os error 20)"
  | nameTooLong => "File name too long (os error 36)"
  | notText => "stream did not contain valid UTF-8"
  | other text => text

/-- Why an operation fails. -/
inductive Error where
  | wrongRank (tensor : String) (expected actual : Nat)
  /-- A region record with another number of entries than 4 or 5. -/
  | wrongRecordLength (length : UInt32)
  | axisOutOfRange (axis rank : Nat)
  | emptyDimension (tensor : String) (axis : Nat)
  | dimensionMismatch (what : String) (expected actual : UInt32)
  | bufferSizeMismatch (tensor : String) (expected actual : Nat)
  /-- A shape with more elements than memory has addresses. -/
  | shapeOverflow (shape : String)
  | invalidShape (input reason : String)
  | batchIndexOutOfRange (region : Nat) (index : Single) (batches : UInt32)
  | invalidParameter (name reason : String)
  | missingExpected (fixture : String)
  | fixtureMismatch (fixture : String) (difference tolerance : Single)
  | file (error : FileError)
  | unreadable (failure : Failure)

namespace Error

def message : Error → String
  | wrongRank tensor expected actual =>
    "Invalid rank for " ++ tensor ++ " tensor: expected " ++ toString expected ++ ", got "
      ++ toString actual
  | wrongRecordLength length =>
    "Invalid ROI record length " ++ toString length.toNat ++ " (expected 4 or 5)"
  | axisOutOfRange axis rank =>
    "Axis " ++ toString axis ++ " is out of range for rank " ++ toString rank
  | emptyDimension tensor axis =>
    "Dimension " ++ toString axis ++ " of the " ++ tensor ++ " tensor must be non-zero"
  | dimensionMismatch what expected actual =>
    "Dimension mismatch for " ++ what ++ ": expected " ++ toString expected.toNat ++ ", got "
      ++ toString actual.toNat
  | bufferSizeMismatch tensor expected actual =>
    "Buffer size mismatch for " ++ tensor ++ " tensor: expected " ++ toString expected
      ++ " elements, got " ++ toString actual
  | shapeOverflow shape => "Element count of shape " ++ shape ++ " overflows usize"
  | invalidShape input reason => "Invalid shape '" ++ input ++ "': " ++ reason
  | batchIndexOutOfRange region index batches =>
    "ROI " ++ toString region ++ " has batch index " ++ Layout.plain.render index
      ++ " outside 0.." ++ toString batches.toNat
  | invalidParameter name reason => "Invalid parameter " ++ name ++ ": " ++ reason
  | missingExpected fixture => "Fixture '" ++ fixture ++ "' has no expected output"
  | fixtureMismatch fixture difference tolerance =>
    "Fixture '" ++ fixture ++ "' mismatch: max abs diff " ++ Layout.scientific.render difference
      ++ " exceeds tolerance " ++ Layout.scientific.render tolerance
  | file error => "I/O error: " ++ error.message
  | unreadable failure => "Serialization error: " ++ failure.message

/-- What lies behind an error, where that has a wording of its own. -/
def source? : Error → Option String
  | file error => some error.message
  | unreadable failure => some failure.message
  | _ => none

/-- The kind of the error, as a fixed word. -/
def code : Error → String
  | wrongRank .. => "INVALID_RANK"
  | wrongRecordLength .. => "INVALID_ROI_INFO_LENGTH"
  | axisOutOfRange .. => "AXIS_OUT_OF_RANGE"
  | emptyDimension .. => "EMPTY_DIMENSION"
  | dimensionMismatch .. => "DIMENSION_MISMATCH"
  | bufferSizeMismatch .. => "BUFFER_SIZE_MISMATCH"
  | shapeOverflow .. => "SHAPE_OVERFLOW"
  | invalidShape .. => "INVALID_SHAPE"
  | batchIndexOutOfRange .. => "BATCH_INDEX_OUT_OF_RANGE"
  | invalidParameter .. => "INVALID_PARAMETER"
  | missingExpected .. => "MISSING_EXPECTED"
  | fixtureMismatch .. => "FIXTURE_MISMATCH"
  | file .. => "IO_ERROR"
  | unreadable .. => "SERIALIZATION_ERROR"

/-- Whether the error is a failed check of the input of an operation. -/
def isPrecondition : Error → Bool
  | wrongRank .. | wrongRecordLength .. | axisOutOfRange .. | emptyDimension ..
  | dimensionMismatch .. | bufferSizeMismatch .. | shapeOverflow .. | batchIndexOutOfRange ..
  | invalidParameter .. => true
  | invalidShape .. | missingExpected .. | fixtureMismatch .. | file .. | unreadable .. => false

end Error

/-- Why a computation that makes buffers has no result. -/
inductive Stop where
  /-- It gives back an error. -/
  | failed (error : Error)
  /-- It asks for a buffer larger than buffers can be, and the program panics. -/
  | capacityOverflow

/-- What comes back to the caller: a result or an error, but nothing where the program panics. -/
def Stop.returned? {α : Type} : Except Stop α → Option (Except Error α)
  | .ok a => some (.ok a)
  | .error (.failed error) => some (.error error)
  | .error .capacityOverflow => none

end RegionPooling
