import RegionPooling.Command.Execute

/-!
# The program

Runs a command line on the files of the system. There is no log, and where a text is no document,
this is said by the kind of the fault, without a line and a column.
-/

namespace RegionPooling

/-- An error of the system as a reason why a file cannot be used. -/
def fileErrorOf (error : IO.Error) : FileError :=
  match error with
  | .noFileOrDirectory .. => .notFound
  | .inappropriateType _ number _ | .invalidArgument _ number _ =>
    -- Some functions of the system give the number of an error negated.
    match (min number (-number)).toNat with
    | 20 => .notDirectory
    | 21 => .isDirectory
    | 36 => .nameTooLong
    | _ => .other (toString error)
  | _ => .other (toString error)

/-- The files of the system. -/
def systemDisk : Disk IO where
  read path := do
    try return .ok (← IO.FS.readBinFile path)
    catch error => return .error (fileErrorOf error)
  write path text := do
    try return .ok (← IO.FS.writeFile path text)
    catch error => return .error (fileErrorOf error)

/-- A remark by the kind of a fault alone, without a line and a column. -/
def remarksByKind : Command.Remarks
  | _, .mismatched _ => ""
  | _, .malformed fault =>
    match fault with
    | .endOfText => "EOF while parsing a value"
    | .unexpected => "expected value"
    | .invalidNumber => "invalid number"
    | .numberTooLarge => "number out of range"
    | .invalidEscape => "invalid escape"
    | .controlCharacter => "control character (\\u0000-\\u001F) found while parsing a string"
    | .unpairedSurrogate => "lone leading surrogate in hex escape"
    | .trailingText => "trailing characters"
    | .tooDeep => "recursion limit exceeded"

end RegionPooling

def main (arguments : List String) : IO UInt32 := do
  let outcome ← RegionPooling.Command.respond RegionPooling.systemDisk
    RegionPooling.remarksByKind arguments
  (← IO.getStdout).putStr outcome.output
  (← IO.getStderr).putStr outcome.errors
  return UInt32.ofNat outcome.exitCode
