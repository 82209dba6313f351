import RegionPooling.Error
import RegionPooling.Text.Parts

/-!
# Paths

A path is a text that leads to a file or a directory: names with slashes between them.
`Path.ofText?` takes it apart. Slashes that follow each other count as one, so that every
name has characters.
-/

namespace RegionPooling

/-- A path, taken apart at its slashes. -/
structure Path where
  /-- Whether it begins with a slash, and so at the root of the system. -/
  absolute : Bool
  /-- The names along the path. -/
  names : List String
  /-- Whether a slash follows the last name, which then has to be a directory. -/
  slashAfter : Bool
  deriving DecidableEq

namespace Path

/-- The largest size of a path in bytes. -/
def maxBytes : Nat := 4095

/-- The largest size of a name in bytes. -/
def maxNameBytes : Nat := 255

/-- The names between the slashes of a text. -/
def namesOf (text : List Char) : List String :=
  ((Text.parts '/' text).filter (· ≠ [])).map String.ofList

/-- Takes a path apart, unless it is empty or too long. -/
def ofText? (text : String) : Except FileError Path :=
  if text = "" then .error .notFound
  else if maxBytes < text.utf8ByteSize then .error .nameTooLong
  else
    let chars := text.toList
    .ok {
      absolute := chars.head? == some '/'
      names := namesOf chars
      slashAfter := chars.getLast? == some '/' }

end Path

end RegionPooling
