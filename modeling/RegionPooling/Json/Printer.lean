import RegionPooling.Json.Value
import RegionPooling.Text.Quoted

/-!
# Printing documents

One printer serves both the compact and the indented form: they differ in their `Spacing`
only. A third form, `Json.describe`, shows a value in messages.
-/

namespace RegionPooling

/-- What stands between the parts of a printed document. -/
structure Spacing where
  /-- Before an item at this depth, and before the closing bracket of the depth above. -/
  line : Nat → List Char
  /-- Between a key and its value. -/
  colon : List Char

namespace Spacing

/-- No blanks at all. -/
def compact : Spacing := { line := fun _ => [], colon := [':'] }

/-- Every item on a line of its own, indented by two blanks for each depth. -/
def indented : Spacing where
  line depth := '\n' :: List.replicate (2 * depth) ' '
  colon := [':', ' ']

end Spacing

namespace Json

variable {ν : Type}

/-- Four hexadecimal digits. -/
def hexDigits (n : Nat) : List Char :=
  [n / 4096 % 16, n / 256 % 16, n / 16 % 16, n % 16].map Nat.digitChar

/-- A character of a string, escaped where a document demands it. -/
def escape (c : Char) : List Char :=
  match c with
  | '"' => ['\\', '"']
  | '\\' => ['\\', '\\']
  | '\x08' => ['\\', 'b']
  | '\x0c' => ['\\', 'f']
  | '\n' => ['\\', 'n']
  | '\r' => ['\\', 'r']
  | '\t' => ['\\', 't']
  | c => if c.toNat < 0x20 then '\\' :: 'u' :: hexDigits c.toNat else [c]

/-- A string with its quotes. -/
def writeString (s : String) : List Char := '"' :: s.toList.flatMap escape ++ ['"']

mutual

/-- The text of a value at a depth; `number` writes the numbers. -/
def write (number : ν → String) (spacing : Spacing) (depth : Nat) : Json ν → List Char
  | .null => "null".toList
  | .bool true => "true".toList
  | .bool false => "false".toList
  | .number n => (number n).toList
  | .string s => writeString s
  | .array [] => ['[', ']']
  | .array (item :: rest) =>
    '[' :: spacing.line (depth + 1) ++ write number spacing (depth + 1) item
      ++ writeItems number spacing (depth + 1) rest ++ spacing.line depth ++ [']']
  | .object [] => ['\x7b', '\x7d']
  | .object ((key, value) :: rest) =>
    '\x7b' :: spacing.line (depth + 1) ++ writeString key ++ spacing.colon
      ++ write number spacing (depth + 1) value
      ++ writeMembers number spacing (depth + 1) rest ++ spacing.line depth ++ ['\x7d']

/-- The items after the first one, each with its comma. -/
def writeItems (number : ν → String) (spacing : Spacing) (depth : Nat) :
    List (Json ν) → List Char
  | [] => []
  | item :: rest =>
    ',' :: spacing.line depth ++ write number spacing depth item
      ++ writeItems number spacing depth rest

/-- The members after the first one, each with its comma. -/
def writeMembers (number : ν → String) (spacing : Spacing) (depth : Nat) :
    List (String × Json ν) → List Char
  | [] => []
  | (key, value) :: rest =>
    ',' :: spacing.line depth ++ writeString key ++ spacing.colon
      ++ write number spacing depth value ++ writeMembers number spacing depth rest

end

/-- A value on one line. -/
def compact (value : Value) : String :=
  String.ofList (value.write Number.text .compact 0)

/-- A written form on one line. -/
def line (written : Written) : String :=
  String.ofList (written.write Literal.text .compact 0)

/-- A written form with every item on its own line. -/
def page (written : Written) : String :=
  String.ofList (written.write Literal.text .indented 0)

mutual

/-- A value as messages show it, with the kind of each part. -/
def describe : Value → String
  | .null => "Null"
  | .bool b => "Bool(" ++ toString b ++ ")"
  | .number n => "Number(" ++ n.text ++ ")"
  | .string s => "String(" ++ Text.quoted s ++ ")"
  | .array items => "Array [" ++ ", ".intercalate (describeItems items) ++ "]"
  | .object members => "Object \x7b" ++ ", ".intercalate (describeMembers members) ++ "\x7d"

def describeItems : List Value → List String
  | [] => []
  | item :: rest => describe item :: describeItems rest

def describeMembers : List (String × Value) → List String
  | [] => []
  | (key, value) :: rest => (Text.quoted key ++ ": " ++ describe value) :: describeMembers rest

end

end Json

end RegionPooling
