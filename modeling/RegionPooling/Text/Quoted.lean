import RegionPooling.Text.Unprintable

/-!
# Quoted texts

A text between double quotes, as messages show a string that was found where something else
was expected. Quotes, backslashes and the usual controls are escaped with a backslash;
characters without a visible form of their own are written by their number.
-/

namespace RegionPooling.Text

/-- A character as it stands between double quotes. -/
def escape (c : Char) : List Char :=
  match c with
  | '\x00' => ['\\', '0']
  | '\t' => ['\\', 't']
  | '\r' => ['\\', 'r']
  | '\n' => ['\\', 'n']
  | '\\' => ['\\', '\\']
  | '"' => ['\\', '"']
  | c =>
    if isUnprintable c then "\\u\x7b".toList ++ Nat.toDigits 16 c.toNat ++ ['\x7d']
    else [c]

/-- The text between double quotes. -/
def quoted (text : String) : String :=
  String.ofList ('"' :: text.toList.flatMap escape ++ ['"'])

end RegionPooling.Text
