import RegionPooling.Text.Parts

/-!
# Blanks

The characters with the Unicode property *white space*, and the removal of blanks from both
ends of a text.
-/

namespace RegionPooling.Text

/-- Characters with the property white space; there are 25 of them. -/
def isBlank (c : Char) : Bool :=
  let n := c.toNat
  decide (0x9 ≤ n ∧ n ≤ 0xd) || n == 0x20 || n == 0x85 || n == 0xa0 || n == 0x1680
    || decide (0x2000 ≤ n ∧ n ≤ 0x200a) || n == 0x2028 || n == 0x2029 || n == 0x202f
    || n == 0x205f || n == 0x3000

/-- The text without blanks at either end. -/
def trim (text : List Char) : List Char := dropEndWhile isBlank (text.dropWhile isBlank)

end RegionPooling.Text
