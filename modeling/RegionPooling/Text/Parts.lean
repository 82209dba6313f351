/-!
# Parts of texts

A text cut at every separator, and a text with something at its end cut off. Between the
parts of a text there is nothing but separators (`intercalate_parts`).
-/

namespace RegionPooling.Text

/-- The text without the characters at its end that satisfy `p`. -/
def dropEndWhile (p : Char → Bool) (text : List Char) : List Char :=
  (text.reverse.dropWhile p).reverse

/-- The parts of a text between separators. There is one part more than separators. -/
def parts (separator : Char) : List Char → List (List Char)
  | [] => [[]]
  | c :: rest =>
    if c = separator then [] :: parts separator rest
    else (parts separator rest).modifyHead (c :: ·)

theorem parts_ne_nil (separator : Char) (text : List Char) : parts separator text ≠ [] := by
  induction text with
  | nil => simp [parts]
  | cons c rest ih =>
    rw [parts]
    split
    · simp
    · cases h : parts separator rest with
      | nil => exact absurd h ih
      | cons part others => simp

theorem intercalate_parts (separator : Char) (text : List Char) :
    [separator].intercalate (parts separator text) = text := by
  induction text with
  | nil => simp [parts]
  | cons c rest ih =>
    obtain ⟨part, others, h⟩ := List.exists_cons_of_ne_nil (parts_ne_nil separator rest)
    rw [parts]
    rw [h] at ih ⊢
    split
    · rename_i hc
      simp [ih, hc]
    · -- The character joins the first part, whether or not another part follows.
      cases others with
      | nil => simpa using ih
      | cons next others => simpa using ih

end RegionPooling.Text
