import RegionPooling.Decimal.Layout
import RegionPooling.Text.Quoted

/-!
# Lines

A line is a text without a line break. What is put together from lines is a line again, and so
is every number and every quoted text, since quoting escapes what would break it. Where lines are
printed one after the other, each with a line break at its end, they are found again between the
line breaks.

Main results:

* `Text.isLine_quoted` — quoted texts, whatever they quote.
* `Layout.isLine_render`, `Layout.isLine_renderRounded` — numbers.
* `Text.parts_join` — the lines of a printed text.
-/

namespace RegionPooling

namespace Text

/-- A text without a line break. -/
def IsLine (text : String) : Prop := '\n' ∉ text.toList

instance (text : String) : Decidable (IsLine text) :=
  inferInstanceAs (Decidable ('\n' ∉ text.toList))

@[simp]
theorem isLine_append {a b : String} : IsLine (a ++ b) ↔ IsLine a ∧ IsLine b := by
  simp [IsLine]

@[simp]
theorem isLine_ofList {chars : List Char} : IsLine (String.ofList chars) ↔ '\n' ∉ chars := by
  simp [IsLine]

theorem isLine_intercalate {separator : String} {texts : List String}
    (hseparator : IsLine separator) (h : ∀ text ∈ texts, IsLine text) :
    IsLine (separator.intercalate texts) := by
  rw [IsLine, String.toList_intercalate]
  induction texts with
  | nil => simp
  | cons text rest ih =>
    have htext : '\n' ∉ text.toList := h text List.mem_cons_self
    have hrest := ih fun other hother => h other (List.mem_cons_of_mem _ hother)
    cases rest with
    | nil => simpa using htext
    | cons next rest =>
      rw [List.map_cons, List.map_cons, List.intercalate_cons_cons]
      simp only [List.mem_append, not_or]
      exact ⟨⟨htext, hseparator⟩, hrest⟩

/-! ## Digits and quoted texts -/

theorem lineBreak_notMem_toDigits {base : Nat} (hbase : 1 < base) (n : Nat) :
    '\n' ∉ Nat.toDigits base n := by
  -- The last digit is split off in each step.
  induction n using Nat.strongRecOn with
  | _ n ih =>
    rcases Nat.lt_or_ge n base with hlt | hge
    · simp [Nat.toDigits_of_lt_base hlt]
    · have hfront := ih (n / base) (Nat.div_lt_self (by omega) hbase)
      simp [Nat.toDigits_of_base_le hbase hge, hfront]

theorem isLine_toString (n : Nat) : IsLine (toString n) := by
  rw [Nat.toString_eq_ofList_toDigits, isLine_ofList]
  exact lineBreak_notMem_toDigits (by decide) n

theorem lineBreak_notMem_escape (c : Char) : '\n' ∉ escape c := by
  unfold escape
  split
  case h_7 c _ _ _ hbreak _ _ =>
    -- Only here the character may be written as it is.
    split
    · simp [lineBreak_notMem_toDigits]
    · simp [Ne.symm hbreak]
  all_goals decide

theorem isLine_quoted (text : String) : IsLine (quoted text) := by
  rw [quoted, isLine_ofList]
  simp [lineBreak_notMem_escape]

/-! ## Printed lines -/

/-- The text up to the first separator is a part of its own. -/
theorem parts_append_cons {separator : Char} {text : List Char} (h : separator ∉ text)
    (rest : List Char) :
    parts separator (text ++ separator :: rest) = text :: parts separator rest := by
  induction text with
  | nil => simp [parts]
  | cons c text ih =>
    have hc : c ≠ separator := by
      intro heq
      exact h (heq ▸ List.mem_cons_self)
    have hparts := ih fun hmem => h (List.mem_cons_of_mem _ hmem)
    rw [List.cons_append, parts, if_neg hc, hparts, List.modifyHead_cons]

/-- Printed lines are found again, with nothing after the last line break. -/
theorem parts_join {lines : List String} (h : ∀ line ∈ lines, IsLine line) :
    parts '\n' (String.join (lines.map (· ++ "\n"))).toList = lines.map String.toList ++ [[]] := by
  rw [String.toList_join]
  induction lines with
  | nil => rfl
  | cons line rest ih =>
    have hline : '\n' ∉ line.toList := h line List.mem_cons_self
    have hrest := ih fun other hother => h other (List.mem_cons_of_mem _ hother)
    simp only [List.map_cons, List.flatMap_cons, String.toList_append, List.append_assoc,
      List.cons_append]
    rw [show "\n".toList = ['\n'] from rfl, List.singleton_append, parts_append_cons hline, hrest]

end Text

/-! ## Numbers -/

namespace Layout

open Text (IsLine isLine_ofList lineBreak_notMem_toDigits)

variable {l : Layout} {digits : List Char} {f : Format}

/-- What a layout puts around digits and in place of them has no line break. -/
structure OnOneLine (l : Layout) : Prop where
  afterWhole : IsLine l.afterWhole
  plus : IsLine l.plus
  nan : IsLine l.nan
  infinity : ∀ negative, IsLine (l.infinity negative)

theorem onOneLine_plain : plain.OnOneLine where
  afterWhole := by decide
  plus := by decide
  nan := by decide
  infinity := by decide

theorem onOneLine_scientific : scientific.OnOneLine :=
  ⟨onOneLine_plain.afterWhole, onOneLine_plain.plus, onOneLine_plain.nan, onOneLine_plain.infinity⟩

theorem onOneLine_jsonDouble : jsonDouble.OnOneLine where
  afterWhole := by decide
  plus := by decide
  nan := by decide
  infinity := by decide

theorem lineBreak_notMem_writeInt (n : Int) : '\n' ∉ writeInt n := by
  have hdigits := lineBreak_notMem_toDigits (by decide : 1 < 10) n.natAbs
  unfold writeInt
  split
  · simp [hdigits]
  · exact hdigits

theorem lineBreak_notMem_zeros (n : Nat) : '\n' ∉ zeros n := by
  simp [zeros]

theorem lineBreak_notMem_sign (negative : Bool) : '\n' ∉ sign negative := by
  cases negative
  · decide
  · decide

theorem lineBreak_notMem_writePositional (hl : l.OnOneLine) (hdigits : '\n' ∉ digits)
    (exponent : Int) : '\n' ∉ l.writePositional digits exponent := by
  have hafter : '\n' ∉ l.afterWhole.toList := hl.afterWhole
  unfold writePositional
  split
  · simp [lineBreak_notMem_zeros, hdigits]
  · dsimp only
    split
    · simp [lineBreak_notMem_zeros, hdigits, hafter]
    · have htake : '\n' ∉ digits.take (exponent.toNat + 1) := fun h =>
        hdigits (List.mem_of_mem_take h)
      have hdrop : '\n' ∉ digits.drop (exponent.toNat + 1) := fun h =>
        hdigits (List.mem_of_mem_drop h)
      simp [htake, hdrop]

theorem lineBreak_notMem_writeScientific (hl : l.OnOneLine) (hdigits : '\n' ∉ digits)
    (exponent : Int) : '\n' ∉ l.writeScientific digits exponent := by
  have hplus : '\n' ∉ l.plus.toList := hl.plus
  have htake : '\n' ∉ digits.take 1 := fun h => hdigits (List.mem_of_mem_take h)
  have hpoint : '\n' ∉ if digits.length ≤ 1 then [] else '.' :: digits.drop 1 := by
    have hdrop : '\n' ∉ '.' :: digits.drop 1 := by
      rw [List.mem_cons, not_or]
      exact ⟨by decide, fun h => hdigits (List.mem_of_mem_drop h)⟩
    split
    · exact List.not_mem_nil
    · exact hdrop
  have hsign : '\n' ∉ if exponent < 0 then [] else l.plus.toList := by
    split
    · exact List.not_mem_nil
    · exact hplus
  have hexponent := lineBreak_notMem_writeInt exponent
  simp only [writeScientific, List.mem_append, List.mem_cons, not_or]
  exact ⟨⟨⟨htake, hpoint⟩, by decide, hsign⟩, hexponent⟩

/-- In either notation. -/
theorem lineBreak_notMem_digits (hl : l.OnOneLine) (hdigits : '\n' ∉ digits) (exponent : Int) :
    '\n' ∉ if l.positional exponent then l.writePositional digits exponent
      else l.writeScientific digits exponent := by
  split
  · exact lineBreak_notMem_writePositional hl hdigits exponent
  · exact lineBreak_notMem_writeScientific hl hdigits exponent

theorem lineBreak_notMem_digitsAndExponent (d : Decimal) : '\n' ∉ (digitsAndExponent d).1 :=
  lineBreak_notMem_toDigits (by decide) d.significand

theorem lineBreak_notMem_dropEndWhile {p : Char → Bool} (hdigits : '\n' ∉ digits) :
    '\n' ∉ Text.dropEndWhile p digits := by
  intro h
  have hmem := (List.dropWhile_sublist p).mem (List.mem_reverse.mp h)
  exact hdigits (List.mem_reverse.mp hmem)

theorem lineBreak_notMem_writeMagnitude (hl : l.OnOneLine) (index : Nat) :
    '\n' ∉ l.writeMagnitude f index := by
  have hdigits := lineBreak_notMem_digitsAndExponent (f.shortestDecimal l.tie index)
  unfold writeMagnitude
  by_cases hzero : index = 0
  · rw [if_pos hzero]
    exact lineBreak_notMem_digits hl (by decide) 0
  · rw [if_neg hzero]
    exact lineBreak_notMem_digits hl (lineBreak_notMem_dropEndWhile hdigits) _

/-- A number is written on one line if the texts of its layout are. -/
theorem isLine_render (hl : l.OnOneLine) (x : Binary f) : IsLine (l.render x) := by
  unfold render
  split
  · exact hl.nan
  · split
    · exact hl.infinity _
    · rw [isLine_ofList, List.mem_append, not_or]
      exact ⟨lineBreak_notMem_sign _, lineBreak_notMem_writeMagnitude hl _⟩

theorem isLine_renderRounded (places : Nat) (x : Binary f) : IsLine (renderRounded places x) := by
  unfold renderRounded
  split
  · exact onOneLine_scientific.nan
  · rename_i negative index _
    have hdigits := lineBreak_notMem_digitsAndExponent (f.roundedDecimal places index)
    have hsign := lineBreak_notMem_sign negative
    split
    · exact onOneLine_scientific.infinity negative
    · rw [isLine_ofList, List.mem_append, not_or]
      refine ⟨hsign, ?_⟩
      by_cases hzero : index = 0
      · rw [if_pos hzero]
        exact lineBreak_notMem_writeScientific onOneLine_scientific (lineBreak_notMem_zeros _) 0
      · rw [if_neg hzero]
        refine lineBreak_notMem_writeScientific onOneLine_scientific (fun h => ?_) _
        exact hdigits (List.mem_of_mem_take h)

end Layout

end RegionPooling
