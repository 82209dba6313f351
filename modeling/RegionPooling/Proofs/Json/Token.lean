import RegionPooling.Json.Printer
import RegionPooling.Json.Token

/-!
# Tokens in front of a text

`Token.scan` takes a text one token at a time. For each kind of token there is an equation for
a text that begins with it. The equation for strings says that an escaped string is read as
the string it stands for (`Token.scan_writeString`): every character is written either as
itself, with a backslash, or by its number, and all three are undone by the reader.

Main results:

* `Token.scan_writeString` — a written string is read as one string token.
* `Token.scan_blank` — blanks between tokens are passed over.
-/

namespace RegionPooling.Token

/-! ## One token -/

theorem scan_space {c : Char} (h : isSpace c = true) (rest : List Char) :
    scan (c :: rest) = scan rest := by
  rw [scan, if_pos h]

/-- Blanks between tokens are passed over. -/
theorem scan_blank {blank : List Char} (h : ∀ c ∈ blank, isSpace c = true) (rest : List Char) :
    scan (blank ++ rest) = scan rest := by
  induction blank with
  | nil => rfl
  | cons c blank ih =>
    rw [List.cons_append, scan_space (h c List.mem_cons_self)]
    exact ih fun c hc => h c (List.mem_cons_of_mem _ hc)

theorem scan_quote {rest after : List Char} {parts : List Part}
    (h : scanString rest = .ok (parts, after)) :
    scan ('"' :: rest) = .string ((joinParts parts).map String.ofList) :: scan after := by
  rw [scan, if_neg (by decide), if_pos rfl]
  split
  · simp_all
  · simp_all

theorem scan_minus {rest after : List Char} {numeral : Numeral}
    (h : scanNumeral true rest = some (numeral, after)) :
    scan ('-' :: rest) = .number numeral.value? :: scan after := by
  rw [scan, if_neg (by decide), if_neg (by decide), if_pos rfl]
  split
  · simp_all
  · simp_all

theorem scan_digit {c : Char} {rest after : List Char} {numeral : Numeral}
    (hdigit : c.isDigit = true) (h : scanNumeral false (c :: rest) = some (numeral, after)) :
    scan (c :: rest) = .number numeral.value? :: scan after := by
  -- A digit is none of the characters that are looked for before it.
  have hspace : ¬ isSpace c = true := by
    intro hspace
    simp only [isSpace, Bool.or_eq_true, beq_iff_eq] at hspace
    rcases hspace with ((rfl | rfl) | rfl) | rfl <;> exact absurd hdigit (by decide)
  have hquote : ¬ c = '"' := by
    rintro rfl
    exact absurd hdigit (by decide)
  have hminus : ¬ c = '-' := by
    rintro rfl
    exact absurd hdigit (by decide)
  rw [scan, if_neg hspace, if_neg hquote, if_neg hminus, if_pos hdigit]
  split
  · simp_all
  · simp_all

theorem scan_fixed {c : Char} {rest after : List Char} {token : Token}
    (hspace : isSpace c = false) (hquote : c ≠ '"') (hminus : c ≠ '-') (hdigit : c.isDigit = false)
    (h : fixed? c rest = some (token, after)) : scan (c :: rest) = token :: scan after := by
  rw [scan, if_neg (by simp [hspace]), if_neg hquote, if_neg hminus, if_neg (by simp [hdigit])]
  split
  · simp_all
  · simp_all

theorem scan_openBracket (rest : List Char) : scan ('[' :: rest) = .openBracket :: scan rest :=
  scan_fixed rfl (by decide) (by decide) rfl rfl

theorem scan_closeBracket (rest : List Char) : scan (']' :: rest) = .closeBracket :: scan rest :=
  scan_fixed rfl (by decide) (by decide) rfl rfl

theorem scan_openBrace (rest : List Char) : scan ('\x7b' :: rest) = .openBrace :: scan rest :=
  scan_fixed rfl (by decide) (by decide) rfl rfl

theorem scan_closeBrace (rest : List Char) : scan ('\x7d' :: rest) = .closeBrace :: scan rest :=
  scan_fixed rfl (by decide) (by decide) rfl rfl

theorem scan_comma (rest : List Char) : scan (',' :: rest) = .comma :: scan rest :=
  scan_fixed rfl (by decide) (by decide) rfl rfl

theorem scan_colon (rest : List Char) : scan (':' :: rest) = .colon :: scan rest :=
  scan_fixed rfl (by decide) (by decide) rfl rfl

theorem scan_null (rest : List Char) : scan ("null".toList ++ rest) = .null :: scan rest :=
  scan_fixed rfl (by decide) (by decide) rfl rfl

theorem scan_true (rest : List Char) : scan ("true".toList ++ rest) = .bool true :: scan rest :=
  scan_fixed rfl (by decide) (by decide) rfl rfl

theorem scan_false (rest : List Char) : scan ("false".toList ++ rest) = .bool false :: scan rest :=
  scan_fixed rfl (by decide) (by decide) rfl rfl

/-! ## Strings -/

/-- A hexadecimal digit is read as the number it was written for. -/
theorem hexValue?_digitChar : ∀ d < 16, hexValue? (Nat.digitChar d) = some d := by
  decide

/-- Four hexadecimal digits give a code unit back. -/
theorem unitValue?_hexDigits {n : Nat} (h : n < 0x10000) :
    unitValue? (Nat.digitChar (n / 4096 % 16)) (Nat.digitChar (n / 256 % 16))
      (Nat.digitChar (n / 16 % 16)) (Nat.digitChar (n % 16)) = some n := by
  have hdigit (d : Nat) : hexValue? (Nat.digitChar (d % 16)) = some (d % 16) :=
    hexValue?_digitChar _ (Nat.mod_lt _ (by decide))
  simp only [unitValue?, hdigit, Option.bind_eq_bind, Option.bind_some, Option.pure_def]
  congr 1
  omega

/-- The part of a string that a written character is read as. -/
def part (c : Char) : Part :=
  if c.toNat < 0x20 ∧ c ≠ '\x08' ∧ c ≠ '\x0c' ∧ c ≠ '\n' ∧ c ≠ '\r' ∧ c ≠ '\t' then .unit c.toNat
  else .char c

/-- A character that needs no escape stands for itself. -/
theorem scanString_plain {c : Char} (hquote : c ≠ '"') (hbackslash : c ≠ '\\')
    (hlow : ¬ c.toNat < 0x20) (rest : List Char) :
    scanString (c :: rest) =
      (scanString rest).map fun (parts, rest) => (.char c :: parts, rest) := by
  rw [scanString, if_neg hlow]
  · exact hquote
  · rintro _ _ _ _ _ rfl _
    exact hbackslash rfl
  · rintro _ _ rfl _
    exact hbackslash rfl

/-- A written character is one part of the string it stands in. -/
theorem scanString_escape (c : Char) (rest : List Char) :
    scanString (Json.escape c ++ rest) =
      (scanString rest).map fun (parts, rest) => (part c :: parts, rest) := by
  unfold Json.escape
  split
  case h_8 _ hquote hbackslash hb hf hn hr ht =>
    -- No letter stands for this character, so its number decides.
    split
    case isTrue hlow =>
      have hunit := unitValue?_hexDigits (Nat.lt_trans hlow (by decide : 0x20 < 0x10000))
      have hpart : part c = .unit c.toNat := if_pos ⟨hlow, hb, hf, hn, hr, ht⟩
      rw [hpart]
      simp only [Json.hexDigits, List.map_cons, List.map_nil, List.cons_append, List.nil_append,
        scanString, hunit]
    case isFalse hlow =>
      have hpart : part c = .char c := if_neg fun h => hlow h.1
      rw [hpart, List.singleton_append, scanString_plain hquote hbackslash hlow]
  all_goals rfl

/-- The number of a character that is no surrogate stands for that character. -/
theorem joinParts_unit {code : Nat} (h : code < 0xd800 ∨ 0xe000 ≤ code) (parts : List Part) :
    joinParts (.unit code :: parts) = (joinParts parts).map (Char.ofNat code :: ·) := by
  rw [joinParts.eq_def]
  exact if_pos h

theorem joinParts_part (c : Char) (parts : List Part) :
    joinParts (part c :: parts) = (joinParts parts).map (c :: ·) := by
  unfold part
  split
  case isTrue h =>
    have hlow : c.toNat < 0xd800 ∨ 0xe000 ≤ c.toNat := Or.inl (Nat.lt_trans h.1 (by decide))
    rw [joinParts_unit hlow, Char.ofNat_toNat]
  case isFalse => rfl

/-- The characters of a written string, up to its closing quote. -/
theorem scanString_flatMap (chars rest : List Char) :
    scanString (chars.flatMap Json.escape ++ '"' :: rest) = .ok (chars.map part, rest) := by
  induction chars with
  | nil => rfl
  | cons c chars ih =>
    rw [List.flatMap_cons, List.append_assoc, scanString_escape, ih]
    rfl

theorem joinParts_map (chars : List Char) : joinParts (chars.map part) = some chars := by
  induction chars with
  | nil => rfl
  | cons c chars ih =>
    rw [List.map_cons, joinParts_part, ih]
    rfl

/-- A written string is read as one token that holds it. -/
theorem scan_writeString (s : String) (rest : List Char) :
    scan (Json.writeString s ++ rest) = .string (some s) :: scan rest := by
  rw [Json.writeString, List.cons_append, List.cons_append, List.append_assoc,
    List.singleton_append, scan_quote (scanString_flatMap _ _), joinParts_map, Option.map_some, String.ofList_toList]

end RegionPooling.Token
