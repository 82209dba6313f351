import RegionPooling.Json.Numeral

/-!
# Tokens of a document

`Token.scan` cuts a text into tokens. It stops at the first place where no token can begin
or a token breaks off, and leaves a `fault` token there, so a text always has a list of
tokens and whatever stands before a fault can still be used.
-/

namespace RegionPooling

/-- Why a text is not a document. -/
inductive Fault where
  | endOfText
  | unexpected
  | invalidNumber
  | numberTooLarge
  | invalidEscape
  | controlCharacter
  | unpairedSurrogate
  | trailingText
  | tooDeep
  deriving DecidableEq

/-- A token of a document. -/
inductive Token where
  | openBracket
  | closeBracket
  | openBrace
  | closeBrace
  | comma
  | colon
  | null
  | bool (value : Bool)
  /-- A numeral; without a value if that would be too large. -/
  | number (value : Option Number)
  /-- A string; without a value if it holds half of a surrogate pair. -/
  | string (value : Option String)
  /-- A place where no token begins or one breaks off. -/
  | fault (reason : Fault)
  deriving DecidableEq

namespace Token

/-! ## Strings -/

/-- A part of a string: a character, or a code unit of sixteen bits given by its number. -/
inductive Part where
  | char (c : Char)
  | unit (code : Nat)

def hexValue? (c : Char) : Option Nat :=
  if c.isDigit then some (c.toNat - '0'.toNat)
  else if 'a' ≤ c ∧ c ≤ 'f' then some (c.toNat - 'a'.toNat + 10)
  else if 'A' ≤ c ∧ c ≤ 'F' then some (c.toNat - 'A'.toNat + 10)
  else none

/-- The number written in four hexadecimal digits. -/
def unitValue? (a b c d : Char) : Option Nat := do
  return (((← hexValue? a) * 16 + (← hexValue? b)) * 16 + (← hexValue? c)) * 16 + (← hexValue? d)

/-- What a backslash and one more character stand for. -/
def escaped? : Char → Option Char
  | '"' => some '"'
  | '\\' => some '\\'
  | '/' => some '/'
  | 'b' => some '\x08'
  | 'f' => some '\x0c'
  | 'n' => some '\n'
  | 'r' => some '\r'
  | 't' => some '\t'
  | _ => none

/-- The parts of a string up to its closing quote, and the text after that. -/
def scanString : List Char → Except Fault (List Part × List Char)
  | [] => .error .endOfText
  | '"' :: rest => .ok ([], rest)
  | '\\' :: 'u' :: a :: b :: c :: d :: rest =>
    match unitValue? a b c d with
    | none => .error .invalidEscape
    | some code => (scanString rest).map fun (parts, rest) => (.unit code :: parts, rest)
  | '\\' :: c :: rest =>
    match escaped? c with
    | none => .error .invalidEscape
    | some c => (scanString rest).map fun (parts, rest) => (.char c :: parts, rest)
  | c :: rest =>
    if c.toNat < 0x20 then .error .controlCharacter
    else (scanString rest).map fun (parts, rest) => (.char c :: parts, rest)

/--
The characters of the parts. A leading surrogate and the trailing one after it form one
character; a surrogate on its own stands for none.
-/
def joinParts : List Part → Option (List Char)
  | [] => some []
  | .char c :: rest => (joinParts rest).map (c :: ·)
  | .unit code :: rest =>
    if code < 0xd800 ∨ 0xe000 ≤ code then (joinParts rest).map (Char.ofNat code :: ·)
    else if code < 0xdc00 then
      -- A leading surrogate needs its partner next, in the same spelling.
      match rest with
      | .unit second :: rest =>
        if 0xdc00 ≤ second ∧ second < 0xe000 then
          let c := Char.ofNat (0x10000 + (code - 0xd800) * 0x400 + (second - 0xdc00))
          (joinParts rest).map (c :: ·)
        else none
      | _ => none
    else none

/-! ## Numerals -/

/-- The digits at the front of a text and what follows them. -/
def spanDigits (text : List Char) : List Char × List Char :=
  (text.takeWhile Char.isDigit, text.dropWhile Char.isDigit)

/-- The fraction at the front of a text, if a point stands there; it needs a digit. -/
def scanFraction : List Char → Option (Option (List Char) × List Char)
  | '.' :: rest =>
    let (digits, rest) := spanDigits rest
    if digits = [] then none else some (some digits, rest)
  | text => some (none, text)

/-- The digits of an exponent, with its sign; one digit is needed. -/
def scanExponentDigits (negative : Bool) (text : List Char) :
    Option (Option Int × List Char) :=
  let (digits, rest) := spanDigits text
  if digits = [] then none
  else
    let exponent : Int := (Nat.ofDigitChars 10 digits 0 : Nat)
    some (some (if negative then -exponent else exponent), rest)

/-- The exponent at the front of a text, if its mark stands there. -/
def scanExponent : List Char → Option (Option Int × List Char)
  | c :: rest =>
    if c = 'e' ∨ c = 'E' then
      match rest with
      | '+' :: rest => scanExponentDigits false rest
      | '-' :: rest => scanExponentDigits true rest
      | rest => scanExponentDigits false rest
    else some (none, c :: rest)
  | [] => some (none, [])

/-- The numeral at the front of a text. The whole part has no needless leading zero. -/
def scanNumeral (negative : Bool) (text : List Char) : Option (Numeral × List Char) := do
  let (whole, rest) := spanDigits text
  if whole = [] ∨ (whole.head? = some '0' ∧ 1 < whole.length) then none
  let (fraction, rest) ← scanFraction rest
  let (exponent, rest) ← scanExponent rest
  return ({ negative, whole, fraction, exponent }, rest)

/-! ## Lengths -/

/-- A reading that goes on behind a longer text leaves less than that text. -/
private theorem shorter_of_map {text rest : List Char}
    {reading : Except Fault (List Part × List Char)} {part : Part} (hlt : rest.length < text.length)
    (ih : ∀ read, reading = .ok read → read.2.length < rest.length) {read : List Part × List Char}
    (h : (reading.map fun (parts, rest) => (part :: parts, rest)) = .ok read) :
    read.2.length < text.length := by
  cases reading with
  | error _ => simp [Except.map] at h
  | ok inner =>
    simp only [Except.map, Except.ok.injEq] at h
    subst h
    exact Nat.lt_trans (ih inner rfl) hlt

theorem length_spanDigits_le (text : List Char) : (spanDigits text).2.length ≤ text.length :=
  (List.dropWhile_sublist _).length_le

theorem length_scanString_lt (text : List Char) :
    ∀ read, scanString text = .ok read → read.2.length < text.length := by
  fun_induction scanString text with
  | case1 => simp
  | case2 => rintro _ ⟨⟩; simp
  | case3 => simp
  | case4 _ _ _ _ _ _ _ ih => exact fun _ => shorter_of_map (by grind) ih
  | case5 => simp
  | case6 _ _ _ _ _ ih => exact fun _ => shorter_of_map (by grind) ih
  | case7 => simp
  | case8 _ _ _ _ _ _ ih => exact fun _ => shorter_of_map (by grind) ih

theorem length_scanFraction_le (text : List Char) :
    ∀ read, scanFraction text = some read → read.2.length ≤ text.length := by
  intro read h
  unfold scanFraction at h
  split at h
  · simp only at h
    split at h
    · cases h
    · cases h
      exact Nat.le_trans (length_spanDigits_le _) (Nat.le_succ _)
  · cases h
    exact Nat.le_refl _

theorem length_scanExponentDigits_le (negative : Bool) (text : List Char) :
    ∀ read, scanExponentDigits negative text = some read → read.2.length ≤ text.length := by
  intro read h
  simp only [scanExponentDigits] at h
  split at h
  · cases h
  · cases h
    exact length_spanDigits_le text

theorem length_scanExponent_le (text : List Char) :
    ∀ read, scanExponent text = some read → read.2.length ≤ text.length := by
  intro read h
  unfold scanExponent at h
  split at h
  · split at h
    · split at h <;> have := length_scanExponentDigits_le _ _ read h <;> simp_all <;> omega
    · cases h
      exact Nat.le_refl _
  · cases h
    exact Nat.le_refl _

theorem length_scanNumeral_lt (negative : Bool) (text : List Char) :
    ∀ read, scanNumeral negative text = some read → read.2.length < text.length := by
  intro read h
  simp only [scanNumeral, Option.bind_eq_bind] at h
  split at h
  · cases h
  · rename_i hwhole
    obtain ⟨fraction, hfraction, h⟩ := Option.bind_eq_some_iff.1 h
    obtain ⟨exponent, hexponent, h⟩ := Option.bind_eq_some_iff.1 h
    cases h
    have hne : (spanDigits text).1 ≠ [] := fun h => hwhole (Or.inl h)
    have happend : (spanDigits text).1 ++ (spanDigits text).2 = text :=
      List.takeWhile_append_dropWhile
    have hlength := congrArg List.length happend
    have hpos := List.length_pos_iff.2 hne
    have := length_scanFraction_le _ _ hfraction
    have := length_scanExponent_le _ _ hexponent
    simp only [List.length_append] at hlength
    simp only
    omega

/-! ## The scanner -/

/-- Blanks between tokens. -/
def isSpace (c : Char) : Bool := c == ' ' || c == '\n' || c == '\r' || c == '\t'

/-- The tokens that are one character, and those that are a word, given by the rest of it. -/
def fixed? (c : Char) (rest : List Char) : Option (Token × List Char) :=
  match c with
  | '[' => some (.openBracket, rest)
  | ']' => some (.closeBracket, rest)
  | '\x7b' => some (.openBrace, rest)
  | '\x7d' => some (.closeBrace, rest)
  | ',' => some (.comma, rest)
  | ':' => some (.colon, rest)
  | _ =>
    if c = 'n' ∧ rest.take 3 = "ull".toList then some (.null, rest.drop 3)
    else if c = 't' ∧ rest.take 3 = "rue".toList then some (.bool true, rest.drop 3)
    else if c = 'f' ∧ rest.take 4 = "alse".toList then some (.bool false, rest.drop 4)
    else none

theorem length_fixed_le {c : Char} {rest : List Char} {read : Token × List Char}
    (h : fixed? c rest = some read) : read.2.length ≤ rest.length := by
  unfold fixed? at h
  repeat' split at h
  all_goals cases h
  all_goals simp

/-- The tokens of a text, up to the first fault. -/
def scan : List Char → List Token
  | [] => []
  | c :: rest =>
    if isSpace c then scan rest
    else if c = '"' then
      match h : scanString rest with
      | .error reason => [.fault reason]
      | .ok (parts, rest') =>
        have := length_scanString_lt rest _ h
        .string ((joinParts parts).map String.ofList) :: scan rest'
    else if c = '-' then
      match h : scanNumeral true rest with
      | none => [.fault .invalidNumber]
      | some (numeral, rest') =>
        have := length_scanNumeral_lt true rest _ h
        .number numeral.value? :: scan rest'
    else if c.isDigit then
      match h : scanNumeral false (c :: rest) with
      | none => [.fault .invalidNumber]
      | some (numeral, rest') =>
        have := length_scanNumeral_lt false (c :: rest) _ h
        .number numeral.value? :: scan rest'
    else
      match h : fixed? c rest with
      | none => [.fault .unexpected]
      | some (token, rest') =>
        have := length_fixed_le h
        token :: scan rest'
termination_by text => text.length
decreasing_by all_goals simp_all; try omega

end Token

end RegionPooling
