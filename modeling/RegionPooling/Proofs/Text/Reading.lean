import Mathlib.Data.List.TakeWhile
import RegionPooling.Proofs.Json.Numeral
import RegionPooling.Text.Blank

/-!
# Texts taken apart

What is left of a text when characters are dropped at its ends, and which texts are numerals.
Each function that takes a text apart is described by
how the text is put together from what the function gives back, so that a reader of texts can
be compared with the way its texts may be written.

Main results:

* `Text.trim_eq_iff` — a text is trimmed to what stands between its blanks.
* `Text.readNumeral_eq_ok_iff` — the numerals of numbers up to a limit, with their values.
-/

namespace RegionPooling.Text

/-! ## Dropping characters at the ends -/

section Dropping

variable {p : Char → Bool} {text rest core : List Char}

theorem eq_false_of_head?_dropWhile {c : Char} (h : (text.dropWhile p).head? = some c) :
    p c = false := by
  have hhead := List.head?_dropWhile_not p text
  rw [h] at hhead
  exact hhead

theorem dropWhile_eq_iff : text.dropWhile p = rest ↔
    ∃ dropped, text = dropped ++ rest ∧ (∀ c ∈ dropped, p c = true) ∧
      ∀ c, rest.head? = some c → p c = false := by
  constructor
  · rintro rfl
    exact ⟨text.takeWhile p, List.takeWhile_append_dropWhile.symm,
      fun c hc => List.mem_takeWhile_imp hc, fun c => eq_false_of_head?_dropWhile⟩
  · rintro ⟨dropped, rfl, hdropped, hrest⟩
    rw [List.dropWhile_append_of_pos hdropped]
    cases rest with
    | nil => rfl
    | cons c rest =>
      have hc : ¬p c = true := by simp [hrest c rfl]
      exact List.dropWhile_cons_of_neg hc

/-- At the end of a text it is the same as at the beginning, read backwards. -/
theorem dropEndWhile_eq_iff : dropEndWhile p text = rest ↔
    ∃ dropped, text = rest ++ dropped ∧ (∀ c ∈ dropped, p c = true) ∧
      ∀ c, rest.getLast? = some c → p c = false := by
  rw [dropEndWhile, List.reverse_eq_iff, dropWhile_eq_iff, List.head?_reverse]
  constructor
  · rintro ⟨dropped, htext, hdropped, hrest⟩
    refine ⟨dropped.reverse, ?_, fun c hc => hdropped c (List.mem_reverse.mp hc), hrest⟩
    rw [← List.reverse_reverse text, htext, List.reverse_append, List.reverse_reverse]
  · rintro ⟨dropped, rfl, hdropped, hrest⟩
    refine ⟨dropped.reverse, List.reverse_append, fun c hc => ?_, hrest⟩
    exact hdropped c (List.mem_reverse.mp hc)

/-- The text is `core` between blanks, and `core` neither begins nor ends with one. -/
structure HasCore (text core : List Char) : Prop where
  around : ∃ before after, text = before ++ core ++ after ∧
    (∀ c ∈ before, isBlank c = true) ∧ ∀ c ∈ after, isBlank c = true
  head : ∀ c, core.head? = some c → isBlank c = false
  last : ∀ c, core.getLast? = some c → isBlank c = false

theorem trim_eq_nil_iff : trim text = [] ↔ ∀ c ∈ text, isBlank c = true := by
  rw [trim, dropEndWhile, List.reverse_eq_nil_iff, List.dropWhile_eq_nil_iff]
  constructor
  · intro h c hc
    rw [← List.takeWhile_append_dropWhile (p := isBlank) (l := text)] at hc
    rcases List.mem_append.mp hc with hc | hc
    · exact List.mem_takeWhile_imp hc
    · exact h c (List.mem_reverse.mpr hc)
  · intro h c hc
    exact h c ((List.dropWhile_sublist isBlank).mem (List.mem_reverse.mp hc))

theorem trim_eq_iff : trim text = core ↔ HasCore text core := by
  rw [trim, dropEndWhile_eq_iff]
  constructor
  · rintro ⟨after, hrest, hafter, hlast⟩
    obtain ⟨before, htext, hbefore, hhead⟩ := dropWhile_eq_iff.mp hrest
    refine ⟨⟨before, after, by rw [htext, List.append_assoc], hbefore, hafter⟩, fun c hc => ?_, hlast⟩
    exact hhead c (by rw [List.head?_append, hc, Option.some_or])
  · rintro ⟨⟨before, after, rfl, hbefore, hafter⟩, hhead, hlast⟩
    cases core with
    | nil =>
      -- Nothing but blanks: all of them are dropped at the beginning.
      refine ⟨[], ?_, nofun, hlast⟩
      rw [List.append_nil, List.append_nil, List.dropWhile_eq_nil_iff]
      intro c hc
      exact (List.mem_append.mp hc).elim (hbefore c) (hafter c)
    | cons c core =>
      refine ⟨after, dropWhile_eq_iff.mpr ⟨before, List.append_assoc .., hbefore, ?_⟩, hafter, hlast⟩
      intro d hd
      exact hhead d hd

end Dropping

/-! ## Parts between separators -/

theorem parts_of_notMem {separator : Char} {text : List Char} (h : separator ∉ text) :
    parts separator text = [text] := by
  induction text with
  | nil => rfl
  | cons c rest ih =>
    obtain ⟨hc, hrest⟩ := not_or.mp (List.mem_cons.not.mp h)
    rw [parts, if_neg (Ne.symm hc), ih hrest, List.modifyHead_cons]

/-! ## Numerals -/

/-- One or more decimal digits, with the number that they denote; a plus may be in front. -/
structure IsNumeral (text : List Char) (n : Nat) : Prop where
  digits : ∃ sign digits, text = sign ++ digits ∧ (sign = [] ∨ sign = ['+']) ∧ digits ≠ [] ∧
    (∀ c ∈ digits, c.isDigit = true) ∧ Nat.ofDigitChars 10 digits 0 = n

theorem toNat_of_isDigit {c : Char} (h : c.isDigit = true) : 48 ≤ c.toNat ∧ c.toNat ≤ 57 := by
  simpa [Char.isDigit, UInt32.le_iff_toNat_le] using h

theorem isBlank_of_isDigit {c : Char} (h : c.isDigit = true) : isBlank c = false := by
  have hbounds := toNat_of_isDigit h
  simp only [isBlank, Bool.or_eq_false_iff, decide_eq_false_iff_not, beq_eq_false_iff_ne, ne_eq]
  omega

/-- Digits are read if they are digits, and the number is within the limit once it is read. -/
theorem readDigits_eq_ok_iff {limit value n : Nat} {text : List Char} (hvalue : value ≤ limit) :
    readDigits limit value text = .ok n ↔
      (∀ c ∈ text, c.isDigit = true) ∧ Nat.ofDigitChars 10 text value = n ∧ n ≤ limit := by
  -- Along the text, with the number so far. It only grows, so it is never above the last one.
  induction text generalizing value with
  | nil =>
    rw [readDigits, Nat.ofDigitChars_nil]
    constructor
    · rintro ⟨⟩
      exact ⟨nofun, rfl, hvalue⟩
    · rintro ⟨-, rfl, -⟩
      rfl
  | cons c rest ih =>
    have hnext : value * 10 + digitValue c = 10 * value + (c.toNat - '0'.toNat) := by
      rw [Nat.mul_comm, digitValue]
    rw [readDigits, Nat.ofDigitChars_cons, List.forall_mem_cons, hnext]
    split
    · rename_i hc
      dsimp only
      split
      · rename_i hle
        rw [ih hle]
        exact ⟨fun h => ⟨⟨hc, h.1⟩, h.2⟩, fun h => ⟨h.1.2, h.2⟩⟩
      · rename_i hgt
        refine ⟨fun h => (by cases h), ?_⟩
        rintro ⟨-, rfl, hle⟩
        exact absurd (Nat.le_trans (Numeral.le_ofDigitChars rest _) hle) hgt
    · rename_i hc
      exact ⟨fun h => (by cases h), fun h => absurd h.1.1 hc⟩

/-- The first character decides whether there is a sign. -/
theorem readNumeral_cons {limit : Nat} {c : Char} {rest : List Char} (hc : c ≠ '+') :
    readNumeral limit (c :: rest) = readDigits limit 0 (c :: rest) := by
  unfold readNumeral
  split
  · rename_i h
    cases h
  · rename_i h
    exact absurd (List.cons.inj h).1 hc
  · rename_i h
    exact absurd (List.cons.inj h).1 hc
  · rfl

theorem readNumeral_plus {limit : Nat} {digits : List Char} (h : digits ≠ []) :
    readNumeral limit ('+' :: digits) = readDigits limit 0 digits := by
  cases digits with
  | nil => exact absurd rfl h
  | cons c rest => rfl

theorem readNumeral_eq_ok_iff {limit n : Nat} {text : List Char} :
    readNumeral limit text = .ok n ↔ IsNumeral text n ∧ n ≤ limit := by
  constructor
  · intro h
    cases text with
    | nil => cases h
    | cons c rest =>
      by_cases hc : c = '+'
      · subst hc
        have hne : rest ≠ [] := by
          rintro rfl
          cases h
        rw [readNumeral_plus hne] at h
        obtain ⟨hdigits, hvalue, hle⟩ := (readDigits_eq_ok_iff (Nat.zero_le limit)).mp h
        exact ⟨⟨['+'], rest, rfl, .inr rfl, hne, hdigits, hvalue⟩, hle⟩
      · rw [readNumeral_cons hc] at h
        obtain ⟨hdigits, hvalue, hle⟩ := (readDigits_eq_ok_iff (Nat.zero_le limit)).mp h
        exact ⟨⟨[], c :: rest, rfl, .inl rfl, List.cons_ne_nil _ _, hdigits, hvalue⟩, hle⟩
  · rintro ⟨⟨sign, digits, rfl, hsign, hne, hdigits, hvalue⟩, hle⟩
    have hread : readDigits limit 0 digits = .ok n :=
      (readDigits_eq_ok_iff (Nat.zero_le limit)).mpr ⟨hdigits, hvalue, hle⟩
    rcases hsign with rfl | rfl
    · -- Without a sign the text begins with a digit, which is no plus.
      obtain ⟨c, rest, rfl⟩ := List.exists_cons_of_ne_nil hne
      have hc : c ≠ '+' := by
        rintro rfl
        exact absurd (hdigits '+' List.mem_cons_self) (by decide)
      rw [List.nil_append, readNumeral_cons hc, hread]
    · rw [List.singleton_append, readNumeral_plus hne, hread]

/-- The decimal digits of a number, which are how a number is printed. -/
theorem isNumeral_toDigits (n : Nat) : IsNumeral (Nat.toDigits 10 n) n where
  digits := ⟨[], Nat.toDigits 10 n, rfl, .inl rfl, Nat.toDigits_ne_nil,
    fun _ hc => Nat.isDigit_of_mem_toDigits (by decide) (by decide) hc,
    Nat.ofDigitChars_ten_toDigits⟩

namespace IsNumeral

variable {text : List Char} {n : Nat}

/-- The characters of numerals. -/
theorem isDigit_or_plus (h : IsNumeral text n) {c : Char} (hc : c ∈ text) :
    c.isDigit = true ∨ c = '+' := by
  obtain ⟨sign, digits, rfl, hsign, -, hdigits, -⟩ := h.digits
  rcases List.mem_append.mp hc with hc | hc
  · rcases hsign with rfl | rfl
    · cases hc
    · exact .inr (List.mem_singleton.mp hc)
  · exact .inl (hdigits c hc)

theorem isBlank_eq_false (h : IsNumeral text n) {c : Char} (hc : c ∈ text) :
    isBlank c = false := by
  rcases h.isDigit_or_plus hc with hdigit | rfl
  · exact isBlank_of_isDigit hdigit
  · rfl

theorem ne_nil (h : IsNumeral text n) : text ≠ [] := by
  obtain ⟨sign, digits, rfl, -, hne, -, -⟩ := h.digits
  exact List.append_ne_nil_of_right_ne_nil sign hne

end IsNumeral

end RegionPooling.Text
