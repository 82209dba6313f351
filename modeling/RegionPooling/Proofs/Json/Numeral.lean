import RegionPooling.Proofs.Json.Token

/-!
# Numerals as they are written

`Numeral.write` is the text of a numeral, and `Token.scan` finds a numeral again in front of
anything that does not go on with it (`Token.scan_write`). Its significand and exponent are what
the digits say, as long as the digits fit a machine word (`Numeral.gather_eq`).

Main results:

* `Token.scan_write` — a written numeral is read as one number token.
* `Numeral.value?_whole` — the value of a numeral without fraction and exponent.
* `Numeral.value?_eq_scale` — and of any other one.
-/

namespace RegionPooling

/-! ## Gathering digits -/

namespace Numeral

/-- Digits never make a number smaller. -/
theorem le_ofDigitChars (digits : List Char) (n : Nat) : n ≤ Nat.ofDigitChars 10 digits n := by
  induction digits generalizing n with
  | nil => exact Nat.le_refl n
  | cons c rest ih =>
    rw [Nat.ofDigitChars_cons]
    exact Nat.le_trans (by omega) (ih _)

/-- Digits of the whole part that fit are all taken in. -/
theorem foldl_addWhole (digits : List Char) (n : Nat) (exponent : Int)
    (h : Nat.ofDigitChars 10 digits n ≤ significandLimit) :
    digits.foldl Gathered.addWhole (⟨n, exponent, false⟩ : Gathered) =
      (⟨Nat.ofDigitChars 10 digits n, exponent, false⟩ : Gathered) := by
  induction digits generalizing n with
  | nil => rfl
  | cons c rest ih =>
    -- No digit makes the number smaller, so it fits after this digit as it does after the last.
    rw [Nat.ofDigitChars_cons] at h ⊢
    have hnext : n * 10 + Text.digitValue c = 10 * n + (c.toNat - '0'.toNat) := by
      rw [Nat.mul_comm, Text.digitValue]
    have hle := Nat.le_trans (le_ofDigitChars rest _) h
    rw [List.foldl_cons, Gathered.addWhole]
    simp only [hnext, Bool.not_false, Bool.true_and, decide_eq_true hle, if_true]
    exact ih _ h

/-- And so are those of the fraction, each of which lowers the exponent. -/
theorem foldl_addFraction (digits : List Char) (n : Nat) (exponent : Int)
    (h : Nat.ofDigitChars 10 digits n ≤ significandLimit) :
    digits.foldl Gathered.addFraction (⟨n, exponent, false⟩ : Gathered) =
      (⟨Nat.ofDigitChars 10 digits n, exponent - digits.length, false⟩ : Gathered) := by
  induction digits generalizing n exponent with
  | nil =>
    rw [List.foldl_nil, Nat.ofDigitChars_nil, List.length_nil, Int.natCast_zero, Int.sub_zero]
  | cons c rest ih =>
    rw [Nat.ofDigitChars_cons] at h ⊢
    have hnext : n * 10 + Text.digitValue c = 10 * n + (c.toNat - '0'.toNat) := by
      rw [Nat.mul_comm, Text.digitValue]
    have hle := Nat.le_trans (le_ofDigitChars rest _) h
    rw [List.foldl_cons, Gathered.addFraction]
    simp only [hnext, Bool.not_false, Bool.true_and, decide_eq_true hle, if_true]
    rw [ih _ _ h, List.length_cons]
    congr 1
    omega

/-- The digits of a numeral before and after the point. -/
def digits (n : Numeral) : List Char := n.whole ++ n.fraction.getD []

theorem gatherWhole_eq {n : Numeral} (h : Nat.ofDigitChars 10 n.whole 0 ≤ significandLimit) :
    n.gatherWhole = ⟨Nat.ofDigitChars 10 n.whole 0, 0, false⟩ :=
  foldl_addWhole _ _ _ h

/-- The significand is that of all digits, and the exponent counts those after the point. -/
theorem gather_eq {n : Numeral} (h : Nat.ofDigitChars 10 n.digits 0 ≤ significandLimit) :
    n.gather = ⟨Nat.ofDigitChars 10 n.digits 0,
      n.exponent.getD 0 - (n.fraction.getD []).length, false⟩ := by
  -- The whole part has the fewer digits, so it fits as well.
  rw [digits, Nat.ofDigitChars_append] at h ⊢
  rw [gather, gatherWhole_eq (Nat.le_trans (le_ofDigitChars _ _) h)]
  simp only [foldl_addFraction _ _ _ h]
  congr 1
  omega

/-- Without fraction and exponent a numeral is a whole number. -/
theorem value?_whole {n : Numeral} (hfraction : n.fraction = none) (hexponent : n.exponent = none)
    (h : Nat.ofDigitChars 10 n.whole 0 ≤ significandLimit) :
    n.value? = some (wholeNumber n.negative (Nat.ofDigitChars 10 n.whole 0)) := by
  unfold value?
  rw [gatherWhole_eq h, hfraction, hexponent]
  rfl

/-- With either of them it is a significand, multiplied or divided by a power of ten. -/
theorem value?_eq_scale {n : Numeral} (hmark : n.fraction ≠ none ∨ n.exponent ≠ none)
    (h : Nat.ofDigitChars 10 n.digits 0 ≤ significandLimit) :
    n.value? = (scale (Binary.ofNat (Nat.ofDigitChars 10 n.digits 0))
      (n.exponent.getD 0 - (n.fraction.getD []).length)).map fun x =>
        .real (if n.negative then x.neg else x) := by
  have hnot : (n.fraction.isNone && n.exponent.isNone && !n.gatherWhole.full) = false := by
    rcases hmark with hmark | hmark
    · simp [Option.isNone_iff_eq_none, hmark]
    · simp [Option.isNone_iff_eq_none, hmark]
  unfold value?
  simp only [hnot, gather_eq h]
  rfl

/-! ## Writing -/

/-- The text of a fraction. -/
def writeFraction : Option (List Char) → List Char
  | some digits => '.' :: digits
  | none => []

/-- The text of an exponent, always with its sign. -/
def writeExponent : Option Int → List Char
  | some exponent => 'e' :: (if exponent < 0 then [] else ['+']) ++ Layout.writeInt exponent
  | none => []

/-- The text of a numeral behind its sign. -/
def writeUnsigned (n : Numeral) : List Char :=
  n.whole ++ (writeFraction n.fraction ++ writeExponent n.exponent)

/-- The text of a numeral. -/
def write (n : Numeral) : List Char := Layout.sign n.negative ++ n.writeUnsigned

/-- Each part has a digit, and the whole part has no needless leading zero. -/
structure WellFormed (n : Numeral) : Prop where
  whole_ne_nil : n.whole ≠ []
  whole_digits : ∀ c ∈ n.whole, c.isDigit = true
  no_leading_zero : n.whole.head? = some '0' → n.whole.length ≤ 1
  fraction_ne_nil : ∀ digits, n.fraction = some digits → digits ≠ []
  fraction_digits : ∀ digits, n.fraction = some digits → ∀ c ∈ digits, c.isDigit = true

end Numeral

namespace Token

/-- What follows does not go on with a numeral. -/
def Ends (rest : List Char) : Prop :=
  ∀ c, rest.head? = some c → c.isDigit = false ∧ c ≠ '.' ∧ c ≠ 'e' ∧ c ≠ 'E'

/-- What follows does not go on with digits. -/
def EndsDigits (rest : List Char) : Prop := ∀ c, rest.head? = some c → c.isDigit = false

theorem Ends.endsDigits {rest : List Char} (h : Ends rest) : EndsDigits rest :=
  fun c hc => (h c hc).1

/-- The digits in front of something that is no digit. -/
theorem spanDigits_append {digits rest : List Char} (hdigits : ∀ c ∈ digits, c.isDigit = true)
    (hrest : EndsDigits rest) : spanDigits (digits ++ rest) = (digits, rest) := by
  have hnone : rest.takeWhile Char.isDigit = [] ∧ rest.dropWhile Char.isDigit = rest := by
    cases rest with
    | nil => exact ⟨rfl, rfl⟩
    | cons c rest =>
      have hc : ¬ c.isDigit = true := by rw [hrest c rfl]; exact Bool.false_ne_true
      exact ⟨List.takeWhile_cons_of_neg hc, List.dropWhile_cons_of_neg hc⟩
  rw [spanDigits, List.takeWhile_append_of_pos hdigits, List.dropWhile_append_of_pos hdigits,
    hnone.1, hnone.2, List.append_nil]

/-- The digits of a natural number are the digits of an exponent. -/
theorem scanExponentDigits_toDigits (negative : Bool) (n : Nat) {rest : List Char}
    (hrest : EndsDigits rest) :
    scanExponentDigits negative (Nat.toDigits 10 n ++ rest) =
      some (some (if negative then -(n : Int) else n), rest) := by
  have hdigits : ∀ c ∈ Nat.toDigits 10 n, c.isDigit = true := fun c hc =>
    Nat.isDigit_of_mem_toDigits (by decide) (by decide) hc
  have hne : Nat.toDigits 10 n ≠ [] := List.length_pos_iff.1 Nat.length_toDigits_pos
  simp only [scanExponentDigits, spanDigits_append hdigits hrest, if_neg hne,
    Nat.ofDigitChars_ten_toDigits]

theorem scanExponent_plus (text : List Char) :
    scanExponent ('e' :: '+' :: text) = scanExponentDigits false text := rfl

theorem scanExponent_minus (text : List Char) :
    scanExponent ('e' :: '-' :: text) = scanExponentDigits true text := rfl

/-- An exponent of either sign, or none. -/
theorem scanExponent_write (exponent : Option Int) {rest : List Char} (hrest : Ends rest) :
    scanExponent (Numeral.writeExponent exponent ++ rest) = some (exponent, rest) := by
  cases exponent with
  | none =>
    rw [Numeral.writeExponent, List.nil_append]
    cases rest with
    | nil => rfl
    | cons c rest =>
      obtain ⟨-, -, he, hE⟩ := hrest c rfl
      unfold scanExponent
      exact if_neg (not_or.2 ⟨he, hE⟩)
  | some exponent =>
    rw [Numeral.writeExponent, List.cons_append, List.cons_append, Layout.writeInt]
    by_cases hneg : exponent < 0
    · rw [if_pos hneg, if_pos hneg, List.nil_append, List.cons_append, scanExponent_minus,
        scanExponentDigits_toDigits true _ hrest.endsDigits, if_pos rfl]
      congr 3
      omega
    · rw [if_neg hneg, if_neg hneg, List.cons_append, List.nil_append, List.cons_append,
        scanExponent_plus, scanExponentDigits_toDigits false _ hrest.endsDigits,
        if_neg Bool.false_ne_true]
      congr 3
      omega

/-- An exponent, or what follows a numeral, does not go on with digits or a fraction. -/
theorem head?_writeExponent (exponent : Option Int) {rest : List Char} (hrest : Ends rest) :
    ∀ c, (Numeral.writeExponent exponent ++ rest).head? = some c → c.isDigit = false ∧ c ≠ '.' := by
  intro c hc
  cases exponent with
  | none => exact ⟨(hrest c hc).1, (hrest c hc).2.1⟩
  | some exponent =>
    obtain rfl : 'e' = c := Option.some.inj hc
    decide

/-- A fraction, or none. -/
theorem scanFraction_write {fraction : Option (List Char)}
    (hne : ∀ digits, fraction = some digits → digits ≠ [])
    (hdigits : ∀ digits, fraction = some digits → ∀ c ∈ digits, c.isDigit = true)
    {rest : List Char} (hrest : ∀ c, rest.head? = some c → c.isDigit = false ∧ c ≠ '.') :
    scanFraction (Numeral.writeFraction fraction ++ rest) = some (fraction, rest) := by
  cases fraction with
  | none =>
    rw [Numeral.writeFraction, List.nil_append]
    unfold scanFraction
    split
    · exact absurd rfl (hrest '.' rfl).2
    · rfl
  | some digits =>
    have hspan := spanDigits_append (hdigits digits rfl) fun c hc => (hrest c hc).1
    simp only [Numeral.writeFraction, List.cons_append, scanFraction, hspan,
      if_neg (hne digits rfl)]

/-- The parts of a numeral are found again in its text. -/
theorem scanNumeral_write {n : Numeral} (h : n.WellFormed) {rest : List Char} (hrest : Ends rest) :
    scanNumeral n.negative (n.writeUnsigned ++ rest) = some (n, rest) := by
  have hexponent := head?_writeExponent n.exponent hrest
  have hspan : spanDigits (n.whole ++ (Numeral.writeFraction n.fraction ++
        (Numeral.writeExponent n.exponent ++ rest))) =
      (n.whole, Numeral.writeFraction n.fraction ++ (Numeral.writeExponent n.exponent ++ rest)) := by
    apply spanDigits_append h.whole_digits
    intro c hc
    -- The point ends the whole part; without a fraction it is what ends a fraction.
    cases hfraction : n.fraction with
    | none =>
      rw [hfraction] at hc
      exact (hexponent c hc).1
    | some digits =>
      rw [hfraction] at hc
      obtain rfl : '.' = c := Option.some.inj hc
      rfl
  have hzero : ¬ (n.whole = [] ∨ n.whole.head? = some '0' ∧ 1 < n.whole.length) := by
    rintro (hnil | ⟨hhead, hlength⟩)
    · exact h.whole_ne_nil hnil
    · exact absurd (h.no_leading_zero hhead) (by omega)
  simp only [scanNumeral, Numeral.writeUnsigned, List.append_assoc, hspan, if_neg hzero,
    scanFraction_write h.fraction_ne_nil h.fraction_digits hexponent, Option.bind_eq_bind,
    Option.bind_some, scanExponent_write n.exponent hrest]
  rfl

/-- A written numeral is one token. -/
theorem scan_write {n : Numeral} (h : n.WellFormed) {rest : List Char} (hrest : Ends rest) :
    scan (n.write ++ rest) = .number n.value? :: scan rest := by
  have hscan := scanNumeral_write h hrest
  cases hneg : n.negative with
  | true =>
    rw [hneg] at hscan
    rw [Numeral.write, hneg]
    exact scan_minus hscan
  | false =>
    rw [hneg] at hscan
    -- Without a sign the first digit tells that a numeral begins.
    obtain ⟨c, digits, hwhole⟩ := List.exists_cons_of_ne_nil h.whole_ne_nil
    have hdigit : c.isDigit = true := h.whole_digits c (hwhole ▸ List.mem_cons_self)
    rw [Numeral.write, hneg]
    simp only [Numeral.writeUnsigned, hwhole] at hscan ⊢
    exact scan_digit hdigit hscan

end Token

end RegionPooling
