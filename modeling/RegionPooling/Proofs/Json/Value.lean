import RegionPooling.Json.Decode
import RegionPooling.Proofs.Decimal.Widened
import RegionPooling.Proofs.Json.Printing

/-!
# Values printed and read back

A value is printed with eight-byte numbers, and what is read from its text is a value again
(`Json.parse_compact`). The numbers in it need not be the same: a decimal of up to eighteen digits
is read in several roundings. Numbers that were widened from four bytes come out so close to where
they were that they are the same numbers in four bytes (`Single.exists_read_widened`).
-/

namespace RegionPooling

namespace Single

open Format (double single)

/-- The text of a widened magnitude is a numeral that stands for the four-byte one. -/
theorem exists_numeral_widened (negative : Bool) {i : Nat} (hi : i < single.infinityIndex) :
    ∃ (n : Numeral) (j : Nat) (hj : j ≤ double.infinityIndex), n.negative = negative ∧
      n.StandsFor i ∧ ((.number negative i hi.le : Single).convert : Double) =
        .number negative j hj ∧
      j ≠ double.infinityIndex ∧ Layout.jsonDouble.writeMagnitude .double j = n.writeUnsigned := by
  cases i with
  | zero =>
    obtain ⟨n, hnegative, hdenotes, htext⟩ := Layout.exists_numeral_zero .double negative
      (show (-5 : Int) ≤ 0 by decide) (show (0 : Int) ≤ 15 by decide)
    have hconvert : ((.number negative 0 hi.le : Single).convert : Double) =
        .number negative 0 (Nat.zero_le _) := by
      cases negative
      · rfl
      · rfl
    exact ⟨n, 0, Nat.zero_le _, hnegative, ⟨_, hdenotes, Nat.zero_le _, zero_reads_back⟩, hconvert,
      by decide, htext⟩
  | succ i =>
    obtain ⟨j, hj, hconvert, hlt, hvalue⟩ := exists_widened_index hi negative
    have hdecimal := widenedDecimal_shortest .toEven hi hlt hvalue
    obtain ⟨n, s, t, hnegative, hs, hsignificand, hdenotes, htext⟩ :=
      Layout.exists_numeral_shortest .double (-5) negative
        (show (15 : Int) < (16 : Nat) by decide) j
    refine ⟨n, j + 1, hj, hnegative, ?_, hconvert, hlt.ne, htext⟩
    have hsame := Decimal.value_eq_of_significand hsignificand
    generalize double.shortestDecimal .toEven (j + 1) = d at *
    have hle : s * 1 ≤ s * 10 ^ t := Nat.mul_le_mul_left _ (Nat.pow_pos (by decide))
    have hdigits := hdecimal.significand_le
    rcases hdenotes with hdenotes | ⟨k, hk, hfull, hdenotes⟩
    · -- The digits without the zeros at the end.
      have hlimit : s ≤ 0xFFFFFFFFFFFFFFFF := by omega
      have hexponent : d.exponent + t < 40 :=
        Decimal.exponent_lt_of_value_lt hs (hsame ▸ hdecimal.value_high)
      have hlowest := hdecimal.exponent
      have hrange : (d.exponent + (t : Int)).natAbs ≤ 70 := by omega
      refine ⟨_, hdenotes, hlimit, ?_⟩
      exact widened_reads_back hi hdecimal hs (show s ≤ 2 ^ 64 by omega) hrange hsame.symm
    · -- A whole number in tenths.
      have hlimit : s * 10 ^ k * 10 ≤ 0xFFFFFFFFFFFFFFFF := by omega
      have htenths : Decimal.value ⟨s * 10 ^ k * 10, -1⟩ = d.value := by
        rw [hsame, hk, Decimal.value_tenths, Decimal.value_natCast]
        push_cast
        rfl
      have hpos : 0 < s * 10 ^ k * 10 :=
        Nat.mul_pos (Nat.mul_pos hs (Nat.pow_pos (by decide))) (by decide)
      have hrange : (-1 : Int).natAbs ≤ 70 := by decide
      refine ⟨_, hdenotes, hlimit, ?_⟩
      exact widened_reads_back hi hdecimal hpos (show s * 10 ^ k * 10 ≤ 2 ^ 64 by omega) hrange
        htenths

/-- A finite number that is widened and printed is read as an eight-byte number that is rounded to
it. -/
theorem exists_read_widened {x : Single} (h : x.isFinite = true) :
    ∃ y : Double, Document.read (Number.real x.convert).text =
      (.number (some (.real y)), []) ∧ (y.convert : Single) = x := by
  obtain ⟨negative, i, hi, rfl, hne⟩ := Binary.exists_eq_number h
  obtain ⟨n, j, hj, rfl, hstands, hwidened, hfinite, htext⟩ :=
    exists_numeral_widened negative (lt_of_le_of_ne hi hne)
  obtain ⟨y, hvalue, hindex, hconvert⟩ := hstands.value?_eq
  obtain ⟨d, hdenotes, -⟩ := hstands
  refine ⟨y, ?_, hconvert⟩
  have hwrite : (Number.real (Binary.number n.negative i hi : Single).convert).text.toList =
      n.write := by
    rw [Number.text, hwidened, Layout.render, if_neg hfinite, String.toList_ofList, htext,
      Numeral.write]
  rw [Document.read_of_numeral hdenotes.wellFormed hwrite, hvalue]

end Single

/-- What is read from the text of a value, on one line, is what its numbers are read as. -/
theorem Json.parse_compact (v : Value) : Json.parse (Json.compact v) =
    ((Document.reading Number.text v).toValue depthLimit).mapError .malformed := by
  have hread : Document.read (Json.compact v) = (Document.reading Number.text v, []) :=
    Document.read_write Number.isScalar_text Spacing.compact_blank v 0
  rw [parse, Document.decode, hread]
  dsimp only
  cases (Document.reading Number.text v).toValue depthLimit with
  | error fault => rfl
  | ok value => rfl

end RegionPooling
