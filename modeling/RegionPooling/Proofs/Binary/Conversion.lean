import RegionPooling.Proofs.Binary.Double
import RegionPooling.Proofs.Binary.Single

/-!
# Conversion between the formats

A conversion is one rounding of the value, like any other operation. From four bytes to eight
nothing is lost, so the way there and back changes nothing, not even the sign of a zero. A whole
number that is converted by way of eight bytes is rounded twice. Up to `2 ^ 53` the first of the
two roundings does nothing; beyond, the second one can be left with a tie that is not one.

Main results:

* `Binary.eq_of_value_eq` — a number that is not zero is known by its value.
* `Binary.isRounding_convert` — a conversion rounds the value.
* `Single.convert_convert` — from four bytes to eight and back.
* `Single.convert_ofInt` — small whole numbers by way of eight bytes.
* `Single.pos_convert_ofInt_iff` — the sign of a whole number survives both roundings.
-/

namespace RegionPooling

namespace Binary

variable {f g : Format}

/-- A number that is not zero is known by its value. -/
theorem eq_of_value_eq {x y : Binary f} (hx : x ≠ nan) (hy : y ≠ nan) (h : x.value = y.value)
    (hne : x.value ≠ 0) : x = y := by
  cases x with
  | nan => exact absurd rfl hx
  | number s i hi =>
    cases y with
    | nan => exact absurd rfl hy
    | number t j hj =>
      have hunits := (unitsPerOne_pos f).ne'
      rw [value_number, value_number, div_left_inj' hunits, Int.cast_inj] at h
      have hpos : f.units i ≠ 0 := by
        intro hzero
        rw [value_number, hzero] at hne
        cases s <;> simp [signed] at hne
      -- The signs agree, as the magnitude is not zero, and then so do the magnitudes.
      have hsplit : s = t ∧ f.units i = f.units j := by
        cases s <;> cases t <;> simp [signed] at h ⊢ <;> omega
      obtain ⟨rfl, hij⟩ := hsplit
      obtain rfl := f.units_strictMono.injective hij
      rfl

/-- Two roundings of one rational number have the same value. -/
theorem IsRounding.value_unique {q : ℚ} {x y : Binary f} (hx : IsRounding q x)
    (hy : IsRounding q y) : x.value = y.value :=
  le_antisymm (hx.mono hy (le_refl q)) (hy.mono hx (le_refl q))

/-- A conversion rounds the value. -/
theorem isRounding_convert {x : Binary f} (hx : x.isFinite = true) :
    IsRounding x.value (x.convert : Binary g) := by
  obtain ⟨s, i, hi, rfl, hi'⟩ := exists_eq_number hx
  refine ⟨s, f.significand i * 2 ^ (f.doublings i + g.unitExponent), 2 ^ f.unitExponent,
    Nat.pow_pos (by decide), ?_, ?_⟩
  · simp only [convert, if_neg hi', ofScaled_eq]
  · have hunits := (unitsPerOne_pos g).ne'
    have hscaled : f.significand i * 2 ^ (f.doublings i + g.unitExponent) =
        f.units i * g.unitsPerOne := by
      rw [Format.units, Format.unitsPerOne, Nat.pow_add, Nat.mul_assoc]
    rw [value_number, hscaled, signed_mul_natCast, Int.cast_mul, Int.cast_natCast,
      show (2 ^ f.unitExponent : Nat) = f.unitsPerOne from rfl, div_right_comm,
      mul_div_cancel_right₀ _ hunits]

end Binary

namespace Single

open Binary (IsRounding)

/-- Four-byte numbers are eight-byte numbers too. -/
theorem exists_double_value_eq {x : Single} (hx : x.isFinite = true) :
    ∃ y : Double, y.isFinite = true ∧ y.value = x.value := by
  obtain ⟨s, i, hi, rfl, hi'⟩ := Binary.exists_eq_number hx
  have hsignificand : Format.single.significand i ≤ 2 ^ 53 :=
    (Format.single.significand_lt i).le.trans (by decide)
  have hdoublings : Format.single.doublings i ≤ 900 := by
    calc Format.single.doublings i
        ≤ Format.single.doublings Format.single.infinityIndex :=
          Nat.sub_le_sub_right (Nat.div_le_div_right hi) 1
      _ ≤ 900 := by decide
  obtain ⟨y, hy, hvalue⟩ :=
    Double.exists_value_eq hsignificand hdoublings (show 149 ≤ 1074 by decide)
  have hmagnitude : y.value = Format.single.units i / Format.single.unitsPerOne := by
    rw [hvalue, Single.unitsPerOne_eq, Format.units]
    push_cast
    rfl
  cases s with
  | false => exact ⟨y, hy, by rw [hmagnitude, Binary.value_number]; rfl⟩
  | true =>
    refine ⟨y.neg, Binary.isFinite_neg hy, ?_⟩
    rw [Binary.value_neg, hmagnitude, Binary.value_number]
    simp [Binary.signed, neg_div]

/-- From four bytes to eight and back is no way at all. -/
theorem convert_convert {x : Single} (hx : x.isFinite = true) :
    ((x.convert : Double).convert : Single) = x := by
  obtain ⟨y, hy, hvalue⟩ := exists_double_value_eq hx
  have hwide := Binary.isRounding_convert (g := .double) hx
  have hexact := hwide.value_eq (Binary.ne_nan_of_isFinite hy) hvalue.symm
  have hfinite := hwide.isFinite_of_abs_le hy (by rw [hvalue])
  have hback := Binary.isRounding_convert (g := .single) hfinite
  have hnan := Binary.ne_nan_of_isFinite hx
  have hsame := hback.value_eq hnan hexact
  rw [hexact] at hsame
  by_cases hzero : x.value = 0
  · -- Zero has two signs, and each of them is kept.
    obtain ⟨s, i, hi, rfl, hi'⟩ := Binary.exists_eq_number hx
    obtain rfl : i = 0 := by
      by_contra hne
      have hpos := Format.single.units_strictMono (Nat.pos_of_ne_zero hne)
      have habs := Binary.abs_value_number (f := .single) s i hi
      rw [hzero, abs_zero, eq_comm, div_eq_zero_iff] at habs
      have hunits := (Binary.unitsPerOne_pos .single).ne'
      have : Format.single.units i = 0 := by exact_mod_cast habs.resolve_right hunits
      omega
    cases s
    · rfl
    · rfl
  · exact Binary.eq_of_value_eq hback.ne_nan hnan hsame (by rwa [hsame])

/-! ## Whole numbers by way of eight bytes -/

variable {n : Int}

/-- The first of the two roundings of a whole number that fits a machine word. -/
theorem double_ofInt_bounds (hn : |n| ≤ 2 ^ 64) :
    (Binary.ofInt n : Double).isFinite = true ∧ |(Binary.ofInt n : Double).value| ≤ 2 ^ 64 ∧
      (0 < n → 1 ≤ (Binary.ofInt n : Double).value) ∧
      (n ≤ 0 → (Binary.ofInt n : Double).value ≤ 0) := by
  have hrounding := Binary.isRounding_ofInt (f := .double) n
  obtain ⟨y, hy, hvalue⟩ := Double.exists_value_eq (m := 1) (by decide) (show 64 ≤ 900 by decide)
    (Nat.zero_le 1074)
  have hy64 : y.value = 2 ^ 64 := by rw [hvalue]; norm_num
  have habs : |(n : ℚ)| ≤ 2 ^ 64 := by exact_mod_cast hn
  obtain ⟨hlower, hupper⟩ := abs_le.mp habs
  have hnan := Binary.ne_nan_of_isFinite hy
  refine ⟨hrounding.isFinite_of_abs_le hy ?_, abs_le.mpr ⟨?_, ?_⟩, fun hpos => ?_, fun hneg => ?_⟩
  · rw [hy64]
    exact habs.trans (le_abs_self _)
  · have hge := hrounding.le_value (Binary.ne_nan_of_isFinite (Binary.isFinite_neg hy))
      (by rw [Binary.value_neg, hy64]; exact hlower)
    rwa [Binary.value_neg, hy64] at hge
  · rw [← hy64]
    exact hrounding.value_le hnan (by rwa [hy64])
  · obtain ⟨hone, hvalue⟩ := Double.ofNat_exact (n := 1) (by decide)
    rw [Nat.cast_one] at hvalue
    rw [← hvalue]
    exact hrounding.le_value (Binary.ne_nan_of_isFinite hone)
      (by rw [hvalue]; exact_mod_cast hpos)
  · have hle := hrounding.value_le (Binary.zero_ne_nan false)
      (by rw [Binary.value_zero]; exact_mod_cast hneg)
    rwa [Binary.value_zero] at hle

/-- A rounding of what is large or not positive is finite, and as positive as that. -/
theorem isFinite_pos_iff {q : ℚ} {x : Single} (h : IsRounding q x) (hq : |q| ≤ 2 ^ 64)
    (hgap : 1 ≤ q ∨ q ≤ 0) : x.isFinite = true ∧ (0 < x.value ↔ 1 ≤ q) := by
  refine ⟨Single.isFinite_of_abs_le h (hq.trans (by norm_num)), ?_⟩
  obtain ⟨hone, hvalue⟩ := Single.one_exact
  rcases hgap with hpos | hneg
  · have hge := h.le_value (Binary.ne_nan_of_isFinite hone) (by rwa [hvalue])
    rw [hvalue] at hge
    exact iff_of_true (by linarith) hpos
  · have hle := h.value_le (Binary.zero_ne_nan false) (by rwa [Binary.value_zero])
    rw [Binary.value_zero] at hle
    exact iff_of_false (by linarith) (by linarith)

/-- However often a whole number is rounded, the result is finite, and positive if it is. -/
theorem pos_convert_ofInt_iff (hn : |n| ≤ 2 ^ 64) :
    ((Binary.ofInt n : Double).convert : Single).isFinite = true ∧
      (Binary.ofInt n : Single).isFinite = true ∧
      (0 < ((Binary.ofInt n : Double).convert : Single).value ↔
        0 < (Binary.ofInt n : Single).value) := by
  obtain ⟨hfinite, habs, hpos, hneg⟩ := double_ofInt_bounds hn
  have hgap : 1 ≤ (Binary.ofInt n : Double).value ∨ (Binary.ofInt n : Double).value ≤ 0 := by
    rcases lt_or_ge 0 n with h | h
    · exact .inl (hpos h)
    · exact .inr (hneg h)
  have hgap' : 1 ≤ (n : ℚ) ∨ (n : ℚ) ≤ 0 := by
    rcases lt_or_ge 0 n with h | h
    · exact .inl (by exact_mod_cast h)
    · exact .inr (by exact_mod_cast h)
  obtain ⟨htwice, htwicePos⟩ := isFinite_pos_iff (Binary.isRounding_convert hfinite) habs hgap
  obtain ⟨honce, honcePos⟩ := isFinite_pos_iff (Binary.isRounding_ofInt n)
    (by exact_mod_cast hn) hgap'
  refine ⟨htwice, honce, ?_⟩
  rw [htwicePos, honcePos]
  rcases lt_or_ge 0 n with h | h
  · exact iff_of_true (hpos h) (by exact_mod_cast h)
  · refine iff_of_false (by linarith [hneg h]) ?_
    have : (n : ℚ) ≤ 0 := by exact_mod_cast h
    linarith

/-- Eight bytes hold whole numbers of up to 53 bits. -/
theorem exists_double_value_eq_intCast (hn : |n| ≤ 2 ^ 53) :
    ∃ y : Double, y.isFinite = true ∧ y.value = n := by
  have hle : n.natAbs ≤ 2 ^ 53 := by
    rw [Int.abs_eq_natAbs] at hn
    exact_mod_cast hn
  obtain ⟨hfinite, hvalue⟩ := Double.ofNat_exact hle
  rw [Nat.cast_natAbs] at hvalue
  rcases le_total 0 n with hpos | hneg
  · exact ⟨_, hfinite, by rw [hvalue, abs_of_nonneg hpos]⟩
  · refine ⟨_, Binary.isFinite_neg hfinite, ?_⟩
    rw [Binary.value_neg, hvalue, abs_of_nonpos hneg, Int.cast_neg, neg_neg]

/-- Whole numbers that eight bytes hold are rounded once. -/
theorem convert_ofInt (hn : |n| ≤ 2 ^ 53) :
    ((Binary.ofInt n : Double).convert : Single) = Binary.ofInt n := by
  by_cases hzero : n = 0
  · subst hzero
    decide +kernel
  obtain ⟨y, hy, hvalue⟩ := exists_double_value_eq_intCast hn
  have hwide := Binary.isRounding_ofInt (f := .double) n
  have hexact := hwide.value_eq (Binary.ne_nan_of_isFinite hy) hvalue.symm
  have hfinite := hwide.isFinite_of_abs_le hy (by rw [hvalue])
  have htwice := Binary.isRounding_convert (g := .single) hfinite
  rw [hexact] at htwice
  have honce := Binary.isRounding_ofInt (f := .single) n
  have hsame := htwice.value_unique honce
  refine Binary.eq_of_value_eq htwice.ne_nan honce.ne_nan hsame ?_
  -- A whole number that is not zero does not round to zero.
  rw [hsame]
  obtain ⟨hone, hvalueOne⟩ := Single.one_exact
  have hnan := Binary.ne_nan_of_isFinite hone
  rcases lt_or_gt_of_ne hzero with hneg | hpos
  · have hle := honce.value_le (Binary.ne_nan_of_isFinite (Binary.isFinite_neg hone)) (by
      rw [Binary.value_neg, hvalueOne]
      exact_mod_cast (show n ≤ -1 by omega))
    rw [Binary.value_neg, hvalueOne] at hle
    linarith
  · have hge := honce.le_value hnan (by
      rw [hvalueOne]
      exact_mod_cast (show 1 ≤ n by omega))
    rw [hvalueOne] at hge
    linarith

end Single

end RegionPooling
