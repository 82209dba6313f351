import Mathlib.Tactic.Ring
import RegionPooling.Binary.Rounding

/-!
# Rounding is to the nearest value

`Format.nearestIndex` looks at the leading bits of a ratio, rounds what they scale down to,
and adds the index of the binade. This module relates it to `Format.units`, the value at an
index, and to nothing else: it fixes what it can represent, it is monotone, and it misses the
ratio by at most half the distance of its neighbours.

Every index is `shift * fractions + n` with `n` its significand (`index_eq`), and `units` of
such a sum is `n * 2 ^ shift` (`units_shift`), also for the first `n` that no longer fits
below the next binade. The rounded quotient may be just that.

Main results:

* `Format.units_strictMono` — larger indices stand for larger values.
* `Format.nearestIndex_units` — a value of the format is its own nearest one.
* `Format.nearestIndex_mono` — rounding respects the order of ratios.
* `Format.nearestIndex_error` — the error of a result below infinity.
-/

namespace RegionPooling.Format

variable (f : Format)

theorem fractions_pos : 0 < f.fractions := Nat.pow_pos (by decide)

theorem unitsPerOne_pos : 0 < f.unitsPerOne := Nat.pow_pos (by decide)

/-! ## Indices and values -/

theorem index_eq (i : Nat) : i = f.doublings i * f.fractions + f.significand i := by
  have hpos := f.fractions_pos
  unfold doublings significand
  by_cases h : i < f.fractions
  · rw [if_pos h, Nat.div_eq_of_lt h]
    omega
  · have hone : 1 ≤ i / f.fractions := Nat.div_pos (by omega) hpos
    rw [if_neg h, Nat.sub_mul, Nat.one_mul]
    have hmul : f.fractions ≤ i / f.fractions * f.fractions := Nat.le_mul_of_pos_left _ hone
    have hmod := Nat.div_add_mod' i f.fractions
    omega

theorem significand_lt (i : Nat) : f.significand i < 2 * f.fractions := by
  have hpos := f.fractions_pos
  unfold significand
  split
  · omega
  · have := Nat.mod_lt i hpos
    omega

/-- Only the significands of the first binade may lack the leading bit. -/
theorem doublings_eq_zero_or (i : Nat) : f.doublings i = 0 ∨ f.fractions ≤ f.significand i := by
  unfold doublings significand
  by_cases h : i < f.fractions
  · rw [Nat.div_eq_of_lt h]
    exact Or.inl rfl
  · rw [if_neg h]
    exact Or.inr (Nat.le_add_right ..)

/-- The value at an index that is put together from a shift and a rounded quotient. -/
theorem units_shift (shift : Nat) {n : Nat} (hn : n ≤ 2 * f.fractions)
    (h : shift = 0 ∨ f.fractions ≤ n) : f.units (shift * f.fractions + n) = n * 2 ^ shift := by
  have hpos := f.fractions_pos
  unfold units significand doublings
  by_cases hsmall : n < f.fractions
  · have hshift : shift = 0 := by omega
    subst hshift
    rw [Nat.zero_mul, Nat.zero_add, if_pos hsmall, Nat.div_eq_of_lt hsmall]
  · have hnot : ¬ shift * f.fractions + n < f.fractions := by omega
    rw [if_neg hnot]
    by_cases hfull : n = 2 * f.fractions
    · -- The carry: the first value of the next binade.
      have hsum : shift * f.fractions + n = (shift + 2) * f.fractions := by rw [hfull]; ring
      rw [hsum, Nat.mul_div_cancel _ hpos, Nat.mul_mod_left, Nat.add_zero, hfull]
      show f.fractions * 2 ^ (shift + 1) = _
      ring
    · have hsum : shift * f.fractions + n = (n - f.fractions) + (shift + 1) * f.fractions := by
        rw [Nat.succ_mul]
        omega
      have hlt : n - f.fractions < f.fractions := by omega
      rw [hsum, Nat.add_mul_div_right _ _ hpos, Nat.add_mul_mod_self_right,
        Nat.div_eq_of_lt hlt, Nat.mod_eq_of_lt hlt]
      congr 1
      · omega
      · congr 1
        omega

/-- Neighbouring indices are as far apart as their common binade says. -/
theorem units_succ (i : Nat) : f.units (i + 1) = f.units i + 2 ^ f.doublings i := by
  have hlt := f.significand_lt i
  have hnext : i + 1 = f.doublings i * f.fractions + (f.significand i + 1) := by
    have := f.index_eq i
    omega
  have hleading : f.doublings i = 0 ∨ f.fractions ≤ f.significand i + 1 :=
    (f.doublings_eq_zero_or i).imp_right fun h => by omega
  -- The next index has the next significand, which may already be that of a carry.
  rw [hnext, f.units_shift _ (by omega) hleading, units]
  ring

theorem units_strictMono : StrictMono f.units :=
  strictMono_nat_of_lt_succ fun i => by
    rw [f.units_succ]
    exact Nat.lt_add_of_pos_right (Nat.pow_pos (by decide))

/-- A number of few bits is a value of the format, however often it is doubled. -/
theorem exists_units_eq {m : Nat} (hm : m ≤ 2 * f.fractions) (e : Nat) :
    ∃ i, f.units i = m * 2 ^ e := by
  -- Doublings are moved into the significand until it has its leading bit.
  induction e generalizing m with
  | zero => exact ⟨m, by simpa using f.units_shift 0 hm (Or.inl rfl)⟩
  | succ e ih =>
    by_cases h : f.fractions ≤ m
    · exact ⟨(e + 1) * f.fractions + m, f.units_shift _ hm (Or.inr h)⟩
    · obtain ⟨i, hi⟩ := ih (m := 2 * m) (by omega)
      refine ⟨i, ?_⟩
      rw [hi]
      ring

/-! ## Quotients -/

/-- The rounded quotient misses by at most a half. -/
theorem divToEven_error (num : Nat) {den : Nat} (hden : 0 < den) :
    2 * (divToEven num den * den) ≤ 2 * num + den ∧
      2 * num ≤ 2 * (divToEven num den * den) + den := by
  have hdiv := Nat.div_add_mod' num den
  have hmod := Nat.mod_lt num hden
  simp only [divToEven]
  generalize num / den = q at hdiv ⊢
  generalize num % den = r at hdiv hmod ⊢
  have hnext : (q + 1) * den = q * den + den := Nat.succ_mul q den
  split
  · omega
  · split
    · omega
    · -- A tie: both neighbours are half a step away.
      rcases Nat.mod_two_eq_zero_or_one q with h | h
      · rw [h, Nat.add_zero]
        omega
      · rw [h]
        omega

theorem divToEven_mono {num num' : Nat} (den : Nat) (h : num ≤ num') :
    divToEven num den ≤ divToEven num' den := by
  have hquotient := Nat.div_le_div_right (c := den) h
  have hdiv := Nat.div_add_mod' num den
  have hdiv' := Nat.div_add_mod' num' den
  simp only [divToEven]
  -- With one quotient for both the remainders decide; otherwise one step up is still in order.
  by_cases heq : num / den = num' / den
  · rw [heq] at hdiv ⊢
    split <;> split <;> (try split) <;> (try split) <;> omega
  · have hlt : num / den + 1 ≤ num' / den := by omega
    split <;> split <;> (try split) <;> (try split) <;> omega

theorem divToEven_mul_self {den : Nat} (n : Nat) (hden : 0 < den) :
    divToEven (n * den) den = n := by
  simp [divToEven, Nat.mul_div_cancel _ hden, hden]

/-! ## Rounding -/

/-- How far a ratio is scaled down before it is rounded. -/
def shiftOf (num den : Nat) : Nat := (num / den).log2 - f.fractionBits

/-- The index that rounding gives where nothing is too large. -/
def unboundedIndex (num den : Nat) : Nat :=
  f.shiftOf num den * f.fractions + divToEven num (den * 2 ^ f.shiftOf num den)

theorem nearestIndex_eq (num den : Nat) :
    f.nearestIndex num den = min f.infinityIndex (f.unboundedIndex num den) := rfl

/-- The ratio, scaled down, has the bits of a significand and possibly some after them. -/
theorem scaled_lt (num : Nat) {den : Nat} (hden : 0 < den) :
    num < 2 * f.fractions * (den * 2 ^ f.shiftOf num den) := by
  have hlog : num / den < 2 ^ ((num / den).log2 + 1) := Nat.lt_log2_self
  have hpow : 2 ^ ((num / den).log2 + 1) ≤ 2 ^ (1 + f.fractionBits + f.shiftOf num den) :=
    Nat.pow_le_pow_right (by decide) (by unfold shiftOf; omega)
  have hlt := (Nat.div_lt_iff_lt_mul hden).mp (Nat.lt_of_lt_of_le hlog hpow)
  rw [Nat.pow_add, Nat.pow_add] at hlt
  calc num < 2 ^ 1 * 2 ^ f.fractionBits * 2 ^ f.shiftOf num den * den := hlt
    _ = 2 * f.fractions * (den * 2 ^ f.shiftOf num den) := by unfold fractions; ring

/-- Where anything is scaled down at all, the leading bit stays. -/
theorem le_scaled {num den : Nat} (hden : 0 < den) (hshift : f.shiftOf num den ≠ 0) :
    f.fractions * (den * 2 ^ f.shiftOf num den) ≤ num := by
  have hne : num / den ≠ 0 := by
    intro hzero
    apply hshift
    rw [shiftOf, hzero, Nat.log2_zero, Nat.zero_sub]
  have hlog : 2 ^ (num / den).log2 ≤ num / den := Nat.log2_self_le hne
  have hsum : (num / den).log2 = f.fractionBits + f.shiftOf num den := by
    unfold shiftOf at hshift ⊢
    omega
  rw [hsum, Nat.le_div_iff_mul_le hden, Nat.pow_add] at hlog
  calc f.fractions * (den * 2 ^ f.shiftOf num den)
      = 2 ^ f.fractionBits * 2 ^ f.shiftOf num den * den := by unfold fractions; ring
    _ ≤ num := hlog

theorem quotient_bounds (num : Nat) {den : Nat} (hden : 0 < den) :
    divToEven num (den * 2 ^ f.shiftOf num den) ≤ 2 * f.fractions ∧
      (f.shiftOf num den = 0 ∨
        f.fractions ≤ divToEven num (den * 2 ^ f.shiftOf num den)) := by
  have hstep : 0 < den * 2 ^ f.shiftOf num den := Nat.mul_pos hden (Nat.pow_pos (by decide))
  constructor
  · calc divToEven num (den * 2 ^ f.shiftOf num den)
        ≤ divToEven (2 * f.fractions * (den * 2 ^ f.shiftOf num den)) _ :=
          divToEven_mono _ (Nat.le_of_lt (f.scaled_lt _ hden))
      _ = 2 * f.fractions := divToEven_mul_self _ hstep
  · by_cases hshift : f.shiftOf num den = 0
    · exact Or.inl hshift
    · right
      calc f.fractions
          = divToEven (f.fractions * (den * 2 ^ f.shiftOf num den)) _ :=
            (divToEven_mul_self _ hstep).symm
        _ ≤ divToEven num (den * 2 ^ f.shiftOf num den) :=
            divToEven_mono _ (f.le_scaled hden hshift)

theorem units_unboundedIndex {num den : Nat} (hden : 0 < den) :
    f.units (f.unboundedIndex num den) =
      divToEven num (den * 2 ^ f.shiftOf num den) * 2 ^ f.shiftOf num den :=
  f.units_shift _ (f.quotient_bounds _ hden).1 (f.quotient_bounds _ hden).2

/-- The value found is off by at most half the distance of neighbours in its binade. -/
theorem unboundedIndex_error {num den : Nat} (hden : 0 < den) :
    2 * (f.units (f.unboundedIndex num den) * den) ≤ 2 * num + den * 2 ^ f.shiftOf num den ∧
      2 * num ≤ 2 * (f.units (f.unboundedIndex num den) * den)
        + den * 2 ^ f.shiftOf num den := by
  have hstep : 0 < den * 2 ^ f.shiftOf num den := Nat.mul_pos hden (Nat.pow_pos (by decide))
  have herror := divToEven_error num hstep
  have hunits : f.units (f.unboundedIndex num den) * den =
      divToEven num (den * 2 ^ f.shiftOf num den) * (den * 2 ^ f.shiftOf num den) := by
    rw [f.units_unboundedIndex hden]
    ring
  rw [hunits]
  exact herror

theorem shiftOf_mono {num num' : Nat} (den : Nat) (h : num ≤ num') :
    f.shiftOf num den ≤ f.shiftOf num' den := by
  have hdiv : num / den ≤ num' / den := Nat.div_le_div_right h
  have hlog : (num / den).log2 ≤ (num' / den).log2 := by
    by_cases hzero : num / den = 0
    · rw [hzero, Nat.log2_zero]
      exact Nat.zero_le _
    · have hne : num' / den ≠ 0 :=
        Nat.ne_of_gt (Nat.lt_of_lt_of_le (Nat.pos_of_ne_zero hzero) hdiv)
      exact (Nat.le_log2 hne).mpr (Nat.le_trans (Nat.log2_self_le hzero) hdiv)
  exact Nat.sub_le_sub_right hlog _

/-- Among ratios over one denominator, rounding is monotone. -/
theorem unboundedIndex_mono {num num' den : Nat} (hden : 0 < den) (h : num ≤ num') :
    f.unboundedIndex num den ≤ f.unboundedIndex num' den := by
  rcases Nat.eq_or_lt_of_le (f.shiftOf_mono den h) with heq | hlt
  · unfold unboundedIndex
    rw [heq]
    exact Nat.add_le_add_left (divToEven_mono _ h) _
  · -- A larger shift: the smaller result ends where the binade of the larger one begins.
    have hupper := (f.quotient_bounds num hden).1
    have hlower := (f.quotient_bounds num' hden).2.resolve_left (by omega)
    have hshift : (f.shiftOf num den + 1) * f.fractions ≤ f.shiftOf num' den * f.fractions :=
      Nat.mul_le_mul_right _ hlt
    rw [Nat.add_mul, Nat.one_mul] at hshift
    unfold unboundedIndex
    omega

theorem shiftOf_mul_right (num den : Nat) {c : Nat} (hc : 0 < c) :
    f.shiftOf (num * c) (den * c) = f.shiftOf num den := by
  rw [shiftOf, shiftOf, Nat.mul_div_mul_right _ _ hc]

theorem unboundedIndex_mul_right (num den : Nat) {c : Nat} (hc : 0 < c) :
    f.unboundedIndex (num * c) (den * c) = f.unboundedIndex num den := by
  have hden : den * c * 2 ^ f.shiftOf num den = den * 2 ^ f.shiftOf num den * c := by ring
  rw [unboundedIndex, unboundedIndex, f.shiftOf_mul_right _ _ hc, hden,
    divToEven_mul_right _ _ hc]

/-- Rounding respects the order of ratios. -/
theorem nearestIndex_mono {num den num' den' : Nat} (hden : 0 < den) (hden' : 0 < den')
    (h : num * den' ≤ num' * den) : f.nearestIndex num den ≤ f.nearestIndex num' den' := by
  -- Both ratios are brought over the product of their denominators.
  rw [nearestIndex_eq, nearestIndex_eq, ← f.unboundedIndex_mul_right num den hden',
    ← f.unboundedIndex_mul_right num' den' hden, Nat.mul_comm den' den]
  exact min_le_min_left _ (f.unboundedIndex_mono (Nat.mul_pos hden hden') h)

/-- The index of a value of the format is found again. -/
theorem nearestIndex_units {i : Nat} (hi : i ≤ f.infinityIndex) {den : Nat} (hden : 0 < den) :
    f.nearestIndex (f.units i * den) den = i := by
  -- The leading bit of a value says how often its significand was doubled.
  have hshift : f.shiftOf (f.units i * den) den = f.doublings i := by
    have hlt := f.significand_lt i
    rw [shiftOf, Nat.mul_div_cancel _ hden, units]
    rcases f.doublings_eq_zero_or i with hzero | hleading
    · rw [hzero, Nat.pow_zero, Nat.mul_one]
      by_cases hs : f.significand i = 0
      · rw [hs, Nat.log2_zero, Nat.zero_sub]
      · have hlog : (f.significand i).log2 < f.fractionBits + 1 :=
          (Nat.log2_lt hs).mpr (by rw [Nat.pow_succ, Nat.mul_comm]; exact hlt)
        omega
    · have hpos := f.fractions_pos
      have hlog : (f.significand i).log2 = f.fractionBits :=
        (Nat.log2_eq_iff (by omega)).mpr ⟨hleading, by rw [Nat.pow_succ, Nat.mul_comm]; exact hlt⟩
      rw [log2_mul_two_pow (by omega), hlog]
      omega
  have hunits : f.units i * den = f.significand i * (den * 2 ^ f.doublings i) := by
    rw [units]
    ring
  rw [nearestIndex_eq, unboundedIndex, hshift, hunits,
    divToEven_mul_self _ (Nat.mul_pos hden (Nat.pow_pos (by decide))), ← f.index_eq]
  exact Nat.min_eq_right hi

/-- Below infinity the result is off by at most half a step of its binade. -/
theorem nearestIndex_error {num den : Nat} (hden : 0 < den)
    (h : f.nearestIndex num den < f.infinityIndex) :
    2 * (f.units (f.nearestIndex num den) * den) ≤ 2 * num + den * 2 ^ f.shiftOf num den ∧
      2 * num ≤ 2 * (f.units (f.nearestIndex num den) * den)
        + den * 2 ^ f.shiftOf num den := by
  have heq : f.nearestIndex num den = f.unboundedIndex num den := by
    rw [nearestIndex_eq] at h ⊢
    omega
  rw [heq]
  exact f.unboundedIndex_error hden

end RegionPooling.Format
