import RegionPooling.Proofs.Binary.Value

/-!
# The interval that rounds to a value

Between two neighbouring values of a format lies their midpoint, and rounding a rational
number is a matter of the midpoints it lies between. `Format.nearest` is the index of the
value nearest to a nonnegative rational number; every other rounding of the library comes down
to it.

A midpoint is an odd number of half units of its binade (`Format.midpoint_eq`), so it is not a
value of the format itself, but it is one of any format with one more bit.

Main results:

* `Format.nearest_le_of_lt`, `Format.lt_nearest_of_lt` — below a midpoint a number is rounded
  to the smaller neighbour or less, and above it to the larger one or more.
* `Format.nearest_eq` — what lies strictly between the two midpoints of a value rounds to it.
* `Format.midpoint_le`, `Format.le_midpoint` — what rounds to a value lies between them.
* `Binary.IsRounding.value_le_of_lt_midpoint` — the same for roundings with a sign.
-/

namespace RegionPooling.Format

variable (f : Format)

/-! ## Ratios -/

/-- A ratio between neighbouring values is scaled down like the smaller one. -/
theorem shiftOf_eq_doublings {num den i : Nat} (hden : 0 < den) (hlower : f.units i * den ≤ num)
    (hupper : num < f.units (i + 1) * den) : f.shiftOf num den = f.doublings i := by
  have hpow : 0 < 2 ^ f.doublings i := Nat.pow_pos (by decide)
  have hge : f.units i ≤ num / den := (Nat.le_div_iff_mul_le hden).mpr hlower
  have hlt : num / den < f.units (i + 1) := (Nat.div_lt_iff_lt_mul hden).mpr hupper
  -- The next value is at most the first one of the next binade.
  have hbinade : f.units (i + 1) ≤ 2 ^ (f.fractionBits + 1 + f.doublings i) := by
    have hsig := f.significand_lt i
    calc f.units (i + 1) = (f.significand i + 1) * 2 ^ f.doublings i := by
          rw [f.units_succ, units]
          ring
      _ ≤ 2 * f.fractions * 2 ^ f.doublings i := Nat.mul_le_mul_right _ hsig
      _ = 2 ^ (f.fractionBits + 1 + f.doublings i) := by
          rw [fractions]
          ring
  have hlog : (num / den).log2 ≤ f.fractionBits + f.doublings i := by
    by_cases hzero : num / den = 0
    · rw [hzero, Nat.log2_zero]
      exact Nat.zero_le _
    · have := (Nat.log2_lt hzero).mpr (Nat.lt_of_lt_of_le hlt hbinade)
      omega
  unfold shiftOf
  rcases f.doublings_eq_zero_or i with hdoublings | hleading
  · omega
  · have hne : num / den ≠ 0 := by
      have hpos := f.fractions_pos
      have : 0 < f.units i := Nat.mul_pos (by omega) hpow
      omega
    have hleading : 2 ^ (f.fractionBits + f.doublings i) ≤ num / den := by
      calc 2 ^ (f.fractionBits + f.doublings i) = f.fractions * 2 ^ f.doublings i := by
            rw [fractions, Nat.pow_add]
        _ ≤ f.units i := Nat.mul_le_mul_right _ hleading
        _ ≤ num / den := hge
    have := (Nat.le_log2 hne).mpr hleading
    omega

/-- Between neighbours the quotient that is rounded lies between their significands. -/
theorem unboundedIndex_eq {num den i : Nat} (hden : 0 < den) (hlower : f.units i * den ≤ num)
    (hupper : num < f.units (i + 1) * den) :
    f.unboundedIndex num den =
      if 2 * num < (f.units i + f.units (i + 1)) * den then i
      else if (f.units i + f.units (i + 1)) * den < 2 * num then i + 1
      else i + f.significand i % 2 := by
  have hindex := f.index_eq i
  set step := den * 2 ^ f.doublings i with hstep
  have hpos : 0 < step := Nat.mul_pos hden (Nat.pow_pos (by decide))
  have hunits : f.units i * den = f.significand i * step := by
    rw [units, hstep]
    ring
  have hsum : (f.units i + f.units (i + 1)) * den = 2 * (f.significand i * step) + step := by
    rw [f.units_succ, ← hunits, hstep]
    ring
  have hnext : f.units (i + 1) * den = f.significand i * step + step := by
    rw [f.units_succ, ← hunits, hstep]
    ring
  -- The quotient is the significand, and the rest is what lies above the smaller neighbour.
  obtain ⟨rest, rfl⟩ : ∃ rest, num = f.significand i * step + rest :=
    ⟨num - f.significand i * step, by omega⟩
  have hrest : rest < step := by omega
  rw [unboundedIndex, f.shiftOf_eq_doublings hden hlower hupper, ← hstep, divToEven, hsum,
    Nat.mul_comm _ step, Nat.mul_add_div hpos, Nat.mul_add_mod, Nat.div_eq_of_lt hrest,
    Nat.mod_eq_of_lt hrest]
  split
  · rw [if_pos (by omega)]
    omega
  · split
    · rw [if_neg (by omega), if_pos (by omega)]
      omega
    · rw [if_neg (by omega), if_neg (by omega)]
      omega

theorem nearestIndex_le_of_lt {num den i : Nat} (hden : 0 < den) (hi : i ≤ f.infinityIndex)
    (h : 2 * num < (f.units i + f.units (i + 1)) * den) : f.nearestIndex num den ≤ i := by
  by_cases hlower : f.units i * den ≤ num
  · have hupper : num < f.units (i + 1) * den := by
      have : f.units i * den < f.units (i + 1) * den :=
        Nat.mul_lt_mul_of_pos_right (f.units_strictMono (Nat.lt_succ_self i)) hden
      rw [Nat.add_mul] at h
      omega
    rw [nearestIndex_eq, f.unboundedIndex_eq hden hlower hupper, if_pos h]
    exact Nat.min_le_right ..
  · rw [← f.nearestIndex_units hi hden]
    exact f.nearestIndex_mono hden hden (Nat.mul_le_mul_right _ (by omega))

theorem lt_nearestIndex_of_lt {num den i : Nat} (hden : 0 < den) (hi : i < f.infinityIndex)
    (h : (f.units i + f.units (i + 1)) * den < 2 * num) : i < f.nearestIndex num den := by
  by_cases hupper : num < f.units (i + 1) * den
  · have hlower : f.units i * den ≤ num := by
      rw [Nat.add_mul] at h
      omega
    rw [nearestIndex_eq, f.unboundedIndex_eq hden hlower hupper, if_neg (by omega), if_pos h]
    exact lt_min hi (Nat.lt_succ_self i)
  · have hmono := f.nearestIndex_mono hden hden
      (Nat.mul_le_mul_right den (Nat.le_of_not_lt hupper))
    rwa [f.nearestIndex_units hi hden] at hmono

/-! ## Rational numbers -/

/-- The index of the value nearest to a rational number; negative ones count as zero. -/
def nearest (q : ℚ) : Nat :=
  f.nearestIndex (q * f.unitsPerOne).num.toNat (q * f.unitsPerOne).den

/-- The midpoint of the values at an index and the next one. -/
def midpoint (i : Nat) : ℚ := (f.units i + f.units (i + 1)) / (2 * f.unitsPerOne)

/-- A nonnegative number of units is a ratio of naturals. -/
theorem exists_ratio {q : ℚ} (hq : 0 ≤ q) : ∃ num den : Nat, 0 < den ∧
    f.nearest q = f.nearestIndex num den ∧ q * f.unitsPerOne * den = num := by
  have hunits : 0 ≤ q * f.unitsPerOne := mul_nonneg hq (Binary.unitsPerOne_pos f).le
  refine ⟨_, _, (q * f.unitsPerOne).pos, rfl, ?_⟩
  rw [Rat.mul_den_eq_num]
  exact_mod_cast (Int.toNat_of_nonneg (Rat.num_nonneg.mpr hunits)).symm

/-- Rounding a ratio depends on its value only. -/
theorem nearestIndex_eq_nearest {num den : Nat} (hden : 0 < den) {q : ℚ}
    (hq : q * f.unitsPerOne * den = num) : f.nearestIndex num den = f.nearest q := by
  have hden' : (0 : ℚ) < den := Nat.cast_pos.mpr hden
  have hq0 : 0 ≤ q := by
    by_contra hneg
    have : q * f.unitsPerOne * den < 0 :=
      mul_neg_of_neg_of_pos (mul_neg_of_neg_of_pos (not_le.mp hneg) (Binary.unitsPerOne_pos f)) hden'
    have : (0 : ℚ) ≤ num := Nat.cast_nonneg num
    linarith
  obtain ⟨num', den', hpos, heq, hq'⟩ := f.exists_ratio hq0
  have hcross : num * den' = num' * den := by
    have : (num : ℚ) * den' = num' * den := by
      rw [← hq, ← hq']
      ring
    exact_mod_cast this
  rw [heq]
  exact le_antisymm (f.nearestIndex_mono hden hpos hcross.le)
    (f.nearestIndex_mono hpos hden hcross.ge)

theorem nearest_mono {p q : ℚ} (hp : 0 ≤ p) (h : p ≤ q) : f.nearest p ≤ f.nearest q := by
  have hU := Binary.unitsPerOne_pos f
  obtain ⟨num, den, hden, hnearest, hratio⟩ := f.exists_ratio hp
  obtain ⟨num', den', hden', hnearest', hratio'⟩ := f.exists_ratio (hp.trans h)
  rw [hnearest, hnearest']
  refine f.nearestIndex_mono hden hden' ?_
  have hle : (num : ℚ) * den' ≤ num' * den := by
    calc (num : ℚ) * den' = p * f.unitsPerOne * den * den' := by rw [hratio]
      _ ≤ q * f.unitsPerOne * den * den' := by gcongr
      _ = num' * den := by
          rw [← hratio']
          ring
  exact_mod_cast hle

/-- The nearest value to a value is this value. -/
theorem nearest_units {i : Nat} (hi : i ≤ f.infinityIndex) :
    f.nearest (f.units i / f.unitsPerOne) = i := by
  have hU := Binary.unitsPerOne_pos f
  have hratio : (f.units i / f.unitsPerOne : ℚ) * f.unitsPerOne * (1 : Nat) =
      (f.units i * 1 : Nat) := by
    field_simp
    simp
  rw [← f.nearestIndex_eq_nearest Nat.one_pos hratio]
  exact f.nearestIndex_units hi Nat.one_pos

theorem midpoint_eq (i : Nat) :
    f.midpoint i = ((2 * f.significand i + 1) * 2 ^ f.doublings i : Nat) / (2 * f.unitsPerOne) := by
  rw [midpoint, f.units_succ, units]
  push_cast
  ring

theorem nearest_le_of_lt {q : ℚ} {i : Nat} (hq : 0 ≤ q) (hi : i ≤ f.infinityIndex)
    (h : q < f.midpoint i) : f.nearest q ≤ i := by
  have hU := Binary.unitsPerOne_pos f
  obtain ⟨num, den, hden, hnearest, hratio⟩ := f.exists_ratio hq
  have hden' : (0 : ℚ) < den := Nat.cast_pos.mpr hden
  rw [hnearest]
  refine f.nearestIndex_le_of_lt hden hi ?_
  rw [midpoint, lt_div_iff₀ (by positivity)] at h
  have hlt : 2 * (num : ℚ) < (f.units i + f.units (i + 1)) * den := by
    rw [← hratio]
    nlinarith
  exact_mod_cast hlt

theorem lt_nearest_of_lt {q : ℚ} {i : Nat} (hi : i < f.infinityIndex) (h : f.midpoint i < q) :
    i < f.nearest q := by
  have hU := Binary.unitsPerOne_pos f
  have hmid : 0 ≤ f.midpoint i := by
    unfold midpoint
    positivity
  obtain ⟨num, den, hden, hnearest, hratio⟩ := f.exists_ratio (hmid.trans h.le)
  have hden' : (0 : ℚ) < den := Nat.cast_pos.mpr hden
  rw [hnearest]
  refine f.lt_nearestIndex_of_lt hden hi ?_
  rw [midpoint, div_lt_iff₀ (by positivity)] at h
  have hlt : (f.units i + f.units (i + 1)) * (den : ℚ) < 2 * num := by
    rw [← hratio]
    nlinarith
  exact_mod_cast hlt

/-! ## The interval of a value -/

variable {f} {q : ℚ} {i : Nat}

/-- What lies strictly between the midpoints around a value rounds to it. -/
theorem nearest_eq (hi : i + 1 < f.infinityIndex) (hlower : f.midpoint i < q)
    (hupper : q < f.midpoint (i + 1)) : f.nearest q = i + 1 := by
  have hmid : 0 ≤ f.midpoint i := by
    unfold midpoint
    positivity
  have hge := f.lt_nearest_of_lt (by omega) hlower
  have hle := f.nearest_le_of_lt (hmid.trans hlower.le) (by omega) hupper
  omega

theorem midpoint_le (hi : i + 1 < f.infinityIndex) (hq : 0 ≤ q) (h : f.nearest q = i + 1) :
    f.midpoint i ≤ q := by
  by_contra hlt
  have := f.nearest_le_of_lt hq (by omega) (not_le.mp hlt)
  omega

theorem le_midpoint (hi : i + 1 < f.infinityIndex) (h : f.nearest q = i + 1) :
    q ≤ f.midpoint (i + 1) := by
  by_contra hlt
  have := f.lt_nearest_of_lt hi (not_le.mp hlt)
  omega

end RegionPooling.Format

namespace RegionPooling.Binary.IsRounding

variable {f : Format} {q : ℚ} {x : Binary f} {i : Nat}

/-- A rational number below the midpoint after a value does not round past this value. -/
theorem value_le_of_lt_midpoint (h : IsRounding q x) (hi : i ≤ f.infinityIndex)
    (hq : q < f.midpoint i) : x.value ≤ f.units i / f.unitsPerOne := by
  have hU := unitsPerOne_pos f
  rcases le_or_gt q 0 with hnonpos | hpos
  · have hle := h.value_le (zero_ne_nan false) (by rwa [value_zero])
    rw [value_zero] at hle
    exact hle.trans (by positivity)
  · obtain ⟨s, num, den, hden, rfl, hratio⟩ := h
    have hden' : (0 : ℚ) < den := Nat.cast_pos.mpr hden
    cases s with
    | false =>
      have hratio : q * f.unitsPerOne * den = num := by
        rw [hratio]
        simp only [signed, Bool.false_eq_true, if_false, Int.cast_natCast]
        field_simp
      rw [ofUnits, value_number, f.nearestIndex_eq_nearest hden hratio,
        div_le_div_iff_of_pos_right hU]
      simp only [signed, Bool.false_eq_true, if_false, Int.cast_natCast]
      exact_mod_cast f.units_strictMono.monotone (f.nearest_le_of_lt hpos.le hi hq)
    | true =>
      have hneg : q ≤ 0 := by
        rw [hratio, div_div]
        refine div_nonpos_of_nonpos_of_nonneg ?_ (by positivity)
        simp [signed]
      exact absurd hneg (not_le.mpr hpos)

end RegionPooling.Binary.IsRounding
