import Mathlib.Data.Rat.Floor
import Mathlib.Tactic.NormNum
import RegionPooling.Proofs.Binary.Operations

/-!
# Four-byte numbers

The general facts about rounding with the constants of the format of four bytes, and what
depends on these constants: `floor` and `round` need no rounding, because a number that is
not whole has few bits before the point.

Main results:

* `Single.exists_value_eq` — whole multiples of `2 ^ -k` with at most 24 bits are values.
* `Single.exact_of_isRounding` — and so they are results, if they are the exact ones.
* `Single.ofInt_exact` — whole numbers of at most 24 bits.
* `Single.error`, `Single.isFinite_of_abs_le` — the error and the range of results.
* `Single.value_floor`, `Single.value_ceil`, `Single.value_round` — whole numbers.
* `Single.clampToInt_eq_max` — how a whole number leaves the format.
-/

namespace RegionPooling

/-- The nearest whole number; a half goes away from zero. -/
def nearestInt (q : ℚ) : Int := if q < 0 then -⌊-q + 1 / 2⌋ else ⌊q + 1 / 2⌋

theorem nearestInt_intCast (n : Int) : nearestInt n = n := by
  have hhalf : ⌊(1 / 2 : ℚ)⌋ = 0 := by norm_num
  unfold nearestInt
  split
  · rw [← Int.cast_neg, Int.floor_intCast_add, hhalf]
    omega
  · rw [Int.floor_intCast_add, hhalf]
    omega

namespace Single

open Binary (IsRounding signed)

/-! ## Constants -/

theorem fractions_eq : (Format.single.fractions : ℚ) = 2 ^ 23 := by
  norm_num [show Format.single.fractions = 2 ^ 23 from rfl]

theorem unitsPerOne_eq : (Format.single.unitsPerOne : ℚ) = 2 ^ 149 := by
  norm_num [show Format.single.unitsPerOne = 2 ^ 149 from rfl]

theorem limit_eq : Format.single.limit = 2 ^ 128 := by
  have hindex : Format.single.infinityIndex = 254 * Format.single.fractions + 2 ^ 23 := rfl
  have hunits := Format.single.units_shift 254 (n := 2 ^ 23) (by decide)
    (Or.inr (Nat.le_refl _))
  rw [Format.limit, hindex, hunits, unitsPerOne_eq]
  norm_num

/-! ## Exact results -/

/-- Whole multiples of `2 ^ -k` with at most 24 bits are values of the format. -/
theorem exists_value_eq {n : Int} {k : Nat} (hn : |n| ≤ 2 ^ 24) (hk : k ≤ 149) :
    ∃ y : Single, y.isFinite = true ∧ y.value = n / 2 ^ k := by
  have habs : n.natAbs ≤ 2 ^ 24 := by
    rw [Int.abs_eq_natAbs] at hn
    exact_mod_cast hn
  have hsplit : (2 : ℚ) ^ 149 = 2 ^ (149 - k) * 2 ^ k := by
    rw [← pow_add]
    congr 1
    omega
  have hpos : (0 : ℚ) < 2 ^ k := by positivity
  have hpos' : (0 : ℚ) < 2 ^ (149 - k) := by positivity
  -- Counted in units the number is doubled `149 - k` times, which does not reach the limit.
  have hlimit : ((n.natAbs * 2 ^ (149 - k) : Nat) : ℚ) / Format.single.unitsPerOne
      < Format.single.limit := by
    rw [limit_eq, unitsPerOne_eq, Nat.cast_mul, Nat.cast_pow, Nat.cast_ofNat, hsplit, mul_comm,
      mul_div_mul_left _ _ hpos'.ne', div_lt_iff₀ hpos]
    have hle : (n.natAbs : ℚ) ≤ 2 ^ 24 := by exact_mod_cast habs
    have hone : (1 : ℚ) ≤ 2 ^ k := one_le_pow₀ (by norm_num)
    calc (n.natAbs : ℚ) ≤ 2 ^ 24 := hle
      _ < 2 ^ 128 * 1 := by norm_num
      _ ≤ 2 ^ 128 * 2 ^ k := by gcongr
  obtain ⟨y, hy, hvalue⟩ := Binary.exists_value_eq habs (149 - k) hlimit (decide (n < 0))
  refine ⟨y, hy, ?_⟩
  rw [hvalue, Binary.signed_mul_natCast, Binary.signed_sign, unitsPerOne_eq, Int.cast_mul,
    Int.cast_natCast, Nat.cast_pow, Nat.cast_ofNat, hsplit, mul_comm,
    mul_div_mul_left _ _ hpos'.ne']

/-- A result that could be exact is exact. -/
theorem exact_of_isRounding {q : ℚ} {x : Single} (h : IsRounding q x) {n : Int} {k : Nat}
    (hn : |n| ≤ 2 ^ 24) (hk : k ≤ 149) (hq : q = n / 2 ^ k) :
    x.isFinite = true ∧ x.value = q := by
  obtain ⟨y, hy, hvalue⟩ := exists_value_eq hn hk
  have hqy : q = y.value := by rw [hq, hvalue]
  exact ⟨h.isFinite_of_abs_le hy (by rw [hqy]), h.value_eq (Binary.ne_nan_of_isFinite hy) hqy⟩

/-- Whole numbers of at most 24 bits are values of the format. -/
theorem ofInt_exact {n : Int} (hn : |n| ≤ 2 ^ 24) :
    (Binary.ofInt n : Single).isFinite = true ∧ (Binary.ofInt n : Single).value = n :=
  exact_of_isRounding (Binary.isRounding_ofInt n) hn (Nat.zero_le 149) (by rw [pow_zero, div_one])

theorem ofNat_exact {n : Nat} (hn : n ≤ 2 ^ 24) :
    (Binary.ofNat n : Single).isFinite = true ∧ (Binary.ofNat n : Single).value = n := by
  rw [Binary.ofNat_eq_ofInt]
  exact_mod_cast ofInt_exact (n := n) (by rw [Nat.abs_cast]; exact_mod_cast hn)

theorem one_exact : (Binary.ofNat 1 : Single).isFinite = true ∧
    (Binary.ofNat 1 : Single).value = 1 := by
  simpa using ofNat_exact (n := 1) (by decide)

/-! ## Errors and range -/

/-- Powers of two below the limit are values of the format. -/
theorem exists_value_eq_two_pow {e : Nat} (he : e ≤ 127) :
    ∃ y : Single, y.isFinite = true ∧ y.value = 2 ^ e := by
  have hpower : ((1 * 2 ^ (e + 149) : Nat) : ℚ) / Format.single.unitsPerOne = 2 ^ e := by
    rw [unitsPerOne_eq, Nat.one_mul, Nat.cast_pow, Nat.cast_ofNat, pow_add,
      mul_div_cancel_right₀ _ (by positivity)]
  have hlimit : ((1 * 2 ^ (e + 149) : Nat) : ℚ) / Format.single.unitsPerOne
      < Format.single.limit := by
    rw [hpower, limit_eq]
    exact pow_lt_pow_right₀ (by norm_num) (by omega)
  have hbits : 1 ≤ 2 * Format.single.fractions := by decide
  obtain ⟨y, hy, hvalue⟩ := Binary.exists_value_eq hbits (e + 149) hlimit false
  exact ⟨y, hy, hvalue.trans hpower⟩

/-- Rational numbers up to half of the range round to finite numbers. -/
theorem isFinite_of_abs_le {q : ℚ} {x : Single} (h : IsRounding q x) (hq : |q| ≤ 2 ^ 127) :
    x.isFinite = true := by
  obtain ⟨y, hy, hvalue⟩ := exists_value_eq_two_pow (le_refl 127)
  have habs : |y.value| = 2 ^ 127 := by
    rw [hvalue]
    exact abs_of_nonneg (by positivity)
  exact h.isFinite_of_abs_le hy (by rwa [habs])

theorem ofInt_isFinite {n : Int} (h : |n| ≤ 2 ^ 127) : (Binary.ofInt n : Single).isFinite = true :=
  isFinite_of_abs_le (Binary.isRounding_ofInt n) (by exact_mod_cast h)

theorem ofNat_isFinite {n : Nat} (h : n ≤ 2 ^ 127) : (Binary.ofNat n : Single).isFinite = true := by
  rw [Binary.ofNat_eq_ofInt]
  exact ofInt_isFinite (by rw [Nat.abs_cast]; exact_mod_cast h)

/-- A whole number of at least a power of two is not rounded below it. -/
theorem two_pow_le_value_ofInt {n : Int} {e : Nat} (he : e ≤ 127) (h : (2 : ℚ) ^ e ≤ n) :
    2 ^ e ≤ (Binary.ofInt n : Single).value := by
  obtain ⟨y, hy, hvalue⟩ := exists_value_eq_two_pow he
  have hrounding := Binary.isRounding_ofInt (f := .single) n
  exact hvalue.ge.trans (hrounding.le_value (Binary.ne_nan_of_isFinite hy) (hvalue.trans_le h))

/-- A whole number of at most a power of two is not rounded above it. -/
theorem value_ofInt_le_two_pow {n : Int} {e : Nat} (he : e ≤ 127) (h : n ≤ (2 : ℚ) ^ e) :
    (Binary.ofInt n : Single).value ≤ 2 ^ e := by
  obtain ⟨y, hy, hvalue⟩ := exists_value_eq_two_pow he
  have hrounding := Binary.isRounding_ofInt (f := .single) n
  exact (hrounding.value_le (Binary.ne_nan_of_isFinite hy) (h.trans hvalue.ge)).trans hvalue.le

theorem error {q : ℚ} {x : Single} (h : IsRounding q x) (hx : x.isFinite = true) :
    |x.value - q| ≤ |q| / 2 ^ 24 + 1 / 2 ^ 150 := by
  have herror := h.error hx
  rw [fractions_eq, unitsPerOne_eq] at herror
  calc |x.value - q| ≤ |q| / (2 * 2 ^ 23) + 1 / (2 * 2 ^ 149) := herror
    _ = |q| / 2 ^ 24 + 1 / 2 ^ 150 := by norm_num

theorem add_error {x y : Single} (hx : x.isFinite = true) (hy : y.isFinite = true)
    (hsum : (x + y).isFinite = true) :
    |(x + y).value - (x.value + y.value)| ≤ |x.value + y.value| / 2 ^ 24 := by
  have herror := Binary.add_error hx hy hsum
  rw [fractions_eq] at herror
  calc |(x + y).value - (x.value + y.value)| ≤ |x.value + y.value| / (2 * 2 ^ 23) := herror
    _ = |x.value + y.value| / 2 ^ 24 := by norm_num

/-! ## Whole numbers -/

/-- The units of a number are its significand, doubled. -/
theorem signed_units (s : Bool) (i : Nat) : (signed s (Format.single.units i) : ℚ) =
    signed s (Format.single.significand i) * 2 ^ Format.single.doublings i := by
  cases s <;> simp [signed, Format.units]

/-- The value of a number that is not doubled often enough to be whole. -/
theorem value_eq_div {s : Bool} {i : Nat} (hi : i ≤ Format.single.infinityIndex)
    (hsmall : ¬ Format.single.unitExponent ≤ Format.single.doublings i) :
    (Binary.number s i hi : Single).value = signed s (Format.single.significand i) /
      2 ^ (Format.single.unitExponent - Format.single.doublings i) := by
  have hsplit : (2 : ℚ) ^ 149 = 2 ^ (149 - Format.single.doublings i) *
      2 ^ Format.single.doublings i := by
    have hle : Format.single.doublings i ≤ 149 := by
      have : Format.single.unitExponent = 149 := rfl
      omega
    rw [← pow_add]
    congr 1
    omega
  have hpos : (0 : ℚ) < 2 ^ Format.single.doublings i := by positivity
  rw [Binary.value_number, unitsPerOne_eq, signed_units, hsplit,
    show Format.single.unitExponent = 149 from rfl, mul_div_mul_right _ _ hpos.ne']

/-- A number that is doubled often enough is whole. -/
theorem value_eq_int {s : Bool} {i : Nat} (hi : i ≤ Format.single.infinityIndex)
    (hlarge : Format.single.unitExponent ≤ Format.single.doublings i) :
    (Binary.number s i hi : Single).value = (signed s (Format.single.significand i *
      2 ^ (Format.single.doublings i - Format.single.unitExponent)) : Int) := by
  have hsplit : (2 : ℚ) ^ Format.single.doublings i =
      2 ^ (Format.single.doublings i - 149) * 2 ^ 149 := by
    have : Format.single.unitExponent = 149 := rfl
    rw [← pow_add]
    congr 1
    omega
  have hpos : (0 : ℚ) < 2 ^ 149 := by positivity
  rw [Binary.value_number, unitsPerOne_eq, signed_units, hsplit,
    show Format.single.unitExponent = 149 from rfl, ← mul_assoc, mul_div_cancel_right₀ _ hpos.ne',
    Binary.signed_mul_natCast, Int.cast_mul, Int.cast_natCast, Nat.cast_pow, Nat.cast_ofNat]

/-- A whole magnitude that is no larger than the significand is given back as it is. -/
theorem toWhole_number (whole : Bool → Nat → Nat → Nat) {s : Bool} {i : Nat}
    (hi : i ≤ Format.single.infinityIndex)
    (hsmall : ¬ Format.single.unitExponent ≤ Format.single.doublings i)
    (hwhole : whole s (Format.single.significand i)
      (2 ^ (Format.single.unitExponent - Format.single.doublings i)) ≤
        Format.single.significand i) :
    (Binary.toWhole whole (.number s i hi : Single)).isFinite = true ∧
      (Binary.toWhole whole (.number s i hi : Single)).value =
        (signed s (whole s (Format.single.significand i)
          (2 ^ (Format.single.unitExponent - Format.single.doublings i))) : Int) := by
  simp only [Binary.toWhole, hsmall, if_false, twoPow_eq]
  generalize whole s (Format.single.significand i) _ = w at hwhole ⊢
  have hlt := Format.single.significand_lt i
  have hrounding : IsRounding ((signed s w : Int) : ℚ)
      (Binary.ofScaled s w Format.single.unitExponent 0 : Single) := by
    refine ⟨s, w * 2 ^ Format.single.unitExponent, 1, Nat.one_pos, ?_, ?_⟩
    · rw [Binary.ofScaled_eq, Nat.pow_zero]
    · rw [unitsPerOne_eq, Binary.signed_mul_natCast, Int.cast_mul, Int.cast_natCast, Nat.cast_pow,
        Nat.cast_ofNat, Nat.cast_one, div_one,
        show Format.single.unitExponent = 149 from rfl, mul_div_cancel_right₀ _ (by positivity)]
  -- A significand has few bits, and so has what is no larger.
  have hw : |signed s w| ≤ 2 ^ 24 := by
    have hfractions : Format.single.fractions = 2 ^ 23 := rfl
    have hle : w ≤ 2 ^ 24 := by omega
    cases s <;> simpa [signed] using by exact_mod_cast hle
  exact exact_of_isRounding hrounding hw (Nat.zero_le 149) (by rw [pow_zero, div_one])

theorem divUp_le {num den : Nat} (hden : 0 < den) : Binary.divUp num den ≤ num := by
  unfold Binary.divUp
  rw [Nat.div_le_iff_le_mul_add_pred hden]
  have : num ≤ den * num := Nat.le_mul_of_pos_left _ hden
  omega

/-- Rounding up a negative magnitude rounds its value down. -/
theorem floor_signed_div (s : Bool) (num : Nat) {den : Nat} (hden : 0 < den) :
    ⌊(signed s num : ℚ) / den⌋ =
      signed s (if s then Binary.divUp num den else num / den) := by
  cases s
  · have h := Rat.floor_intCast_div_natCast (num : Int) den
    simpa [signed] using h
  · have hden' : (0 : ℚ) < den := Nat.cast_pos.mpr hden
    have hdiv := Nat.div_add_mod' (num + (den - 1)) den
    have hmod := Nat.mod_lt (num + (den - 1)) hden
    simp only [signed, if_true, Binary.divUp]
    generalize (num + (den - 1)) / den = w at hdiv ⊢
    have hupper : num ≤ w * den := by omega
    have hlower : w * den < num + den := by omega
    rw [Int.floor_eq_iff, le_div_iff₀ hden', div_lt_iff₀ hden']
    push_cast
    constructor
    · have : (num : ℚ) ≤ w * den := by exact_mod_cast hupper
      linarith
    · have : (w : ℚ) * den < num + den := by exact_mod_cast hlower
      linarith

/-- The floor of a finite number is the floor of its value. -/
theorem value_floor {x : Single} (hx : x.isFinite = true) :
    x.floor.isFinite = true ∧ x.floor.value = ⌊x.value⌋ := by
  obtain ⟨s, i, hi, rfl, hi'⟩ := Binary.exists_eq_number hx
  -- What is doubled often enough is whole, and its own floor.
  by_cases hlarge : Format.single.unitExponent ≤ Format.single.doublings i
  · have hself : (Binary.number s i hi : Single).floor = .number s i hi := by
      simp only [Binary.floor, Binary.toWhole, hlarge, if_true]
    rw [hself]
    refine ⟨hx, ?_⟩
    rw [value_eq_int hi hlarge, Int.floor_intCast]
  · have hden : 0 < 2 ^ (Format.single.unitExponent - Format.single.doublings i) :=
      Nat.pow_pos (by decide)
    have hwhole := toWhole_number (fun negative num den =>
      if negative then Binary.divUp num den else num / den) (s := s) hi hlarge (by
        cases s
        · exact Nat.div_le_self ..
        · exact divUp_le hden)
    refine ⟨hwhole.1, hwhole.2.trans ?_⟩
    have hfloor := floor_signed_div s (Format.single.significand i) hden
    rw [Nat.cast_pow, Nat.cast_ofNat] at hfloor
    rw [value_eq_div hi hlarge, hfloor]

/-- The magnitude of a ratio is rounded, whatever its sign is. -/
theorem nearestInt_signed_div (s : Bool) (num : Nat) {den : Nat} (hden : 0 < den) :
    nearestInt ((signed s num : ℚ) / den) = signed s ((2 * num + den) / (2 * den)) := by
  have hden' : (0 : ℚ) < den := Nat.cast_pos.mpr hden
  have hratio : (num : ℚ) / den + 1 / 2 = ((2 * num + den : Nat) : ℚ) / (2 * den : Nat) := by
    push_cast
    field_simp
  have hfloor : ⌊(num : ℚ) / den + 1 / 2⌋ = ((2 * num + den) / (2 * den) : Nat) := by
    rw [hratio, Rat.floor_natCast_div_natCast]
    rfl
  cases s
  · have hnonneg : ¬ (num : ℚ) / den < 0 := not_lt.mpr (by positivity)
    simpa [nearestInt, signed, hnonneg] using hfloor
  · have hneg : -(num : ℚ) / den = -((num : ℚ) / den) := neg_div ..
    simp only [signed, if_true, Int.cast_neg, Int.cast_natCast, hneg]
    unfold nearestInt
    split
    · rw [neg_neg, hfloor]
    · -- Only zero is left, whose half is lost on either side.
      rename_i hnot
      have hzero : (num : ℚ) / den = 0 := le_antisymm (by linarith) (by positivity)
      rw [hzero] at hfloor ⊢
      rw [← hfloor]
      norm_num

/-- Rounding a finite number goes to the nearest whole one. -/
theorem value_round {x : Single} (hx : x.isFinite = true) :
    x.round.isFinite = true ∧ x.round.value = nearestInt x.value := by
  obtain ⟨s, i, hi, rfl, hi'⟩ := Binary.exists_eq_number hx
  by_cases hlarge : Format.single.unitExponent ≤ Format.single.doublings i
  · have hself : (Binary.number s i hi : Single).round = .number s i hi := by
      simp only [Binary.round, Binary.toWhole, hlarge, if_true]
    rw [hself]
    refine ⟨hx, ?_⟩
    rw [value_eq_int hi hlarge, nearestInt_intCast]
  · have htwo : 2 ≤ 2 ^ (Format.single.unitExponent - Format.single.doublings i) :=
      Nat.le_self_pow (by omega) 2
    have hwhole := toWhole_number (fun _ num den => (2 * num + den) / (2 * den))
      (s := s) hi hlarge (by
        generalize 2 ^ (Format.single.unitExponent - Format.single.doublings i) = den at htwo
        rw [Nat.div_le_iff_le_mul_add_pred (by omega)]
        have : 2 * 2 * Format.single.significand i ≤ 2 * den * Format.single.significand i :=
          Nat.mul_le_mul_right _ (by omega)
        omega)
    refine ⟨hwhole.1, hwhole.2.trans ?_⟩
    have hden : 0 < 2 ^ (Format.single.unitExponent - Format.single.doublings i) := by omega
    have hnearest := nearestInt_signed_div s (Format.single.significand i) hden
    rw [Nat.cast_pow, Nat.cast_ofNat] at hnearest
    rw [value_eq_div hi hlarge, hnearest]

/-- Only finite numbers round to finite ones. -/
theorem isFinite_of_round {x : Single} (h : x.round.isFinite = true) : x.isFinite = true := by
  cases x with
  | nan => cases h
  | number s i hi =>
    -- Infinity is doubled often enough to be its own rounding.
    by_contra hnot
    have hinfinite : Format.single.infinityIndex ≤ i := by
      simpa [Binary.isFinite] using hnot
    have hlarge : Format.single.unitExponent ≤ Format.single.doublings i := by
      calc Format.single.unitExponent
          ≤ Format.single.doublings Format.single.infinityIndex := by decide
        _ ≤ Format.single.doublings i :=
          Nat.sub_le_sub_right (Nat.div_le_div_right hinfinite) 1
    have hself : (Binary.number s i hi : Single).round = .number s i hi := by
      simp only [Binary.round, Binary.toWhole, hlarge, if_true]
    rw [hself] at h
    exact hnot h

theorem neg_number (s : Bool) {i : Nat} (hi : i ≤ Format.single.infinityIndex) :
    (Binary.number s i hi : Single).neg = .number (!s) i hi := rfl

theorem neg_ofScaled (s : Bool) (num up down : Nat) :
    (Binary.ofScaled s num up down : Single).neg = Binary.ofScaled (!s) num up down := rfl

/-- A change of the sign can come after a conversion to a whole number. -/
theorem toWhole_neg (whole : Bool → Nat → Nat → Nat) (x : Single) :
    x.neg.toWhole whole = (x.toWhole fun s => whole (!s)).neg := by
  cases x with
  | nan => rfl
  | number s i hi =>
    by_cases hlarge : Format.single.unitExponent ≤ Format.single.doublings i
    · simp only [neg_number, Binary.toWhole, hlarge, if_true]
    · simp only [neg_number, Binary.toWhole, hlarge, if_false, neg_ofScaled]

/-- Rounding up is rounding down with the sign changed. -/
theorem floor_neg (x : Single) : x.neg.floor = x.ceil.neg := by
  rw [Binary.floor, toWhole_neg]
  congr 2
  funext s
  cases s
  · rfl
  · rfl

/-- The ceiling of a finite number is the ceiling of its value. -/
theorem value_ceil {x : Single} (hx : x.isFinite = true) :
    x.ceil.isFinite = true ∧ x.ceil.value = ⌈x.value⌉ := by
  have hneg : x.ceil = x.neg.floor.neg := by
    rw [floor_neg]
    cases x.ceil with
    | nan => rfl
    | number s i hi => simp [Binary.neg]
  obtain ⟨hfinite, hvalue⟩ := value_floor (Binary.isFinite_neg hx)
  rw [hneg]
  refine ⟨Binary.isFinite_neg hfinite, ?_⟩
  rw [Binary.value_neg, hvalue, Binary.value_neg, Int.floor_neg]
  simp

/-- A whole number leaves the format as it is, or as the bound that it passes. -/
theorem clampToInt_eq_max {x : Single} {n : Int} (lower upper : Int) (hx : x.isFinite = true)
    (hn : x.value = n) : x.clampToInt lower upper = max lower (min upper n) := by
  obtain ⟨s, i, hi, rfl, hi'⟩ := Binary.exists_eq_number hx
  have hpos : (0 : ℚ) < 2 ^ 149 := by positivity
  rw [Binary.value_number, unitsPerOne_eq, div_eq_iff hpos.ne'] at hn
  have hunits : signed s (Format.single.units i) = n * 2 ^ 149 := by exact_mod_cast hn
  -- The magnitude and the sign are converted on their own.
  have hwhole : (Binary.wholePart Format.single i : Int) = n.natAbs := by
    rw [Binary.wholePart_eq, show Format.single.unitsPerOne = 2 ^ 149 from rfl]
    have hmul : Format.single.units i = n.natAbs * 2 ^ 149 := by
      cases s <;> simp only [signed, Bool.false_eq_true, if_false, if_true] at hunits <;> omega
    rw [hmul, Nat.mul_div_cancel _ (by positivity)]
  have hsigned : (if s then -(n.natAbs : Int) else n.natAbs) = n := by
    cases s <;> simp only [signed, Bool.false_eq_true, if_false, if_true] at hunits ⊢ <;> omega
  simp only [Binary.clampToInt, hi', if_false, hwhole, hsigned]

theorem clampToInt_eq {x : Single} {n lower upper : Int} (hx : x.isFinite = true)
    (hn : x.value = n) (hlower : lower ≤ n) (hupper : n ≤ upper) :
    x.clampToInt lower upper = n := by
  rw [clampToInt_eq_max lower upper hx hn]
  omega

end Single

end RegionPooling
