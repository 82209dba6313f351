import Mathlib.Algebra.Order.Field.Rat
import Mathlib.Tactic.FieldSimp
import Mathlib.Tactic.Linarith
import Mathlib.Tactic.Positivity
import RegionPooling.Binary.Arithmetic
import RegionPooling.Proofs.Binary.Nearest

/-!
# The values of binary numbers

`Binary.value` reads a binary number as a rational one. Infinity is read as the value that
its index would have if the format went on, `Format.limit`; that keeps the order, so the
comparisons of numbers are those of their values. Not-a-number is read as zero, and every
statement here keeps it out.

`Binary.IsRounding q x` says that `x` is what `q` rounds to. Each operation is one rounding
of the exact result (`Proofs.Binary.Operations`), so all that is known about operations goes
through the few facts about this relation.

Main results:

* `Binary.lt_iff_value_lt`, `Binary.le_iff_value_le` — order and values.
* `Binary.IsRounding.mono` — rounding is monotone.
* `Binary.IsRounding.value_eq` — what can be represented is not changed.
* `Binary.IsRounding.error` — the error of a finite result.
* `Binary.IsRounding.isFinite_of_abs_le` — results within the range of the format are finite.
-/

namespace RegionPooling

/-- The value that the index of infinity would have. -/
def Format.limit (f : Format) : ℚ := f.units f.infinityIndex / f.unitsPerOne

namespace Binary

variable {f : Format}

/-- The rational number that a binary number stands for. -/
def value : Binary f → ℚ
  | nan => 0
  | number negative index _ => signed negative (f.units index) / f.unitsPerOne

theorem unitsPerOne_pos (f : Format) : (0 : ℚ) < f.unitsPerOne :=
  Nat.cast_pos.mpr f.unitsPerOne_pos

theorem value_number (negative : Bool) (index : Nat) (h : index ≤ f.infinityIndex) :
    (number negative index h : Binary f).value =
      signed negative (f.units index) / f.unitsPerOne := rfl

@[simp] theorem value_zero (negative : Bool) : (zero negative : Binary f).value = 0 := by
  cases negative <;> simp [zero, value, signed, f.units_zero]

theorem zero_ne_nan (negative : Bool) : (zero negative : Binary f) ≠ nan := by
  simp [zero]

@[simp] theorem value_neg (x : Binary f) : x.neg.value = -x.value := by
  cases x with
  | nan => simp [neg, value]
  | number negative index h =>
    cases negative <;> simp [neg, value, signed, neg_div]

/-! ## Order -/

theorem signed_lt_signed {s t : Bool} {a b c d : Nat} (hab : a < b ↔ c < d)
    (hba : b < a ↔ d < c) (ha : a = 0 ↔ c = 0) (hb : b = 0 ↔ d = 0) :
    signed s a < signed t b ↔ signed s c < signed t d := by
  cases s <;> cases t <;> simp only [signed, Bool.false_eq_true, if_false, if_true] <;> omega

theorem units_eq_zero_iff (f : Format) (i : Nat) : f.units i = 0 ↔ i = 0 := by
  have h := f.units_strictMono.injective.eq_iff (a := i) (b := 0)
  rwa [f.units_zero] at h

theorem lt_iff_value_lt {x y : Binary f} (hx : x ≠ nan) (hy : y ≠ nan) :
    x < y ↔ x.value < y.value := by
  cases x with
  | nan => exact absurd rfl hx
  | number s i hi =>
    cases y with
    | nan => exact absurd rfl hy
    | number t j hj =>
      rw [value_number, value_number, div_lt_div_iff_of_pos_right (unitsPerOne_pos f),
        Int.cast_lt]
      show lt _ _ = true ↔ _
      rw [lt, compareWith, place, place]
      simp only [decide_eq_true_eq]
      exact signed_lt_signed f.units_strictMono.lt_iff_lt.symm f.units_strictMono.lt_iff_lt.symm
        (units_eq_zero_iff f i).symm (units_eq_zero_iff f j).symm

theorem not_nan_lt (x : Binary f) : ¬ nan < x := by
  intro h
  cases x with
  | nan => cases h
  | number s i hi => cases h

theorem le_iff_value_le {x y : Binary f} (hx : x ≠ nan) (hy : y ≠ nan) :
    x ≤ y ↔ x.value ≤ y.value := by
  rw [← not_lt, ← lt_iff_value_lt hy hx]
  cases x with
  | nan => exact absurd rfl hx
  | number s i hi =>
    cases y with
    | nan => exact absurd rfl hy
    | number t j hj =>
      show le _ _ = true ↔ ¬ lt _ _ = true
      simp only [le, lt, compareWith, place, decide_eq_true_eq, not_lt]

/-! ## Finite numbers -/

theorem limit_pos (f : Format) : 0 < f.limit := by
  have hpos : 0 < f.infinityIndex := by
    refine Nat.mul_pos ?_ f.fractions_pos
    have hfour : 2 ^ 2 ≤ 2 ^ f.exponentBits := Nat.pow_le_pow_right (by decide) f.two_le_exponentBits
    omega
  have hunits : 0 < f.units f.infinityIndex := by
    rw [← f.units_zero]
    exact f.units_strictMono hpos
  exact div_pos (Nat.cast_pos.mpr hunits) (unitsPerOne_pos f)

theorem abs_value_number (s : Bool) (i : Nat) (hi : i ≤ f.infinityIndex) :
    |(number s i hi : Binary f).value| = f.units i / f.unitsPerOne := by
  have hnonneg : (0 : ℚ) ≤ f.units i / f.unitsPerOne := by positivity
  cases s
  · simpa [value, signed] using abs_of_nonneg hnonneg
  · simpa [value, signed, neg_div] using abs_of_nonneg hnonneg

theorem value_infinity (s : Bool) :
    (infinity s : Binary f).value = if s then -f.limit else f.limit := by
  cases s
  · simp [infinity, value, signed, Format.limit]
  · simp [infinity, value, signed, Format.limit, neg_div]

/-- No value is past the limit. -/
theorem abs_value_le (x : Binary f) : |x.value| ≤ f.limit := by
  cases x with
  | nan =>
    rw [show (nan : Binary f).value = 0 from rfl, abs_zero]
    exact (limit_pos f).le
  | number s i hi =>
    rw [abs_value_number, Format.limit, div_le_div_iff_of_pos_right (unitsPerOne_pos f),
      Nat.cast_le]
    exact f.units_strictMono.monotone hi

/-- The finite numbers are those below the limit. -/
theorem isFinite_iff {x : Binary f} : x.isFinite = true ↔ x ≠ nan ∧ |x.value| < f.limit := by
  cases x with
  | nan => simp [isFinite]
  | number s i hi =>
    rw [abs_value_number, Format.limit, div_lt_div_iff_of_pos_right (unitsPerOne_pos f),
      Nat.cast_lt, f.units_strictMono.lt_iff_lt]
    simp [isFinite]

theorem ne_nan_of_isFinite {x : Binary f} (h : x.isFinite = true) : x ≠ nan :=
  (isFinite_iff.mp h).1

/-! ## Rounding -/

/-- The number is what the rational number rounds to. -/
def IsRounding (q : ℚ) (x : Binary f) : Prop :=
  ∃ (negative : Bool) (num den : Nat), 0 < den ∧ x = ofUnits negative num den ∧
    q = signed negative num / den / f.unitsPerOne

namespace IsRounding

variable {p q : ℚ} {x y : Binary f}

theorem ne_nan (h : IsRounding q x) : x ≠ nan := by
  obtain ⟨negative, num, den, -, rfl, -⟩ := h
  simp [ofUnits]

/-- Rounding is monotone. -/
theorem mono (hp : IsRounding p x) (hq : IsRounding q y) (h : p ≤ q) : x.value ≤ y.value := by
  obtain ⟨s, num, den, hden, rfl, rfl⟩ := hp
  obtain ⟨t, num', den', hden', rfl, rfl⟩ := hq
  rw [div_le_div_iff_of_pos_right (unitsPerOne_pos f),
    div_le_div_iff₀ (Nat.cast_pos.mpr hden) (Nat.cast_pos.mpr hden')] at h
  have h : signed s num * (den' : Int) ≤ signed t num' * (den : Int) := by exact_mod_cast h
  -- What is left is about the order of indices, once for each pair of signs.
  rw [ofUnits, ofUnits, value_number, value_number,
    div_le_div_iff_of_pos_right (unitsPerOne_pos f), Int.cast_le]
  have hunits {m d m' d' : Nat} (hd : 0 < d) (hd' : 0 < d') (hle : m * d' ≤ m' * d) :
      f.units (f.nearestIndex m d) ≤ f.units (f.nearestIndex m' d') :=
    f.units_strictMono.monotone (f.nearestIndex_mono hd hd' hle)
  cases s <;> cases t <;> simp only [signed, Bool.false_eq_true, if_false, if_true] at h ⊢
  · exact_mod_cast hunits hden hden' (by exact_mod_cast h)
  · -- A positive ratio below a negative one: both are zero.
    have hnum : num * den' = 0 := by
      have hle : ((num * den' : Nat) : Int) ≤ -((num' * den : Nat) : Int) := by
        push_cast
        linarith
      omega
    have hnum' : num' * den = 0 := by
      have hle : ((num * den' : Nat) : Int) ≤ -((num' * den : Nat) : Int) := by
        push_cast
        linarith
      omega
    have hzero : num = 0 := (Nat.mul_eq_zero.mp hnum).resolve_right (by omega)
    have hzero' : num' = 0 := (Nat.mul_eq_zero.mp hnum').resolve_right (by omega)
    have hindex (d : Nat) : f.nearestIndex 0 d = 0 := by
      rw [f.nearestIndex_eq, Format.unboundedIndex, Format.shiftOf, Nat.zero_div, Nat.log2_zero,
        Nat.zero_sub, Nat.zero_mul, Format.divToEven_zero]
      exact Nat.min_eq_right (Nat.zero_le _)
    rw [hzero, hzero', hindex, hindex, f.units_zero]
    simp
  · omega
  · have hle : num' * den ≤ num * den' := by
      have hneg : -((num * den' : Nat) : Int) ≤ -((num' * den : Nat) : Int) := by
        push_cast
        linarith
      omega
    have := hunits hden' hden hle
    omega

end IsRounding

/-- A number is its own rounding. -/
theorem isRounding_value {x : Binary f} (hx : x ≠ nan) : IsRounding x.value x := by
  cases x with
  | nan => exact absurd rfl hx
  | number s i hi =>
    refine ⟨s, f.units i, 1, Nat.one_pos, ?_, ?_⟩
    · have hindex := f.nearestIndex_units hi Nat.one_pos
      rw [Nat.mul_one] at hindex
      simp only [ofUnits, hindex]
    · rw [value_number, Nat.cast_one, div_one]

namespace IsRounding

variable {p q : ℚ} {x y : Binary f}

/-- A rational number at most a value of the format does not round past it. -/
theorem value_le (h : IsRounding q x) (hy : y ≠ nan) (hq : q ≤ y.value) : x.value ≤ y.value :=
  h.mono (isRounding_value hy) hq

theorem le_value (h : IsRounding q x) (hy : y ≠ nan) (hq : y.value ≤ q) : y.value ≤ x.value :=
  (isRounding_value hy).mono h hq

/-- What the format can represent is not changed. -/
theorem value_eq (h : IsRounding q x) (hy : y ≠ nan) (hq : q = y.value) : x.value = q :=
  le_antisymm (hq ▸ h.value_le hy hq.le) (hq ▸ h.le_value hy hq.ge)

theorem value_nonneg (h : IsRounding q x) (hq : 0 ≤ q) : 0 ≤ x.value := by
  have hle := h.le_value (zero_ne_nan false) (by rwa [value_zero])
  rwa [value_zero] at hle

theorem value_eq_zero (h : IsRounding q x) (hq : q = 0) : x.value = 0 := by
  rw [h.value_eq (zero_ne_nan false) (by rw [hq, value_zero]), hq]

/-- The opposite of a rational number rounds to the opposite number. -/
theorem neg (h : IsRounding q x) : IsRounding (-q) x.neg := by
  obtain ⟨s, num, den, hden, rfl, rfl⟩ := h
  refine ⟨!s, num, den, hden, rfl, ?_⟩
  cases s <;> simp [signed, neg_div]

/-- A rational number between two finite ones of the format rounds to a finite one. -/
theorem isFinite_of_abs_le (h : IsRounding q x) (hy : y.isFinite = true) (hq : |q| ≤ |y.value|) :
    x.isFinite = true := by
  obtain ⟨hnan, hlimit⟩ := isFinite_iff.mp hy
  -- One of `y` and its opposite has this magnitude as its value.
  obtain ⟨z, hz, hvalue⟩ : ∃ z : Binary f, z ≠ nan ∧ z.value = |y.value| := by
    cases y with
    | nan => exact absurd rfl hnan
    | number s i hi =>
      refine ⟨number false i hi, by simp, ?_⟩
      rw [abs_value_number]
      simp [value, signed]
  obtain ⟨hlower, hupper⟩ := abs_le.mp hq
  have hle := h.value_le hz (hvalue ▸ hupper)
  have hge := h.neg.value_le hz (by linarith)
  rw [value_neg] at hge
  refine isFinite_iff.mpr ⟨h.ne_nan, lt_of_le_of_lt (abs_le.mpr ⟨?_, ?_⟩) hlimit⟩
  · linarith
  · linarith

end IsRounding

/-! ## Numbers of few bits -/

theorem infinityIndex_ge (f : Format) : 3 * f.fractions ≤ f.infinityIndex := by
  have hfour : 2 ^ 2 ≤ 2 ^ f.exponentBits := Nat.pow_le_pow_right (by decide) f.two_le_exponentBits
  exact Nat.mul_le_mul_right _ (by omega)

/-- A whole number of units with few bits, doubled any number of times, is a value of the
format, as long as it stays below the limit. -/
theorem exists_value_eq {m : Nat} (hm : m ≤ 2 * f.fractions) (e : Nat)
    (hlimit : (m * 2 ^ e : Nat) / f.unitsPerOne < f.limit) (s : Bool) :
    ∃ y : Binary f, y.isFinite = true ∧ y.value = signed s (m * 2 ^ e) / f.unitsPerOne := by
  obtain ⟨i, hi⟩ := f.exists_units_eq hm e
  rw [← hi, Format.limit, div_lt_div_iff_of_pos_right (unitsPerOne_pos f), Nat.cast_lt,
    f.units_strictMono.lt_iff_lt] at hlimit
  exact ⟨number s i (Nat.le_of_lt hlimit), by simpa [isFinite] using hlimit,
    by rw [value_number, hi]⟩

/-! ## Errors -/

namespace IsRounding

variable {q : ℚ} {x : Binary f}

/-- The error is half of the last bit of what is rounded, or half a unit among the smallest. -/
theorem error_cases (h : IsRounding q x) (hx : x.isFinite = true) :
    |x.value - q| ≤ |q| / (2 * f.fractions) ∨
      |q| < 2 * f.fractions / f.unitsPerOne ∧ |x.value - q| ≤ 1 / (2 * f.unitsPerOne) := by
  obtain ⟨s, num, den, hden, rfl, rfl⟩ := h
  have hindex : f.nearestIndex num den < f.infinityIndex := by simpa [ofUnits, isFinite] using hx
  have hden' : (0 : ℚ) < den := Nat.cast_pos.mpr hden
  have hU := unitsPerOne_pos f
  have hF : (0 : ℚ) < f.fractions := Nat.cast_pos.mpr f.fractions_pos
  set r : ℚ := num / den with hr
  have hr0 : 0 ≤ r := by positivity
  set k : ℚ := ((f.units (f.nearestIndex num den) : Nat) : ℚ) with hk
  set w : ℚ := 2 ^ f.shiftOf num den with hw
  -- Up to the sign, everything is about `r` and the nearest number `k` of units.
  have hvalue : |(ofUnits s num den : Binary f).value - signed s num / den / f.unitsPerOne| =
      |k - r| / f.unitsPerOne := by
    rw [ofUnits, value_number, ← sub_div, abs_div, abs_of_pos hU]
    cases s
    · simp [signed, hk, hr]
    · simp only [signed, if_true, Int.cast_neg, Int.cast_natCast, neg_div, ← hk, ← hr]
      rw [neg_sub_neg, abs_sub_comm]
  have hq : |(signed s num : ℚ) / den / f.unitsPerOne| = r / f.unitsPerOne := by
    rw [abs_div, abs_div, abs_of_pos hU, abs_of_pos hden']
    cases s <;> simp [signed, hr]
  have herror : |k - r| ≤ w / 2 := by
    obtain ⟨hupper, hlower⟩ := f.nearestIndex_error hden hindex
    have hupper : 2 * (k * den) ≤ 2 * (num : ℚ) + den * w := by
      rw [hk, hw]
      exact_mod_cast hupper
    have hlower : 2 * (num : ℚ) ≤ 2 * (k * den) + den * w := by
      rw [hk, hw]
      exact_mod_cast hlower
    have hnum : (num : ℚ) = r * den := by rw [hr, div_mul_cancel₀ _ hden'.ne']
    rw [hnum] at hupper hlower
    rw [abs_le]
    constructor
    · nlinarith
    · nlinarith
  rw [hvalue, hq]
  -- Nothing is scaled down among the smallest values; everywhere else the leading bit is there,
  -- and what is rounded is large enough for the error to be relative to it.
  by_cases hshift : f.shiftOf num den = 0
  · right
    have hone : w = 1 := by rw [hw, hshift, pow_zero]
    constructor
    · have hlt := f.scaled_lt num hden
      rw [hshift, Nat.pow_zero, Nat.mul_one] at hlt
      have hlt : (num : ℚ) < 2 * f.fractions * den := by exact_mod_cast hlt
      rw [div_lt_div_iff_of_pos_right hU, hr, div_lt_iff₀ hden']
      exact hlt
    · rw [hone] at herror
      rw [div_le_div_iff₀ hU (by positivity)]
      nlinarith
  · left
    have hle := f.le_scaled hden hshift
    have hle : f.fractions * (den * w) ≤ (num : ℚ) := by
      rw [hw]
      exact_mod_cast hle
    have hwr : w ≤ r / f.fractions := by
      rw [le_div_iff₀ hF, hr, le_div_iff₀ hden']
      linarith
    have hhalf : |k - r| ≤ r / (2 * f.fractions) := by
      calc |k - r| ≤ w / 2 := herror
        _ ≤ r / f.fractions / 2 := by linarith
        _ = r / (2 * f.fractions) := by rw [div_div, mul_comm]
    calc |k - r| / f.unitsPerOne ≤ r / (2 * f.fractions) / f.unitsPerOne := by gcongr
      _ = r / f.unitsPerOne / (2 * f.fractions) := div_right_comm ..

/-- The error of a finite result. -/
theorem error (h : IsRounding q x) (hx : x.isFinite = true) :
    |x.value - q| ≤ |q| / (2 * f.fractions) + 1 / (2 * f.unitsPerOne) := by
  have hU := unitsPerOne_pos f
  have hrelative : 0 ≤ |q| / (2 * f.fractions) := by positivity
  have habsolute : (0 : ℚ) ≤ 1 / (2 * f.unitsPerOne) := by positivity
  rcases h.error_cases hx with hcase | ⟨-, hcase⟩
  · linarith
  · linarith

/-- Where a whole number of units is rounded, small ones are not changed at all. -/
theorem error_of_units (h : IsRounding q x) (hx : x.isFinite = true) {s : Bool} {n : Nat}
    (hq : q = signed s n / f.unitsPerOne) : |x.value - q| ≤ |q| / (2 * f.fractions) := by
  have hU := unitsPerOne_pos f
  rcases h.error_cases hx with hcase | ⟨hsmall, -⟩
  · exact hcase
  · -- So few units are an index themselves.
    have habs : |q| = n / f.unitsPerOne := by
      rw [hq, abs_div, abs_of_pos hU]
      cases s <;> simp [signed]
    rw [habs, div_lt_div_iff_of_pos_right hU] at hsmall
    have hn : n < 2 * f.fractions := by exact_mod_cast hsmall
    have hindex : n ≤ f.infinityIndex := by
      have := infinityIndex_ge f
      omega
    have hunits : f.units n = n := by
      have := f.units_shift 0 (Nat.le_of_lt hn) (Or.inl rfl)
      simpa using this
    have hexact := h.value_eq (y := number s n hindex) (by simp) (by rw [hq, value_number, hunits])
    rw [hexact, sub_self, abs_zero]
    positivity

end IsRounding

end Binary

end RegionPooling
