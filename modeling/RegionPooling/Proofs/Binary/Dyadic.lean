import Mathlib.Data.List.Forall2
import Mathlib.Tactic.Ring
import RegionPooling.Proofs.Binary.Single

/-!
# Results without rounding

A whole multiple of `2 ^ -k` is a value of the format of four bytes if it takes no more than
24 bits. An operation whose exact result is of this kind does not round, so a calculation can
be followed in rational numbers as long as its results keep to some `2 ^ -k` and to the range
that 24 bits leave for it.

Main results:

* `Single.Exact.add`, `sub`, `mul`, `div` — operations whose result fits.
* `Single.exact_sub_floor` — the fraction of a number that is not negative.
* `Single.exact_foldl_add` — sums whose partial sums all fit.
-/

namespace RegionPooling

namespace Single

open Binary (IsRounding)

/-! ## Multiples -/

/-- A whole multiple of `2 ^ -k`. -/
def IsMultiple (k : Nat) (q : ℚ) : Prop := ∃ n : Int, q = n / 2 ^ k

namespace IsMultiple

variable {k l : Nat} {p q : ℚ}

theorem intCast (k : Nat) (n : Int) : IsMultiple k n :=
  ⟨n * 2 ^ k, by
    push_cast
    rw [mul_div_cancel_right₀ _ (by positivity)]⟩

theorem add (hp : IsMultiple k p) (hq : IsMultiple k q) : IsMultiple k (p + q) := by
  obtain ⟨m, rfl⟩ := hp
  obtain ⟨n, rfl⟩ := hq
  exact ⟨m + n, by push_cast; ring⟩

theorem sub (hp : IsMultiple k p) (hq : IsMultiple k q) : IsMultiple k (p - q) := by
  obtain ⟨m, rfl⟩ := hp
  obtain ⟨n, rfl⟩ := hq
  exact ⟨m - n, by push_cast; ring⟩

theorem mul (hp : IsMultiple k p) (hq : IsMultiple l q) : IsMultiple (k + l) (p * q) := by
  obtain ⟨m, rfl⟩ := hp
  obtain ⟨n, rfl⟩ := hq
  exact ⟨m * n, by
    push_cast
    rw [pow_add, div_mul_div_comm]⟩

theorem mul_int (hp : IsMultiple k p) (n : Int) : IsMultiple k (p * n) := by
  obtain ⟨m, rfl⟩ := hp
  exact ⟨m * n, by push_cast; ring⟩

theorem div_two_pow (hp : IsMultiple k p) (l : Nat) : IsMultiple (k + l) (p / 2 ^ l) := by
  obtain ⟨m, rfl⟩ := hp
  exact ⟨m, by rw [pow_add, div_div]⟩

/-- A finer grid has all multiples of a coarser one. -/
theorem mono (hp : IsMultiple k p) (h : k ≤ l) : IsMultiple l p := by
  obtain ⟨m, rfl⟩ := hp
  refine ⟨m * 2 ^ (l - k), ?_⟩
  have hsplit : (2 : ℚ) ^ l = 2 ^ (l - k) * 2 ^ k := by
    rw [← pow_add]
    congr 1
    omega
  push_cast
  rw [hsplit, mul_comm (m : ℚ), mul_div_mul_left _ _ (by positivity)]

end IsMultiple

/-! ## Numbers that fit -/

/-- The rational number is a value of the format because it has few bits. -/
def Fits (q : ℚ) : Prop := ∃ k ≤ 149, IsMultiple k q ∧ |q| * 2 ^ k ≤ 2 ^ 24

/-- On a grid, what is small enough fits. -/
theorem IsMultiple.fits {k : Nat} {q c : ℚ} (h : IsMultiple k q) (hk : k ≤ 149) (hq : |q| ≤ c)
    (hc : c * 2 ^ k ≤ 2 ^ 24) : Fits q :=
  ⟨k, hk, h, le_trans (by gcongr) hc⟩

/-- On a grid of at most 24 bits behind the point the range is what is left of them. -/
theorem IsMultiple.fits_of_le {k : Nat} {q : ℚ} (h : IsMultiple k q) (hk : k ≤ 24)
    (hq : |q| ≤ 2 ^ (24 - k)) : Fits q := by
  refine h.fits (by omega) hq ?_
  rw [← pow_add, Nat.sub_add_cancel hk]

/-- What is between zero and one fits with all 24 bits behind the point. -/
theorem IsMultiple.fits_of_le_one {k : Nat} {q : ℚ} (h : IsMultiple k q) (hk : k ≤ 24)
    (hnonneg : 0 ≤ q) (hone : q ≤ 1) : Fits q := by
  refine h.fits_of_le hk ?_
  rw [abs_of_nonneg hnonneg]
  exact hone.trans (one_le_pow₀ (by norm_num))

/-- A quotient by a power of two has the bits of the dividend. -/
theorem IsMultiple.fits_div_two_pow {k l : Nat} {q : ℚ} (h : IsMultiple k q) (hk : k + l ≤ 149)
    (hq : |q| * 2 ^ k ≤ 2 ^ 24) : Fits (q / 2 ^ l) := by
  refine ⟨k + l, hk, h.div_two_pow l, ?_⟩
  have hpos : (0 : ℚ) < 2 ^ l := by positivity
  calc |q / 2 ^ l| * 2 ^ (k + l) = |q| / 2 ^ l * (2 ^ l * 2 ^ k) := by
        rw [abs_div, abs_of_pos hpos, pow_add, mul_comm (2 ^ k : ℚ)]
    _ = |q| * 2 ^ k := by rw [← mul_assoc, div_mul_cancel₀ _ hpos.ne']
    _ ≤ 2 ^ 24 := hq

/-- The number is finite and has this value. -/
structure Exact (x : Single) (q : ℚ) : Prop where
  isFinite : x.isFinite = true
  value_eq : x.value = q

theorem exact_of_fits {q : ℚ} {x : Single} (h : IsRounding q x) (hq : Fits q) : Exact x q := by
  obtain ⟨k, hk, ⟨n, rfl⟩, hsize⟩ := hq
  have hpos : (0 : ℚ) < 2 ^ k := by positivity
  rw [abs_div, abs_of_pos hpos, div_mul_cancel₀ _ hpos.ne'] at hsize
  obtain ⟨hfinite, hvalue⟩ := exact_of_isRounding h (by exact_mod_cast hsize) hk rfl
  exact ⟨hfinite, hvalue⟩

/-! ## Operations -/

namespace Exact

variable {x y : Single} {p q : ℚ}

theorem ne_nan (h : Exact x p) : x ≠ .nan := Binary.ne_nan_of_isFinite h.isFinite

theorem add (hx : Exact x p) (hy : Exact y q) (h : Fits (p + q)) : Exact (x + y) (p + q) := by
  have hrounding := Binary.isRounding_add hx.isFinite hy.isFinite
  rw [hx.value_eq, hy.value_eq] at hrounding
  exact exact_of_fits hrounding h

theorem sub (hx : Exact x p) (hy : Exact y q) (h : Fits (p - q)) : Exact (x - y) (p - q) := by
  have hrounding := Binary.isRounding_sub hx.isFinite hy.isFinite
  rw [hx.value_eq, hy.value_eq] at hrounding
  exact exact_of_fits hrounding h

theorem mul (hx : Exact x p) (hy : Exact y q) (h : Fits (p * q)) : Exact (x * y) (p * q) := by
  have hrounding := Binary.isRounding_mul hx.isFinite hy.isFinite
  rw [hx.value_eq, hy.value_eq] at hrounding
  exact exact_of_fits hrounding h

theorem div (hx : Exact x p) (hy : Exact y q) (hq : q ≠ 0) (h : Fits (p / q)) :
    Exact (x / y) (p / q) := by
  have hrounding := Binary.isRounding_div hx.isFinite hy.isFinite (by rwa [hy.value_eq])
  rw [hx.value_eq, hy.value_eq] at hrounding
  exact exact_of_fits hrounding h

theorem lt_iff (hx : Exact x p) (hy : Exact y q) : x < y ↔ p < q := by
  rw [Binary.lt_iff_value_lt hx.ne_nan hy.ne_nan, hx.value_eq, hy.value_eq]

theorem max (hx : Exact x p) (hy : Exact y q) : Exact (x.max y) (Max.max p q) := by
  have hnan : x.isNaN = false := by
    have hne := hx.ne_nan
    cases x with
    | nan => exact absurd rfl hne
    | number => rfl
  rw [Binary.max, hnan, if_neg (by decide)]
  by_cases hlt : x < y
  · rw [if_pos hlt, max_eq_right ((hx.lt_iff hy).mp hlt).le]
    exact hy
  · rw [if_neg hlt, max_eq_left (not_lt.mp fun h => hlt ((hx.lt_iff hy).mpr h))]
    exact hx

end Exact

theorem exact_zero : Exact (.zero false) 0 := ⟨rfl, Binary.value_zero false⟩

theorem exact_ofInt {n : Int} (hn : |n| ≤ 2 ^ 24) : Exact (Binary.ofInt n) n :=
  ⟨(ofInt_exact hn).1, (ofInt_exact hn).2⟩

theorem exact_ofNat {n : Nat} (hn : n ≤ 2 ^ 24) : Exact (Binary.ofNat n) n :=
  ⟨(ofNat_exact hn).1, (ofNat_exact hn).2⟩

theorem exact_one : Exact (Binary.ofNat 1) 1 := ⟨one_exact.1, one_exact.2⟩

/-! ## Fractions -/

theorem fits_zero : Fits 0 :=
  ⟨0, Nat.zero_le _, by exact_mod_cast IsMultiple.intCast 0 0, by norm_num⟩

/-- The fraction of a number that is not negative is the lower part of its significand. -/
theorem fits_fract {x : Single} (hx : x.isFinite = true) (h : 0 ≤ x.value) :
    Fits (Int.fract x.value) := by
  rcases h.eq_or_lt with hzero | hpos
  · rw [← hzero, Int.fract_zero]
    exact fits_zero
  obtain ⟨s, i, hi, rfl, -⟩ := Binary.exists_eq_number hx
  obtain rfl := Binary.negative_eq_false hpos
  by_cases hlarge : Format.single.unitExponent ≤ Format.single.doublings i
  · -- A whole number has no fraction.
    rw [value_eq_int hi hlarge, Int.fract_intCast]
    exact fits_zero
  · have hvalue := value_eq_div (s := false) hi hlarge
    have hbits : Format.single.significand i < 2 ^ 24 := Format.single.significand_lt i
    generalize Format.single.significand i = m at hvalue hbits
    have hk : Format.single.unitExponent - Format.single.doublings i ≤ 149 := Nat.sub_le ..
    generalize Format.single.unitExponent - Format.single.doublings i = k at hvalue hk
    -- The point stands before the last `k` bits, and these are left.
    have hfract : Int.fract ((m : ℚ) / 2 ^ k) = ((m % 2 ^ k : Nat) : ℚ) / 2 ^ k := by
      have hmod := Int.fract_div_natCast_eq_div_natCast_mod (k := ℚ) (m := m) (n := 2 ^ k)
      rwa [Nat.cast_pow, Nat.cast_ofNat] at hmod
    have hle : m % 2 ^ k ≤ 2 ^ 24 := (Nat.mod_le m _).trans hbits.le
    rw [hvalue]
    show Fits (Int.fract (((m : Int) : ℚ) / 2 ^ k))
    rw [Int.cast_natCast, hfract]
    refine ⟨k, hk, ⟨(m % 2 ^ k : Nat), by rw [Int.cast_natCast]⟩, ?_⟩
    rw [abs_of_nonneg (by positivity), div_mul_cancel₀ _ (by positivity)]
    exact_mod_cast hle

/-- So the distance to the whole number below is not rounded, however small it is. -/
theorem exact_sub_floor {x : Single} (hx : x.isFinite = true) (h : 0 ≤ x.value) :
    Exact (x - x.floor) (Int.fract x.value) := by
  obtain ⟨hfloor, hvalue⟩ := value_floor hx
  exact Exact.sub ⟨hx, rfl⟩ ⟨hfloor, hvalue⟩ (fits_fract hx h)

/-! ## Sums -/

/-- Adding numbers of one grid is exact as long as all of them together stay in its range. The
induction is along both lists, with the sum so far as the number that is added to. -/
theorem exact_foldl_add {k : Nat} (hk : k ≤ 149) {c : ℚ} {numbers : List Single} {values : List ℚ}
    (h : List.Forall₂ (fun x q => Exact x q ∧ IsMultiple k q ∧ |q| ≤ c) numbers values)
    {x : Single} {p : ℚ} (hx : Exact x p) (hp : IsMultiple k p)
    (hsize : (|p| + values.length * c) * 2 ^ k ≤ 2 ^ 24) :
    Exact (numbers.foldl (· + ·) x) (p + values.sum) ∧ IsMultiple k (p + values.sum) ∧
      |p + values.sum| ≤ |p| + values.length * c := by
  induction h generalizing x p with
  | nil =>
    rw [List.sum_nil, add_zero]
    exact ⟨hx, hp, by simp⟩
  | @cons y q numbers values hy hrest ih =>
    obtain ⟨hy, hq, hqc⟩ := hy
    have hnext : |p + q| ≤ |p| + c := (abs_add_le p q).trans (by gcongr)
    have hc : 0 ≤ c := (abs_nonneg q).trans hqc
    have hlength : (0 : ℚ) ≤ values.length := Nat.cast_nonneg _
    rw [List.length_cons, Nat.cast_add_one] at hsize
    -- The room for all numbers together is room for this one.
    have hfits : Fits (p + q) := by
      refine (hp.add hq).fits hk hnext (le_trans ?_ hsize)
      gcongr
      nlinarith
    have hsize' : (|p + q| + values.length * c) * 2 ^ k ≤ 2 ^ 24 :=
      le_trans (mul_le_mul_of_nonneg_right (by linarith) (by positivity)) hsize
    obtain ⟨hexact, hmultiple, hbound⟩ := ih (hx.add hy hfits) (hp.add hq) hsize'
    rw [List.foldl_cons, List.sum_cons, ← add_assoc, List.length_cons, Nat.cast_add_one]
    exact ⟨hexact, hmultiple, hbound.trans (by linarith)⟩

end Single

end RegionPooling
