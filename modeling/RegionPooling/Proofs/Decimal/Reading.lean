import RegionPooling.Json.Numeral
import RegionPooling.Proofs.Binary.Double
import RegionPooling.Proofs.Decimal.Gap
import RegionPooling.Proofs.Decimal.Shortest

/-!
# Reading a decimal back

A numeral is read as an eight-byte number, by multiplying or dividing its significand by a
power of ten, and where a four-byte number is wanted the result is rounded a second time. This
module shows that the shortest decimal of a four-byte number survives all these roundings.

`Decimal.Reads` relates a decimal to the eight-byte number that it is read as. The first
rounding misses the decimal by little (`Decimal.reads_error`), so a decimal that keeps away from
the midpoints around a four-byte number is still rounded to it (`Decimal.nearest_of_far`). A
decimal with few digits keeps away by `Decimal.midpoint_or_far`; if it is a midpoint itself, it
has few bits and is read exactly. One with many digits keeps away because it is the nearest to
the number on a fine grid (`Single.inside_of_fine`).

Main results:

* `Decimal.shortest_reads_back`, `Decimal.whole_reads_back` — the shortest decimal of a four-byte
  number reads back as this number.
-/

namespace RegionPooling

namespace Decimal

open Binary (IsRounding)

/-! ## Powers of ten -/

/-- A power of ten, rounded; up to twenty-two it is exact. -/
theorem tenPower_error {k : Nat} (hk : k ≤ 70) :
    (Numeral.tenPower k).isFinite = true ∧
      |(Numeral.tenPower k).value - 10 ^ k| ≤ 10 ^ k / 2 ^ 53 ∧
      (k ≤ 22 → (Numeral.tenPower k).value = 10 ^ k) := by
  have hrounding : IsRounding (10 ^ k) (Numeral.tenPower k) := by
    have h := isRounding_toBinary (f := .double) false ⟨1, k⟩
    simpa [value, Numeral.tenPower] using h
  have hone : (1 : ℚ) ≤ 10 ^ k := one_le_pow₀ (by norm_num)
  have hlow : (1 : ℚ) / 2 ^ 250 ≤ |10 ^ k| := by
    rw [abs_of_pos (by positivity)]
    refine le_trans ?_ hone
    norm_num
  have hhigh : |(10 : ℚ) ^ k| ≤ 2 ^ 250 := by
    rw [abs_of_pos (by positivity)]
    calc (10 : ℚ) ^ k ≤ 10 ^ 70 := pow_le_pow_right₀ (by norm_num) hk
      _ ≤ 2 ^ 250 := by norm_num
  obtain ⟨hfinite, herror⟩ := Double.relative_error hrounding hlow hhigh
  rw [abs_of_pos (show (0 : ℚ) < 10 ^ k by positivity)] at herror
  refine ⟨hfinite, herror, fun hexact => ?_⟩
  -- A power of five in the significand, and the power of two as doublings.
  have hbits : 5 ^ k ≤ 2 ^ 53 :=
    (Nat.pow_le_pow_right (by decide) hexact).trans (by decide)
  refine (Double.exact_of_isRounding hrounding hbits (show k ≤ 900 by omega)
    (Nat.zero_le 1074) ?_).2
  push_cast
  rw [pow_zero, div_one, ← mul_pow]
  norm_num

/-- A power of ten with a number is multiplied by. -/
theorem scale_natCast {x : Double} {k : Nat} (hk : k ≤ Numeral.largestPower)
    (h : (x * Numeral.tenPower k).isFinite = true) :
    Numeral.scale x k = some (x * Numeral.tenPower k) := by
  unfold Numeral.scale
  rw [if_pos (by omega), if_pos (Int.natCast_nonneg k), Int.toNat_natCast]
  exact if_pos h

/-- And divided by, if the exponent is negative. -/
theorem scale_neg_natCast (x : Double) {k : Nat} (hk : k ≤ Numeral.largestPower) (hk0 : k ≠ 0) :
    Numeral.scale x (-k) = some (x / Numeral.tenPower k) := by
  unfold Numeral.scale
  rw [if_pos (by omega), if_neg (by omega), Int.natAbs_neg, Int.natAbs_natCast]

/-! ## The first rounding -/

/-- The eight-byte number that a decimal is read as. -/
structure Reads (s : Nat) (e : Int) (y : Double) : Prop where
  scale : Numeral.scale (Binary.ofNat s) e = some y
  finite : y.isFinite = true
  error : |y.value - value ⟨s, e⟩| ≤ miss e * value ⟨s, e⟩
  rounding : e.natAbs ≤ 22 → IsRounding (value ⟨s, e⟩) y

theorem miss_of_le {e : Int} (h : e.natAbs ≤ 22) : miss e = 1 / 2 ^ 53 := by
  rw [miss, missParts, if_pos h]
  norm_num

theorem miss_of_lt {e : Int} (h : 22 < e.natAbs) : miss e = (2 ^ 10 + 1) / 2 ^ 62 := by
  rw [miss, missParts, if_neg (by omega)]
  norm_num

/-- Two relative errors of a part in `2 ^ 53`, one after the other, in a product. -/
theorem mul_error {s p t y : ℚ} (hs : 0 < s) (hp : 0 < p) (ht : |t - p| ≤ p / 2 ^ 53)
    (hy : |y - s * t| ≤ s * t / 2 ^ 53) : |y - s * p| ≤ (2 ^ 10 + 1) / 2 ^ 62 * (s * p) := by
  obtain ⟨hlower, hupper⟩ := abs_le.mp ht
  obtain ⟨hlower', hupper'⟩ := abs_le.mp hy
  have hfirst : s * t ≤ s * (p + p / 2 ^ 53) := mul_le_mul_of_nonneg_left (by linarith) hs.le
  have hsecond : s * (p - p / 2 ^ 53) ≤ s * t := mul_le_mul_of_nonneg_left (by linarith) hs.le
  have hpos : 0 < s * p := mul_pos hs hp
  have hsplit : s * (p + p / 2 ^ 53) = s * p + s * p / 2 ^ 53 := by ring
  have hsplit' : s * (p - p / 2 ^ 53) = s * p - s * p / 2 ^ 53 := by ring
  rw [abs_le]
  constructor
  · linarith
  · linarith

/-- And in a quotient. -/
theorem div_error {s p t y : ℚ} (hs : 0 < s) (hp : 0 < p) (ht : |t - p| ≤ p / 2 ^ 53)
    (hy : |y - s / t| ≤ s / t / 2 ^ 53) : |y - s / p| ≤ (2 ^ 10 + 1) / 2 ^ 62 * (s / p) := by
  obtain ⟨hlower, hupper⟩ := abs_le.mp ht
  obtain ⟨hlower', hupper'⟩ := abs_le.mp hy
  have htpos : 0 < t := by linarith
  have hpos : 0 < s / p := div_pos hs hp
  -- The quotient by the rounded power, against the exact one.
  have hfirst : s / t * (p - p / 2 ^ 53) ≤ s := by
    calc s / t * (p - p / 2 ^ 53) ≤ s / t * t :=
          mul_le_mul_of_nonneg_left (by linarith) (div_pos hs htpos).le
      _ = s := div_mul_cancel₀ _ htpos.ne'
  have hsecond : s ≤ s / t * (p + p / 2 ^ 53) := by
    calc s = s / t * t := (div_mul_cancel₀ _ htpos.ne').symm
      _ ≤ s / t * (p + p / 2 ^ 53) :=
          mul_le_mul_of_nonneg_left (by linarith) (div_pos hs htpos).le
  have hfirst : s / t * (1 - 1 / 2 ^ 53) ≤ s / p := by
    rw [le_div_iff₀ hp]
    linarith
  have hsecond : s / p ≤ s / t * (1 + 1 / 2 ^ 53) := by
    rw [div_le_iff₀ hp]
    linarith
  rw [abs_le]
  constructor
  · linarith
  · linarith

/-- A rounded power of ten, between bounds that keep products and quotients in range. -/
theorem tenPower_bounds {k : Nat} (hk : k ≤ 54) :
    1 / 2 ≤ (Numeral.tenPower k).value ∧ (Numeral.tenPower k).value ≤ 2 * 10 ^ 54 := by
  have hp1 : (1 : ℚ) ≤ 10 ^ k := one_le_pow₀ (by norm_num)
  have hp54 : (10 : ℚ) ^ k ≤ 10 ^ 54 := pow_le_pow_right₀ (by norm_num) hk
  obtain ⟨hlower, hupper⟩ := abs_le.mp (tenPower_error (show k ≤ 70 by omega)).2.1
  constructor
  · linarith
  · linarith

/-- A rounding of something positive that is neither too small nor too large. -/
theorem error_of_pos {q : ℚ} {y : Double} (h : IsRounding q y) (hlow : 1 / 2 ^ 250 ≤ q)
    (hhigh : q ≤ 2 ^ 250) : y.isFinite = true ∧ |y.value - q| ≤ q / 2 ^ 53 := by
  have hq : 0 < q := lt_of_lt_of_le (by norm_num) hlow
  have herror := Double.relative_error h (by rwa [abs_of_pos hq]) (by rwa [abs_of_pos hq])
  rwa [abs_of_pos hq] at herror

/-- A decimal with an exponent that is not negative is read by a multiplication. -/
theorem exists_reads_mul {s k : Nat} (hs : 0 < s) (hbits : s ≤ 2 ^ 53) (hk : k ≤ 54) :
    ∃ y, Reads s k y := by
  obtain ⟨hfinite, hexact⟩ := Double.ofNat_exact hbits
  obtain ⟨hpower, hten, htenExact⟩ := tenPower_error (show k ≤ 70 by omega)
  obtain ⟨htlow, hthigh⟩ := tenPower_bounds hk
  have hs1 : (1 : ℚ) ≤ s := by exact_mod_cast hs
  have hs53 : (s : ℚ) ≤ 2 ^ 53 := by exact_mod_cast hbits
  have hrounding := Binary.isRounding_mul hfinite hpower
  rw [hexact] at hrounding
  have hlow : (1 / (2 * 10 ^ 54) : ℚ) ≤ s * (Numeral.tenPower k).value := by
    calc (1 / (2 * 10 ^ 54) : ℚ) ≤ 1 * (1 / 2) := by norm_num
      _ ≤ s * (Numeral.tenPower k).value := by gcongr
  have hhigh : s * (Numeral.tenPower k).value ≤ 2 ^ 53 * (2 * 10 ^ 54) :=
    mul_le_mul hs53 hthigh (by linarith) (by norm_num)
  obtain ⟨hfinite', herror⟩ := error_of_pos hrounding (le_trans (by norm_num) hlow)
    (hhigh.trans (by norm_num))
  refine ⟨_, scale_natCast (hk.trans (by decide)) hfinite', hfinite', ?_, fun hsmall => ?_⟩
  · rw [value_natCast]
    by_cases hsmall : k ≤ 22
    · rw [miss_of_le (by omega), ← htenExact hsmall]
      linarith
    · rw [miss_of_lt (by omega)]
      exact mul_error (by linarith) (by positivity) hten herror
  · rw [value_natCast, ← htenExact (by omega)]
    exact hrounding

/-- A decimal with a negative exponent is read by a division. -/
theorem exists_reads_div {s k : Nat} (hs : 0 < s) (hbits : s ≤ 2 ^ 53) (hk : k ≤ 54) (hk0 : k ≠ 0) :
    ∃ y, Reads s (-k) y := by
  obtain ⟨hfinite, hexact⟩ := Double.ofNat_exact hbits
  obtain ⟨hpower, hten, htenExact⟩ := tenPower_error (show k ≤ 70 by omega)
  obtain ⟨htlow, hthigh⟩ := tenPower_bounds hk
  have htpos : 0 < (Numeral.tenPower k).value := by linarith
  have hs1 : (1 : ℚ) ≤ s := by exact_mod_cast hs
  have hs53 : (s : ℚ) ≤ 2 ^ 53 := by exact_mod_cast hbits
  have hrounding := Binary.isRounding_div hfinite hpower htpos.ne'
  rw [hexact] at hrounding
  have hlow : (1 / (2 * 10 ^ 54) : ℚ) ≤ s / (Numeral.tenPower k).value :=
    div_le_div₀ (by linarith) hs1 htpos hthigh
  have hhigh : s / (Numeral.tenPower k).value ≤ 2 ^ 53 * (2 * 10 ^ 54) := by
    calc s / (Numeral.tenPower k).value ≤ 2 ^ 53 / (1 / 2) :=
          div_le_div₀ (by norm_num) hs53 (by norm_num) htlow
      _ ≤ 2 ^ 53 * (2 * 10 ^ 54) := by norm_num
  obtain ⟨hfinite', herror⟩ := error_of_pos hrounding (le_trans (by norm_num) hlow)
    (hhigh.trans (by norm_num))
  refine ⟨_, scale_neg_natCast _ (hk.trans (by decide)) hk0, hfinite', ?_, fun hsmall => ?_⟩
  · rw [value_neg_natCast]
    by_cases hsmall : k ≤ 22
    · rw [miss_of_le (by omega), ← htenExact hsmall]
      linarith
    · rw [miss_of_lt (by omega)]
      exact div_error (by linarith) (by positivity) hten herror
  · rw [value_neg_natCast, ← htenExact (by omega)]
    exact hrounding

/-- A decimal whose significand is an eight-byte number is read as one not far from it. -/
theorem exists_reads {s : Nat} {e : Int} (hs : 0 < s) (hbits : s ≤ 2 ^ 53) (hlow : -54 ≤ e)
    (hhigh : e ≤ 54) : ∃ y, Reads s e y := by
  obtain ⟨k, hk, rfl | ⟨rfl, hk0⟩⟩ : ∃ k : Nat, k ≤ 54 ∧ (e = k ∨ e = -k ∧ k ≠ 0) :=
    ⟨e.natAbs, by omega, by omega⟩
  · exact exists_reads_mul hs hbits hk
  · exact exists_reads_div hs hbits hk hk0

/-! ## The second rounding -/

variable {s i : Nat} {e : Int} {y : Double}

/-- A decimal that keeps away from both midpoints around a number is rounded to it. -/
theorem nearest_of_far (hi : i + 1 < Format.single.infinityIndex)
    (herror : |y.value - value ⟨s, e⟩| ≤ miss e * value ⟨s, e⟩)
    (hlower : Format.single.midpoint i + miss e * value ⟨s, e⟩ < value ⟨s, e⟩)
    (hupper : value ⟨s, e⟩ + miss e * value ⟨s, e⟩ < Format.single.midpoint (i + 1)) :
    Format.single.nearest y.value = i + 1 := by
  obtain ⟨hge, hle⟩ := abs_le.mp herror
  exact Format.nearest_eq hi (by linarith) (by linarith)

/-- Powers of five in a number of few bits. -/
theorem le_of_five_pow_dvd {a k t : Nat} (ha : 0 < a) (hlt : a < 2 ^ 25) (h : 5 ^ k ∣ a * 2 ^ t) :
    k ≤ 22 := by
  have hcoprime : Nat.Coprime (5 ^ k) (2 ^ t) := Nat.Coprime.pow _ _ (by decide)
  have hle : 5 ^ k ≤ a := Nat.le_of_dvd ha (hcoprime.dvd_of_dvd_mul_right h)
  by_contra hgt
  have : 5 ^ 23 ≤ 5 ^ k := Nat.pow_le_pow_right (by decide) (by omega)
  omega

/-- A midpoint that is a decimal of few digits has an exact power of ten. -/
theorem natAbs_le_of_eq_midpoint {j : Nat} (hs : 0 < s) (hlt : s < fineFrom)
    (h : value ⟨s, e⟩ = Format.single.midpoint j) : e.natAbs ≤ 22 := by
  have hsub := value_sub_midpoint s e
    ((2 * Format.single.significand j + 1) * 2 ^ Format.single.doublings j)
  rw [← midpoint_eq, h, sub_self, zero_mul] at hsub
  have hzero : Convergents.error (tens e) (ones e) s
      ((2 * Format.single.significand j + 1) * 2 ^ Format.single.doublings j) = 0 := by
    exact_mod_cast hsub.symm
  have heq : s * tens e =
      (2 * Format.single.significand j + 1) * 2 ^ Format.single.doublings j * ones e := by
    have := sub_eq_zero.mp hzero
    exact_mod_cast this
  have hm := significand_midpoint_lt j
  have hsplit (k : Nat) : 10 ^ k = 5 ^ k * 2 ^ k := Nat.mul_pow 5 2 k
  rcases le_total 0 e with hsign | hsign
  · -- The midpoint has the powers of five of the numerator.
    have hones : ones e = 1 := by
      rw [ones, show (-e).toNat = 0 by omega, Nat.pow_zero]
    rw [hones, Nat.mul_one, tens, hsplit] at heq
    have hk := le_of_five_pow_dvd (Nat.succ_pos _) hm
      (show 5 ^ e.toNat ∣ _ from ⟨s * (2 ^ e.toNat * 2 ^ 150), by rw [← heq]; ring⟩)
    omega
  · -- The significand has those of the denominator.
    have htens : tens e = 2 ^ 150 := by
      rw [tens, show e.toNat = 0 by omega, Nat.pow_zero, Nat.one_mul]
    rw [htens, ones, hsplit] at heq
    have hlt : s < 2 ^ 25 := hlt.trans (by decide)
    have hk := le_of_five_pow_dvd hs hlt (show 5 ^ (-e).toNat ∣ s * 2 ^ 150 from
      ⟨(2 * Format.single.significand j + 1) * 2 ^ Format.single.doublings j * 2 ^ (-e).toNat,
        by rw [heq]; ring⟩)
    omega

/-- So it is read exactly. -/
theorem value_eq_of_eq_midpoint {j : Nat} (hj : j ≤ Format.single.infinityIndex) (hs : 0 < s)
    (hlt : s < fineFrom) (hy : Reads s e y) (h : value ⟨s, e⟩ = Format.single.midpoint j) :
    y.value = value ⟨s, e⟩ := by
  have hup : Format.single.doublings j ≤ 900 := by
    have : j / Format.single.fractions ≤ Format.single.infinityIndex / Format.single.fractions :=
      Nat.div_le_div_right hj
    have : Format.single.infinityIndex / Format.single.fractions = 255 := by decide
    unfold Format.doublings
    omega
  have hbits : 2 * Format.single.significand j + 1 ≤ 2 ^ 53 :=
    (significand_midpoint_lt j).le.trans (by decide)
  refine (Double.exact_of_isRounding (hy.rounding (natAbs_le_of_eq_midpoint hs hlt h)) hbits hup
    (show 150 ≤ 1074 by decide) ?_).2
  rw [h, midpoint_eq]
  push_cast
  rfl

/-- A decimal of few digits is rounded to the number that is nearest to it. -/
theorem nearest_of_few (hi : i + 1 < Format.single.infinityIndex) (hlow : -54 ≤ e) (hhigh : e ≤ 38)
    (hs : 0 < s) (hlt : s < fineFrom) (hclose : ¬ IsClose e s) (hy : Reads s e y)
    (hreads : Format.single.nearest (value ⟨s, e⟩) = i + 1) :
    Format.single.nearest y.value = i + 1 := by
  have hge := Format.midpoint_le hi (value_nonneg _) hreads
  have hle := Format.le_midpoint hi hreads
  rcases midpoint_or_far hlow hhigh hs hlt i with heq | hfar | habsurd
  · rw [value_eq_of_eq_midpoint (by omega) hs hlt hy heq, hreads]
  · rcases midpoint_or_far hlow hhigh hs hlt (i + 1) with heq | hfar' | habsurd
    · rw [value_eq_of_eq_midpoint hi.le hs hlt hy heq, hreads]
    · rw [abs_of_nonneg (by linarith)] at hfar
      rw [abs_of_nonpos (by linarith)] at hfar'
      exact nearest_of_far hi hy.error (by linarith) (by linarith)
    · exact absurd habsurd hclose
  · exact absurd habsurd hclose

/-- Conversion of what a positive decimal is read as. -/
theorem convert_eq (hfinite : y.isFinite = true) (hpos : 0 < y.value) :
    ∃ h, (y.convert : Single) = .number false (Format.single.nearest y.value) h := by
  obtain ⟨t, j, hj, rfl, hne⟩ := Binary.exists_eq_number hfinite
  obtain rfl := Binary.negative_eq_false hpos
  exact Binary.convert_number hj hne

theorem value_pos (hs : 0 < s) : 0 < value ⟨s, e⟩ := by
  have hs : (0 : ℚ) < s := Nat.cast_pos.mpr hs
  unfold value
  positivity

theorem miss_le (e : Int) : miss e ≤ (2 ^ 10 + 1) / 2 ^ 62 := by
  have hle : (missParts e : ℚ) ≤ 2 ^ 10 + 1 := by exact_mod_cast missParts_le e
  rw [miss]
  gcongr

theorem Reads.value_pos (hy : Reads s e y) (hs : 0 < s) : 0 < y.value := by
  have hvalue := Decimal.value_pos (e := e) hs
  have hmiss : miss e ≤ 1 / 2 := (miss_le e).trans (by norm_num)
  have := (abs_le.mp hy.error).1
  nlinarith

/-- The two decimals close to a midpoint are read on the right side of it. -/
theorem nearest_of_close (hclose : IsClose e s) (hy : Reads s e y) :
    Format.single.nearest y.value = Format.single.nearest (value ⟨s, e⟩) := by
  have hscale (n : Nat) : Numeral.scale (Binary.ofNat n) (-32) =
      some (Binary.ofNat n / Numeral.tenPower 32) :=
    scale_neg_natCast _ (by decide) (by decide)
  have hfirst : ((Binary.ofNat 7038531 / Numeral.tenPower 32 : Double).convert : Single) =
      toBinary false ⟨7038531, -32⟩ := by decide +kernel
  have hsecond : ((Binary.ofNat 14077062 / Numeral.tenPower 32 : Double).convert : Single) =
      toBinary false ⟨14077062, -32⟩ := by decide +kernel
  have hconvert : (y.convert : Single) = toBinary false ⟨s, e⟩ := by
    obtain ⟨rfl, rfl | rfl⟩ := hclose
    · rw [← hfirst, Option.some.inj ((hscale _).symm.trans hy.scale)]
    · rw [← hsecond, Option.some.inj ((hscale _).symm.trans hy.scale)]
  have hs : 0 < s := by
    obtain ⟨-, rfl | rfl⟩ := hclose
    · decide
    · decide
  obtain ⟨h, heq⟩ := convert_eq hy.finite (hy.value_pos hs)
  rw [heq] at hconvert
  exact (Binary.number.inj hconvert).2.trans (index_eq_nearest ..)

/-! ## Shortest decimals -/

theorem midpoint_pos (j : Nat) : 0 < Format.single.midpoint j := by
  rw [midpoint_eq]
  positivity

/-- All finite numbers and the midpoints above them have at most 39 digits. -/
theorem midpoint_lt (hi : i + 1 < Format.single.infinityIndex) :
    Format.single.midpoint (i + 1) < 10 ^ (39 : Int) := by
  have hU := Binary.unitsPerOne_pos Format.single
  have hfirst : (Format.single.units (i + 1) : ℚ) ≤ Format.single.units Format.single.infinityIndex :=
    Nat.cast_le.mpr (Format.single.units_strictMono.monotone hi.le)
  have hsecond : (Format.single.units (i + 2) : ℚ) ≤
      Format.single.units Format.single.infinityIndex :=
    Nat.cast_le.mpr (Format.single.units_strictMono.monotone hi)
  have hlimit : Format.single.midpoint (i + 1) ≤ Format.single.limit := by
    rw [Format.midpoint, Format.limit, div_le_div_iff₀ (by positivity) hU]
    nlinarith
  refine hlimit.trans_lt ?_
  rw [Single.limit_eq]
  norm_num

/-- A decimal of many digits keeps away from the midpoints because its grid is fine. -/
theorem nearest_of_many {lower : Nat} {d : Decimal} (hi : i + 1 < Format.single.infinityIndex)
    (hneighbour : Format.single.IsNeighbour (i + 1) d lower) (hvalue : d.value = value ⟨s, e⟩)
    (hle : d.exponent ≤ e) (hmany : fineFrom ≤ s) (hy : Reads s e y) :
    Format.single.nearest y.value = i + 1 := by
  have hfine : (2 ^ 24 + 2 ^ 10) * 10 ^ d.exponent ≤ d.value := by
    have hmany : (2 ^ 24 + 2 ^ 10 : ℚ) ≤ s := by exact_mod_cast hmany
    have hten : (10 : ℚ) ^ d.exponent ≤ 10 ^ e := zpow_le_zpow_right₀ (by norm_num) hle
    rw [hvalue]
    exact mul_le_mul hmany hten (by positivity) (Nat.cast_nonneg s)
  obtain ⟨hlower, hupper, hrange⟩ := Single.inside_of_fine hi hneighbour hfine
  rw [hvalue] at hlower hupper hrange
  have hstep := Single.step_pos i
  have hmiss : miss e * value ⟨s, e⟩ < Single.step i / 2 ^ 16 := by
    calc miss e * value ⟨s, e⟩ ≤ (2 ^ 10 + 1) / 2 ^ 62 * (2 ^ 25 * Single.step i) :=
          mul_le_mul (miss_le e) hrange (value_nonneg _) (by norm_num)
      _ < Single.step i / 2 ^ 16 := by linarith
  exact nearest_of_far hi hy.error (by linarith) (by linarith)

/-- The number nearest to the shortest decimal, in one step. -/
theorem nearest_shortest (tie : Tie) (hi : i + 1 < Format.single.infinityIndex) :
    Format.single.nearest (Format.single.shortestDecimal tie (i + 1)).value = i + 1 := by
  obtain ⟨-, -, lower, hneighbour⟩ := Single.shortestDecimal_spec tie hi
  rw [← index_eq_nearest]
  exact hneighbour.reads

theorem shortest_value_pos (tie : Tie) (hi : i + 1 < Format.single.infinityIndex) :
    0 < (Format.single.shortestDecimal tie (i + 1)).value :=
  (midpoint_pos i).trans_le (Format.midpoint_le hi (value_nonneg _) (nearest_shortest tie hi))

/-- A whole number written with one more zero after the point is read exactly. -/
theorem whole_reads_back (tie : Tie) {n : Nat} (hi : i + 1 < Format.single.infinityIndex)
    (hbits : n * 10 ≤ 2 ^ 53) (hn : (Format.single.shortestDecimal tie (i + 1)).value = n) :
    ∃ y, Numeral.scale (Binary.ofNat (n * 10)) (-1) = some y ∧
      ∃ h, (y.convert : Single) = .number false (i + 1) h := by
  have hnearest := nearest_shortest tie hi
  have hpos : 0 < n * 10 := by
    have := shortest_value_pos tie hi
    rw [hn] at this
    exact Nat.mul_pos (Nat.cast_pos.mp this) (by decide)
  obtain ⟨y, hy⟩ := exists_reads (e := -1) hpos hbits (by decide) (by decide)
  have hexact : y.value = n := by
    rw [← value_tenths]
    refine (Double.exact_of_isRounding (hy.rounding (by decide)) (show n ≤ 2 ^ 53 by omega)
      (Nat.zero_le 900) (Nat.zero_le 1074) ?_).2
    rw [value_tenths]
    simp
  obtain ⟨h, hconvert⟩ := convert_eq hy.finite (hy.value_pos hpos)
  refine ⟨y, hy.scale, hi.le, ?_⟩
  simp only [hconvert, hexact, ← hn, hnearest]

/--
The shortest decimal of a four-byte number reads back as this number, also without the zeros at
its end.
-/
theorem shortest_reads_back (tie : Tie) {t : Nat} (hi : i + 1 < Format.single.infinityIndex)
    (hs : (Format.single.shortestDecimal tie (i + 1)).significand = s * 10 ^ t)
    (he : e = (Format.single.shortestDecimal tie (i + 1)).exponent + t) :
    ∃ y, Numeral.scale (Binary.ofNat s) e = some y ∧
      ∃ h, (y.convert : Single) = .number false (i + 1) h := by
  obtain ⟨hlow, hnine, lower, hneighbour⟩ := Single.shortestDecimal_spec tie hi
  have hnearest := nearest_shortest tie hi
  have hpos := Format.single.shortestDecimal_significand_pos tie i
  generalize Format.single.shortestDecimal tie (i + 1) = d at *
  have hvalue : d.value = value ⟨s, e⟩ := he ▸ value_eq_of_significand hs
  have hreads : Format.single.nearest (value ⟨s, e⟩) = i + 1 := hvalue ▸ hnearest
  have hge := Format.midpoint_le hi (value_nonneg _) hreads
  have hle := Format.le_midpoint hi hreads
  have hspos : 0 < s := Nat.pos_of_mul_pos_right (hs ▸ hpos)
  have hbits : s ≤ 10 ^ 9 := by
    have : s * 1 ≤ s * 10 ^ t := Nat.mul_le_mul_left _ (Nat.pow_pos (by decide))
    omega
  have hhigh : e < 39 := exponent_lt_of_value_lt hspos (hle.trans_lt (midpoint_lt hi))
  obtain ⟨y, hy⟩ := exists_reads (e := e) hspos (hbits.trans (by decide)) (by omega) (by omega)
  obtain ⟨h, hconvert⟩ := convert_eq hy.finite (hy.value_pos hspos)
  have hsecond : Format.single.nearest y.value = i + 1 := by
    by_cases hmany : fineFrom ≤ s
    · exact nearest_of_many hi hneighbour hvalue (by omega) hmany hy
    · by_cases hclose : IsClose e s
      · rw [nearest_of_close hclose hy, hreads]
      · exact nearest_of_few hi (by omega) (by omega) hspos (Nat.lt_of_not_le hmany) hclose hy hreads
  refine ⟨y, hy.scale, hi.le, ?_⟩
  simp only [hconvert, hsecond]

end Decimal

end RegionPooling
