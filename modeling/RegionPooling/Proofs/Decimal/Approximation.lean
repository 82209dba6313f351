import Mathlib.Tactic.LinearCombination
import Mathlib.Tactic.Linarith
import Mathlib.Tactic.Ring

/-!
# How close multiples of two numbers come

Given two naturals `x` and `y`, how small can `s * x - m * y` be without being zero, for `s`
below some bound? Two successive convergents `p / q` and `p' / q'` of `x / y` answer this. As
their determinant is one, every pair of `m` and `s` is a combination of the two with whole
coefficients; and as they lie on different sides of `x / y`, the parts of a combination with
`s < q'` do not cancel. So no such pair comes closer than `p` and `q` do, and other pairs than
their multiples stay away much farther.

The convergents come from the Euclidean algorithm, but nothing is proved about it: that a pair
of fractions is as described (`Convergents.Around`) can be decided.

Main results:

* `Convergents.error_le` — no pair comes closer than the first convergent.
* `Convergents.multiple_or_error_le` — the pairs that are no multiples of it are far.
-/

namespace RegionPooling

/-- Two fractions `p / q` and `p' / q'`. -/
structure Convergents where
  p : Nat
  q : Nat
  p' : Nat
  q' : Nat
  deriving DecidableEq

namespace Convergents

/-- How far the multiple `s` of `x` is from the multiple `m` of `y`. -/
def error (x y s m : Nat) : Int := s * x - m * y

/-- The fractions are neighbours, and `x / y` lies between them. -/
structure Around (c : Convergents) (x y : Nat) : Prop where
  determinant : c.p * c.q' + 1 = c.p' * c.q ∨ c.p' * c.q + 1 = c.p * c.q'
  signs : (error x y c.q c.p ≤ 0 ∧ 0 ≤ error x y c.q' c.p') ∨
    (0 ≤ error x y c.q c.p ∧ error x y c.q' c.p' ≤ 0)

instance (c : Convergents) (x y : Nat) : Decidable (c.Around x y) :=
  decidable_of_iff
    ((c.p * c.q' + 1 = c.p' * c.q ∨ c.p' * c.q + 1 = c.p * c.q') ∧
      ((error x y c.q c.p ≤ 0 ∧ 0 ≤ error x y c.q' c.p') ∨
        (0 ≤ error x y c.q c.p ∧ error x y c.q' c.p' ≤ 0)))
    ⟨fun h => ⟨h.1, h.2⟩, fun h => ⟨h.1, h.2⟩⟩

/-- The Euclidean algorithm on two remainders, up to a denominator that reaches the bound. -/
def search (bound : Nat) : Nat → Nat → Nat → Convergents → Convergents
  | 0, _, _, c => c
  | fuel + 1, r, r', c =>
    if r' = 0 ∨ bound ≤ c.q' then c
    else search bound fuel r' (r % r')
      ⟨c.p', c.q', c.p + r / r' * c.p', c.q + r / r' * c.q'⟩

/-- The last convergents of `x / y` of which the first one has a denominator below the bound. -/
def ofRatio (bound x y : Nat) : Convergents := search bound 64 x y ⟨0, 1, 1, 0⟩

variable {c : Convergents} {x y s m : Nat}

/-! ## Combinations -/

/-- Every pair is a combination of the two fractions. -/
theorem Around.exists_combination (h : c.Around x y) (s m : Nat) : ∃ a b : Int,
    (s : Int) = a * c.q + b * c.q' ∧ (m : Int) = a * c.p + b * c.p' ∧
      error x y s m = a * error x y c.q c.p + b * error x y c.q' c.p' := by
  -- The coefficients by the rule for two linear equations; the determinant is a sign.
  obtain ⟨d, hd, hsquare⟩ : ∃ d : Int, (c.p : Int) * c.q' - c.p' * c.q = d ∧ d * d = 1 := by
    rcases h.determinant with hdet | hdet
    · have hdet : (c.p : Int) * c.q' + 1 = c.p' * c.q := by exact_mod_cast hdet
      exact ⟨-1, by linarith, rfl⟩
    · have hdet : (c.p' : Int) * c.q + 1 = c.p * c.q' := by exact_mod_cast hdet
      exact ⟨1, by linarith, rfl⟩
  have hs : (s : Int) = d * (m * c.q' - s * c.p') * c.q + d * (s * c.p - m * c.q) * c.q' := by
    linear_combination (-(s : Int)) * hsquare - s * d * hd
  have hm : (m : Int) = d * (m * c.q' - s * c.p') * c.p + d * (s * c.p - m * c.q) * c.p' := by
    linear_combination (-(m : Int)) * hsquare - m * d * hd
  refine ⟨_, _, hs, hm, ?_⟩
  simp only [error]
  linear_combination (x : Int) * hs - y * hm

/-- The errors of the two fractions have opposite signs, so in a combination whose coefficients
have opposite signs too they add up. -/
theorem Around.natAbs_combination (h : c.Around x y) {a b : Int} (hab : a * b ≤ 0) :
    a.natAbs * (error x y c.q c.p).natAbs ≤
      (a * error x y c.q c.p + b * error x y c.q' c.p').natAbs := by
  rw [← Int.natAbs_mul]
  have hmul : 0 ≤ (a * error x y c.q c.p) * (b * error x y c.q' c.p') := by
    have hsigns : error x y c.q c.p * error x y c.q' c.p' ≤ 0 := by
      rcases h.signs with ⟨hle, hge⟩ | ⟨hge, hle⟩
      · exact mul_nonpos_of_nonpos_of_nonneg hle hge
      · exact mul_nonpos_of_nonneg_of_nonpos hge hle
    calc (0 : Int) ≤ (a * b) * (error x y c.q c.p * error x y c.q' c.p') :=
          mul_nonneg_of_nonpos_of_nonpos hab hsigns
      _ = (a * error x y c.q c.p) * (b * error x y c.q' c.p') := by ring
  rcases mul_nonneg_iff.mp hmul with ⟨ha, hb⟩ | ⟨ha, hb⟩
  · omega
  · omega

/-- Below the second denominator the coefficients have opposite signs, and the first one counts. -/
theorem coefficients_of_lt {a b : Int} (hs : 0 < s) (hlt : s < c.q')
    (hsum : (s : Int) = a * c.q + b * c.q') : a * b ≤ 0 ∧ a ≠ 0 := by
  have hq : (0 : Int) ≤ c.q := Int.natCast_nonneg _
  have hpos : (0 : Int) < s := by exact_mod_cast hs
  have hlt : (s : Int) < c.q' := by exact_mod_cast hlt
  rcases lt_trichotomy b 0 with hb | rfl | hb
  · have ha : 0 < a := by
      by_contra hneg
      nlinarith
    exact ⟨(mul_neg_of_pos_of_neg ha hb).le, ha.ne'⟩
  · refine ⟨by simp, ?_⟩
    rintro rfl
    simp at hsum
    omega
  · have ha : a < 0 := by
      by_contra hneg
      nlinarith
    exact ⟨(mul_neg_of_neg_of_pos ha hb).le, ha.ne⟩

/-! ## Gaps -/

/-- No pair comes closer than the first fraction, unless there is nothing between. The second
fraction only has to be exact or to have a large denominator. -/
theorem error_le (h : c.Around x y) (hbound : s < c.q' ∨ error x y c.q' c.p' = 0) (hs : 0 < s)
    (hne : error x y s m ≠ 0) : (error x y c.q c.p).natAbs ≤ (error x y s m).natAbs := by
  obtain ⟨a, b, hsum, -, herror⟩ := h.exists_combination s m
  have hone {a : Int} (ha : a ≠ 0) : (error x y c.q c.p).natAbs ≤
      a.natAbs * (error x y c.q c.p).natAbs :=
    Nat.le_mul_of_pos_left _ (Int.natAbs_pos.mpr ha)
  rcases hbound with hlt | hexact
  · obtain ⟨hab, ha⟩ := coefficients_of_lt hs hlt hsum
    rw [herror]
    exact (hone ha).trans (h.natAbs_combination hab)
  · rw [hexact, mul_zero, add_zero] at herror
    have ha : a ≠ 0 := by
      rintro rfl
      exact hne (by rw [herror, zero_mul])
    rw [herror, Int.natAbs_mul]
    exact hone ha

/-- Other pairs than the multiples of the first fraction are farther from being exact than it,
by about the factor between the denominators. -/
theorem multiple_or_error_le (h : c.Around x y) (hs : 0 < s) (hlt : s < c.q') :
    (∃ a : Nat, s = a * c.q ∧ m = a * c.p) ∨
      (c.q' - s) * (error x y c.q c.p).natAbs ≤ c.q * (error x y s m).natAbs := by
  obtain ⟨a, b, hsum, hsum', herror⟩ := h.exists_combination s m
  obtain ⟨hab, ha⟩ := coefficients_of_lt hs hlt hsum
  have hq : (0 : Int) ≤ c.q := Int.natCast_nonneg _
  by_cases hb : b = 0
  · left
    subst hb
    rw [zero_mul, add_zero] at hsum hsum'
    have hpos : 0 ≤ a := by
      by_contra hneg
      have : (s : Int) ≤ 0 := hsum ▸ mul_nonpos_of_nonpos_of_nonneg (by omega) hq
      omega
    refine ⟨a.toNat, ?_, ?_⟩
    · have : (s : Int) = a.toNat * c.q := by rw [Int.toNat_of_nonneg hpos, hsum]
      exact_mod_cast this
    · have : (m : Int) = a.toNat * c.p := by rw [Int.toNat_of_nonneg hpos, hsum']
      exact_mod_cast this
  · right
    -- The second fraction takes part, and the first one has to make up for it.
    have hlarge : c.q' - s ≤ c.q * a.natAbs := by
      have hmul : (c.q' : Int) - s ≤ c.q * |a| := by
        rcases lt_or_gt_of_ne hb with hneg | hpos
        · have ha0 : 0 < a := by
            by_contra hnot
            have : 0 < a * b := mul_pos_of_neg_of_neg (by omega) hneg
            omega
          rw [abs_of_pos ha0]
          nlinarith
        · have ha0 : a < 0 := by
            by_contra hnot
            have : 0 < a * b := mul_pos (by omega) hpos
            omega
          rw [abs_of_neg ha0]
          nlinarith
      have hcast : ((c.q' - s : Nat) : Int) ≤ (c.q * a.natAbs : Nat) := by
        push_cast [Nat.cast_sub hlt.le]
        exact hmul
      exact_mod_cast hcast
    calc (c.q' - s) * (error x y c.q c.p).natAbs
        ≤ c.q * a.natAbs * (error x y c.q c.p).natAbs := Nat.mul_le_mul_right _ hlarge
      _ = c.q * (a.natAbs * (error x y c.q c.p).natAbs) := Nat.mul_assoc ..
      _ ≤ c.q * (error x y s m).natAbs := by
          rw [herror]
          exact Nat.mul_le_mul_left _ (h.natAbs_combination hab)

end Convergents

end RegionPooling
