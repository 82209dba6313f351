import RegionPooling.Binary.Format

/-!
# Rounding to a format

`Format.nearestIndex` finds the value nearest to any ratio of naturals, counted in units. It
is the one place where numbers are rounded: operations compute their exact result as such a
ratio and round it once.

Most results are a number of few bits, doubled and halved many times.
`Format.nearestScaled` rounds those without writing them out, and gives the same index
(`nearestScaled_eq`).
-/

namespace RegionPooling

-- The powers of the natural numbers themselves, whatever else is in scope.
attribute [local instance (2000)] instPowNat

namespace Format

/-- Quotient rounded to the nearest whole number; a tie goes to the even neighbour. -/
def divToEven (num den : Nat) : Nat :=
  let quotient := num / den
  let twice := 2 * (num % den)
  if twice < den then quotient
  else if den < twice then quotient + 1
  -- A tie: an odd quotient goes up, an even one stays.
  else quotient + quotient % 2

/--
The index of the value nearest to `num / den` units; a tie goes to the even index.

Above `2 * fractions` units the format keeps only the leading bits: the ratio is scaled
down by `2 ^ shift` so that `fractions ≤ ratio < 2 * fractions` before it is rounded. What
rounds past the largest finite value is infinity.
-/
@[specialize f]
def nearestIndex (f : Format) (num den : Nat) : Nat :=
  -- The bits past the fraction; none below `2 * fractions`, where all neighbours are one apart.
  let shift := (num / den).log2 - f.fractionBits
  -- A carry out of the rounded fraction moves the index into the next exponent by itself.
  min f.infinityIndex (shift * f.fractions + divToEven num (den * 2 ^ shift))

theorem nearestIndex_le (f : Format) (num den : Nat) :
    f.nearestIndex num den ≤ f.infinityIndex :=
  Nat.min_le_left ..

/-- The index of the value nearest to `num * 2 ^ up / 2 ^ down` units. -/
@[specialize f]
def nearestScaled (f : Format) (num up down : Nat) : Nat :=
  if num = 0 then 0
  else
    let shift := num.log2 + up - down - f.fractionBits
    -- Of the powers of two above and below, only their quotient is ever computed.
    let drop := down + shift
    min f.infinityIndex
      (shift * f.fractions + divToEven (num * twoPow (up - drop)) (twoPow (drop - up)))

/-! ## Both agree -/

theorem divToEven_mul_right (num den : Nat) {c : Nat} (hc : 0 < c) :
    divToEven (num * c) (den * c) = divToEven num den := by
  have hlt (a b : Nat) : 2 * (a * c) < b * c ↔ 2 * a < b := by
    rw [← Nat.mul_assoc, Nat.mul_lt_mul_right hc]
  have hgt (a b : Nat) : b * c < 2 * (a * c) ↔ b < 2 * a := by
    rw [← Nat.mul_assoc, Nat.mul_lt_mul_right hc]
  simp only [divToEven, Nat.mul_div_mul_right _ _ hc, Nat.mul_mod_mul_right, hlt, hgt]

theorem divToEven_zero (den : Nat) : divToEven 0 den = 0 := by simp [divToEven]

theorem log2_mul_two_pow {n : Nat} (hn : n ≠ 0) (k : Nat) : (n * 2 ^ k).log2 = n.log2 + k := by
  have hpos : 0 < 2 ^ k := Nat.pow_pos (by decide)
  rw [Nat.log2_eq_iff (Nat.mul_ne_zero hn (Nat.ne_of_gt hpos))]
  rw [Nat.pow_add, Nat.add_right_comm, Nat.pow_add]
  exact ⟨Nat.mul_le_mul_right _ (Nat.log2_self_le hn),
    Nat.mul_lt_mul_of_pos_right Nat.lt_log2_self hpos⟩

theorem log2_div_two_pow (n k : Nat) : (n / 2 ^ k).log2 = n.log2 - k := by
  have hpos : 0 < 2 ^ k := Nat.pow_pos (by decide)
  by_cases hn : n = 0
  · simp [hn]
  by_cases hk : k ≤ n.log2
  · have hle : 2 ^ k ≤ n := (Nat.le_log2 hn).1 hk
    rw [Nat.log2_eq_iff (Nat.ne_of_gt (Nat.div_pos hle hpos))]
    rw [Nat.le_div_iff_mul_le hpos, Nat.div_lt_iff_lt_mul hpos, ← Nat.pow_add, ← Nat.pow_add]
    rw [Nat.sub_add_cancel hk, Nat.add_right_comm, Nat.sub_add_cancel hk]
    exact ⟨Nat.log2_self_le hn, Nat.lt_log2_self⟩
  · have hlt : n < 2 ^ k := (Nat.log2_lt hn).1 (Nat.lt_of_not_le hk)
    rw [Nat.div_eq_of_lt hlt, Nat.log2_zero]
    omega

theorem nearestScaled_eq (f : Format) (num up down : Nat) :
    f.nearestScaled num up down = f.nearestIndex (num * 2 ^ up) (2 ^ down) := by
  unfold nearestScaled nearestIndex
  split
  · rename_i h
    simp [h, divToEven_zero]
  · rename_i h
    simp only [twoPow_eq, log2_div_two_pow, log2_mul_two_pow h]
    generalize num.log2 + up - down - f.fractionBits = shift
    -- The smaller one of the two powers is a factor of both sides of the ratio.
    have hup : num * 2 ^ up = num * 2 ^ (up - (down + shift)) * 2 ^ min up (down + shift) := by
      rw [Nat.mul_assoc, ← Nat.pow_add]
      congr 2
      omega
    have hdown : 2 ^ down * 2 ^ shift = 2 ^ (down + shift - up) * 2 ^ min up (down + shift) := by
      rw [← Nat.pow_add, ← Nat.pow_add]
      congr 1
      omega
    rw [hup, hdown, divToEven_mul_right _ _ (Nat.pow_pos (by decide))]

theorem nearestScaled_le (f : Format) (num up down : Nat) :
    f.nearestScaled num up down ≤ f.infinityIndex :=
  f.nearestScaled_eq num up down ▸ f.nearestIndex_le ..

end Format

end RegionPooling
