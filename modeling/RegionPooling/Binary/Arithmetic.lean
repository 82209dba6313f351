import RegionPooling.Binary.Number

/-!
# Arithmetic of binary numbers

Each operation computes its exact result and rounds it once, to the nearest number, a tie to
the even index. The special cases are those of the standard for binary arithmetic: an
operation without a meaningful result gives not-a-number, a result too large gives infinity,
and a sum that is exactly zero is `-0` only for two negatives.

Sums and products are computed on significands. `add_number` and `mul_number` say what they
are in units: the sum and the product of the operands, rounded.

Conversions to and from whole numbers and between formats follow the same rule. Numbers
leave the format for whole numbers through `clampToInt`, which cuts the fraction off.
-/

namespace RegionPooling

-- The powers of the natural numbers themselves, whatever else is in scope.
attribute [local instance (2000)] instPowNat

namespace Binary

variable {f : Format}

/-! ## Sign -/

def neg : Binary f → Binary f
  | nan => nan
  | number negative index h => number (!negative) index h

def abs : Binary f → Binary f
  | nan => nan
  | number _ index h => number false index h

instance : Neg (Binary f) := ⟨neg⟩

/-! ## Sums -/

/-- Doublings that two values share. Zero is doubled as often as need be. -/
@[specialize f]
def sharedDoublings (f : Format) (i j : Nat) : Nat :=
  if i = 0 then f.doublings j
  else if j = 0 then f.doublings i
  else Nat.min (f.doublings i) (f.doublings j)

/-- The value at an index, counted in units that are doubled `shared` times. -/
@[specialize f]
def sharedUnits (f : Format) (shared index : Nat) : Nat :=
  f.significand index * twoPow (f.doublings index - shared)

/-- The sum of two magnitudes with their signs, counted in units doubled `shared` times. -/
@[specialize f]
def addScaled (shared : Nat) (s : Bool) (a : Nat) (t : Bool) (b : Nat) : Binary f :=
  if s = t then ofScaled s (a + b) shared 0
  else if a = b then zero false
  -- Of unequal magnitudes with different signs the larger one gives the sign.
  else if b < a then ofScaled s (a - b) shared 0
  else ofScaled t (b - a) shared 0

@[specialize f]
def add : Binary f → Binary f → Binary f
  | number s i _, number t j _ =>
    if i = f.infinityIndex then
      -- Opposite infinities have no sum.
      if j = f.infinityIndex ∧ s ≠ t then nan else infinity s
    else if j = f.infinityIndex then infinity t
    else
      let shared := sharedDoublings f i j
      addScaled shared s (sharedUnits f shared i) t (sharedUnits f shared j)
  | _, _ => nan

@[specialize f]
def sub (a b : Binary f) : Binary f := add a b.neg

instance : Add (Binary f) := ⟨add⟩

instance : Sub (Binary f) := ⟨sub⟩

/-! ## Products and quotients -/

@[specialize f]
def mul : Binary f → Binary f → Binary f
  | number s i _, number t j _ =>
    if i = f.infinityIndex ∨ j = f.infinityIndex then
      -- Zero times infinity has no value.
      if i = 0 ∨ j = 0 then nan else infinity (s != t)
    else
      -- The product of two counts of units is too large by one factor `unitsPerOne`.
      ofScaled (s != t) (f.significand i * f.significand j) (f.doublings i + f.doublings j)
        f.unitExponent
  | _, _ => nan

@[specialize f]
def div : Binary f → Binary f → Binary f
  | number s i _, number t j _ =>
    if i = f.infinityIndex then
      if j = f.infinityIndex then nan else infinity (s != t)
    else if j = f.infinityIndex then zero (s != t)
    else if j = 0 then
      -- Zero over zero has no value; over zero, everything else is infinite.
      if i = 0 then nan else infinity (s != t)
    else ofUnits (s != t) (f.units i * f.unitsPerOne) (f.units j)
  | _, _ => nan

instance : Mul (Binary f) := ⟨mul⟩

instance : Div (Binary f) := ⟨div⟩

/-! ## Sums and products in units -/

/-- A magnitude with its sign. -/
def signed (negative : Bool) (magnitude : Nat) : Int :=
  if negative then -(magnitude : Int) else magnitude

theorem sharedUnits_mul {i shared : Nat} (h : i = 0 ∨ shared ≤ f.doublings i) :
    sharedUnits f shared i * 2 ^ shared = f.units i := by
  rw [sharedUnits, twoPow_eq, Nat.mul_assoc, ← Nat.pow_add]
  rcases h with rfl | h
  · have hpos : 0 < f.fractions := Nat.pow_pos (by decide)
    simp [Format.significand, Format.units, hpos]
  · rw [Nat.sub_add_cancel h, Format.units]

theorem sharedDoublings_left (f : Format) (i j : Nat) :
    i = 0 ∨ sharedDoublings f i j ≤ f.doublings i := by
  unfold sharedDoublings
  split
  · exact Or.inl (by assumption)
  · split
    · exact Or.inr (Nat.le_refl _)
    · exact Or.inr (Nat.min_le_left ..)

theorem sharedDoublings_right (f : Format) (i j : Nat) :
    j = 0 ∨ sharedDoublings f i j ≤ f.doublings j := by
  unfold sharedDoublings
  split
  · exact Or.inr (Nat.le_refl _)
  · split
    · exact Or.inl (by assumption)
    · exact Or.inr (Nat.min_le_right ..)

/-- The sum of scaled magnitudes is the sum of the whole numbers they stand for, rounded. -/
theorem addScaled_eq (shared : Nat) (s : Bool) (a : Nat) (t : Bool) (b : Nat) :
    addScaled (f := f) shared s a t b =
      let sum := signed s (a * 2 ^ shared) + signed t (b * 2 ^ shared)
      if sum = 0 then zero (s && t) else ofUnits (decide (sum < 0)) sum.natAbs 1 := by
  have hpos : 0 < 2 ^ shared := Nat.pow_pos (by decide)
  have hscaled (negative : Bool) (n : Nat) :
      ofScaled (f := f) negative n shared 0 = ofUnits negative (n * 2 ^ shared) 1 :=
    ofScaled_eq negative n shared 0
  have heq : a = b ↔ a * 2 ^ shared = b * 2 ^ shared :=
    (Nat.mul_left_inj (Nat.ne_of_gt hpos)).symm
  have hlt : b < a ↔ b * 2 ^ shared < a * 2 ^ shared := (Nat.mul_lt_mul_right hpos).symm
  simp only [addScaled, hscaled, Nat.add_mul, Nat.sub_mul, heq, hlt]
  generalize a * 2 ^ shared = a
  generalize b * 2 ^ shared = b
  -- Equal signs make a sum; different signs a difference, whose sign is that of the larger one.
  by_cases hst : s = t
  · subst hst
    by_cases hzero : a + b = 0
    · have ha : a = 0 := by omega
      have hb : b = 0 := by omega
      cases s <;> simp [signed, ha, hb, ofUnits_zero]
    · have hsum : signed s a + signed s b = signed s (a + b) := by
        cases s <;> simp [signed] <;> omega
      have hne : signed s (a + b) ≠ 0 := by cases s <;> simp [signed] <;> omega
      have hsign : decide (signed s (a + b) < 0) = s := by cases s <;> simp [signed] <;> omega
      have habs : (signed s (a + b)).natAbs = a + b := by cases s <;> simp [signed] <;> omega
      simp only [if_true, hsum, hne, if_false, hsign, habs]
  · have ht : t = !s := by cases s <;> cases t <;> simp_all
    subst ht
    rcases Nat.lt_trichotomy a b with h | h | h
    · have hne : signed s a + signed (!s) b ≠ 0 := by cases s <;> simp [signed] <;> omega
      have hsign : decide (signed s a + signed (!s) b < 0) = !s := by
        cases s <;> simp [signed] <;> omega
      have habs : (signed s a + signed (!s) b).natAbs = b - a := by
        cases s <;> simp [signed] <;> omega
      simp only [hst, hne, hsign, habs, if_false, Nat.ne_of_lt h, Nat.not_lt_of_gt h]
    · subst h
      have hsum : signed s a + signed (!s) a = 0 := by
        cases s
        · exact Int.add_right_neg a
        · exact Int.add_left_neg a
      simp only [hst, hsum, if_true, if_false, Bool.and_not_self]
    · have hne : signed s a + signed (!s) b ≠ 0 := by cases s <;> simp [signed] <;> omega
      have hsign : decide (signed s a + signed (!s) b < 0) = s := by
        cases s <;> simp [signed] <;> omega
      have habs : (signed s a + signed (!s) b).natAbs = a - b := by
        cases s <;> simp [signed] <;> omega
      simp only [hst, hne, hsign, habs, if_false, if_true, Nat.ne_of_gt h, h]

/-- The sum of finite numbers is the sum of their units, rounded. -/
theorem add_number {s t : Bool} {i j : Nat} {hi : i ≤ f.infinityIndex} {hj : j ≤ f.infinityIndex}
    (hi' : i ≠ f.infinityIndex) (hj' : j ≠ f.infinityIndex) :
    add (number s i hi) (number t j hj) =
      let sum := signed s (f.units i) + signed t (f.units j)
      if sum = 0 then zero (s && t) else ofUnits (decide (sum < 0)) sum.natAbs 1 := by
  have hleft := sharedUnits_mul (sharedDoublings_left f i j)
  have hright := sharedUnits_mul (sharedDoublings_right f i j)
  simp only [add, hi', hj', if_false, addScaled_eq, hleft, hright]

/-- The product of finite numbers is the product of their units in the right scale, rounded. -/
theorem mul_number {s t : Bool} {i j : Nat} {hi : i ≤ f.infinityIndex} {hj : j ≤ f.infinityIndex}
    (hi' : i ≠ f.infinityIndex) (hj' : j ≠ f.infinityIndex) :
    mul (number s i hi) (number t j hj) =
      ofUnits (s != t) (f.units i * f.units j) f.unitsPerOne := by
  simp only [mul, hi', hj', or_self, if_false, ofScaled_eq, Format.units, Format.unitsPerOne]
  rw [Nat.mul_mul_mul_comm, Nat.pow_add]

/-! ## Whole numbers -/

/-- The nearest number to a natural number. -/
@[specialize f]
def ofNat (n : Nat) : Binary f := ofScaled false n f.unitExponent 0

/-- The nearest number to a whole number. -/
@[specialize f]
def ofInt (n : Int) : Binary f := ofScaled (decide (n < 0)) n.natAbs f.unitExponent 0

/--
Replaces a finite number by a whole one of the same sign; `whole` finds its magnitude from
the sign and the magnitude as a ratio. A number that is doubled often enough is whole already.
-/
@[specialize f]
def toWhole (whole : Bool → Nat → Nat → Nat) : Binary f → Binary f
  | nan => nan
  | number s i h =>
    if f.unitExponent ≤ f.doublings i then number s i h
    else
      let magnitude := whole s (f.significand i) (twoPow (f.unitExponent - f.doublings i))
      ofScaled s magnitude f.unitExponent 0

/-- The quotient rounded up. -/
def divUp (num den : Nat) : Nat := (num + (den - 1)) / den

/-- The largest whole number that is not above. -/
@[specialize f]
def floor : Binary f → Binary f :=
  toWhole fun negative num den => if negative then divUp num den else num / den

/-- The smallest whole number that is not below. -/
@[specialize f]
def ceil : Binary f → Binary f :=
  toWhole fun negative num den => if negative then num / den else divUp num den

/-- The nearest whole number; a half goes away from zero. -/
@[specialize f]
def round : Binary f → Binary f :=
  toWhole fun _ num den => (2 * num + den) / (2 * den)

/-- The whole part of the magnitude at a finite index. -/
@[specialize f]
def wholePart (f : Format) (index : Nat) : Nat :=
  if f.unitExponent ≤ f.doublings index then
    f.significand index * twoPow (f.doublings index - f.unitExponent)
  else f.significand index / twoPow (f.unitExponent - f.doublings index)

theorem wholePart_eq (f : Format) (index : Nat) :
    wholePart f index = f.units index / f.unitsPerOne := by
  simp only [wholePart, twoPow_eq, Format.units, Format.unitsPerOne]
  have hpos : 0 < 2 ^ f.unitExponent := Nat.pow_pos (by decide)
  split
  · rename_i h
    rw [← Nat.sub_add_cancel h, Nat.pow_add, ← Nat.mul_assoc, Nat.mul_div_cancel _ hpos]
    simp
  · rename_i h
    have h : f.doublings index ≤ f.unitExponent := by omega
    conv => rhs; rw [← Nat.sub_add_cancel h, Nat.pow_add]
    rw [Nat.mul_div_mul_right _ _ (Nat.pow_pos (by decide))]

/--
The whole part as an integer within the bounds: what lies outside goes to the nearer
bound, not-a-number to zero.
-/
@[specialize f]
def clampToInt (lower upper : Int) : Binary f → Int
  | nan => 0
  | number s i _ =>
    if i = f.infinityIndex then if s then lower else upper
    else
      let whole : Int := wholePart f i
      Max.max lower (Min.min upper (if s then -whole else whole))

/-! ## Other formats -/

/-- The nearest number of another format. -/
@[specialize f]
def convert {g : Format} : Binary f → Binary g
  | nan => nan
  | number s i _ =>
    if i = f.infinityIndex then infinity s
    else ofScaled s (f.significand i) (f.doublings i + g.unitExponent) f.unitExponent

end Binary

end RegionPooling
