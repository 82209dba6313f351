import RegionPooling.Proofs.Binary.Operations

/-!
# Operations keep the order

Rounding is monotone, so operations on finite numbers keep the order of their operands. With
infinities they keep it too, as long as the results are numbers: an infinity is the first number
of all or the last one, and so is every sum, product or quotient that it is an operand of.

Of two numbers in order both are finite, or one of them is the infinity at its own end
(`Binary.infinity_or_isFinite`). That is the case split of every proof here: at either end there
is nothing to show, and between them the exact results are in order.

Main results:

* `Binary.add_value_le`, `Binary.mul_value_le`, `Binary.div_value_le` — sums, products by a
  number that is not negative, and quotients by a positive one.
* `Binary.le_add_of_ne_nan` — adding what is not negative does not lead down.
-/

namespace RegionPooling.Binary

variable {f : Format} {x x' y y' : Binary f}

/-! ## The two ends -/

theorem value_le_infinity (x : Binary f) : x.value ≤ (infinity false : Binary f).value := by
  rw [value_infinity, if_neg (by decide)]
  exact (abs_le.mp (abs_value_le x)).2

theorem infinity_le_value (x : Binary f) : (infinity true : Binary f).value ≤ x.value := by
  rw [value_infinity, if_pos rfl]
  exact (abs_le.mp (abs_value_le x)).1

/-- Of two numbers in order, the first is the first of all, the second is the last of all, or both
are finite. -/
theorem infinity_or_isFinite (hx : x ≠ nan) (hx' : x' ≠ nan) (h : x.value ≤ x'.value) :
    x = infinity true ∨ x' = infinity false ∨ x.isFinite = true ∧ x'.isFinite = true := by
  have hlimit := limit_pos f
  by_cases hfinite : x.isFinite = true
  · by_cases hfinite' : x'.isFinite = true
    · exact .inr (.inr ⟨hfinite, hfinite'⟩)
    · obtain ⟨s, rfl⟩ := exists_eq_infinity hx' hfinite'
      cases s with
      | false => exact .inr (.inl rfl)
      | true =>
        -- A finite number is not below the first one.
        rw [value_infinity, if_pos rfl] at h
        have hlower := (abs_lt.mp (isFinite_iff.mp hfinite).2).1
        linarith
  · obtain ⟨s, rfl⟩ := exists_eq_infinity hx hfinite
    cases s with
    | true => exact .inl rfl
    | false =>
      -- What is not below the last number is the last number.
      rw [value_infinity, if_neg (by decide)] at h
      have hlarge : ¬ x'.isFinite = true := fun hfinite' =>
        absurd (abs_lt.mp (isFinite_iff.mp hfinite').2).2 (not_lt.mpr h)
      exact .inr (.inl (eq_infinity hx' hlarge (hlimit.le.trans h)))

/-- What is in order are numbers, and their values are in order. -/
theorem le_iff : x ≤ y ↔ x ≠ nan ∧ y ≠ nan ∧ x.value ≤ y.value := by
  constructor
  · intro h
    have hx : x ≠ nan := by
      rintro rfl
      cases h
    have hy : y ≠ nan := by
      rintro rfl
      cases x with
      | nan => cases h
      | number => cases h
    exact ⟨hx, hy, (le_iff_value_le hx hy).mp h⟩
  · rintro ⟨hx, hy, h⟩
    exact (le_iff_value_le hx hy).mpr h

/-- Numbers are in order with themselves. -/
protected theorem le_refl (hx : x ≠ nan) : x ≤ x := le_iff.mpr ⟨hx, hx, Rat.le_refl⟩

protected theorem le_trans {z : Binary f} (hxy : x ≤ y) (hyz : y ≤ z) : x ≤ z := by
  obtain ⟨hx, -, hvalue⟩ := le_iff.mp hxy
  obtain ⟨-, hz, hvalue'⟩ := le_iff.mp hyz
  exact le_iff.mpr ⟨hx, hz, hvalue.trans hvalue'⟩

theorem not_lt_nan (x : Binary f) : ¬ x < nan := by
  intro h
  cases x with
  | nan => cases h
  | number s i hi => cases h

/-- What is in strict order are numbers, and their values are in strict order. -/
theorem lt_iff : x < y ↔ x ≠ nan ∧ y ≠ nan ∧ x.value < y.value := by
  constructor
  · intro h
    have hx : x ≠ nan := by
      rintro rfl
      exact not_nan_lt y h
    have hy : y ≠ nan := by
      rintro rfl
      exact not_lt_nan x h
    exact ⟨hx, hy, (lt_iff_value_lt hx hy).mp h⟩
  · rintro ⟨hx, hy, h⟩
    exact (lt_iff_value_lt hx hy).mpr h

protected theorem le_of_lt (h : x < y) : x ≤ y := by
  obtain ⟨hx, hy, hvalue⟩ := lt_iff.mp h
  exact le_iff.mpr ⟨hx, hy, hvalue.le⟩

/-- Two numbers are in one order or the other. -/
protected theorem le_of_not_lt (hx : x ≠ nan) (hy : y ≠ nan) (h : ¬ y < x) : x ≤ y := by
  rw [lt_iff_value_lt hy hx, not_lt] at h
  exact le_iff.mpr ⟨hx, hy, h⟩

/-- Nothing is above the last number. -/
theorem eq_infinity_of_le (h : infinity false ≤ x) : x = infinity false := by
  obtain ⟨hlast, hx, hvalue⟩ := le_iff.mp h
  rcases infinity_or_isFinite hlast hx hvalue with heq | heq | ⟨hfinite, -⟩
  · simp [infinity] at heq
  · exact heq
  · simp [infinity, isFinite] at hfinite

/-- Nothing is below the first number. -/
theorem eq_infinity_of_ge (h : x ≤ infinity true) : x = infinity true := by
  obtain ⟨hx, hfirst, hvalue⟩ := le_iff.mp h
  rcases infinity_or_isFinite hx hfirst hvalue with heq | heq | ⟨-, hfinite⟩
  · exact heq
  · simp [infinity] at heq
  · simp [infinity, isFinite] at hfinite

/-- Numbers are equal to themselves. -/
theorem numEq_self (hx : x ≠ nan) : x.numEq x = true := by
  cases x with
  | nan => exact absurd rfl hx
  | number => exact decide_eq_true rfl

/-- What something is equal to is a number. -/
theorem ne_nan_of_numEq (h : x.numEq y = true) : y ≠ nan := by
  rintro rfl
  cases x with
  | nan => cases h
  | number => cases h

/-- What is not negative and not above a finite number is finite. -/
theorem isFinite_of_nonneg_of_le (hnonneg : 0 ≤ x.value) (hle : x ≤ y) (hy : y.isFinite = true) :
    x.isFinite = true := by
  obtain ⟨hx, -, hvalue⟩ := le_iff.mp hle
  refine isFinite_iff.mpr ⟨hx, ?_⟩
  rw [abs_of_nonneg hnonneg]
  exact hvalue.trans_lt ((le_abs_self _).trans_lt (isFinite_iff.mp hy).2)

/-! ## Sums -/

/-- Both operands of a sum that is a number are numbers. -/
theorem ne_nan_of_add (h : x + y ≠ nan) : x ≠ nan ∧ y ≠ nan := by
  constructor
  · rintro rfl
    exact h rfl
  · rintro rfl
    cases x with
    | nan => exact h rfl
    | number => exact h rfl

/-- A sum with an infinity, if it is a number, is this infinity. -/
theorem add_infinity (h : x + y ≠ nan) {s : Bool} (hs : x = infinity s ∨ y = infinity s) :
    x + y = infinity s := by
  obtain ⟨hx, hy⟩ := ne_nan_of_add h
  cases x with
  | nan => exact absurd rfl hx
  | number u i hi =>
    cases y with
    | nan => exact absurd rfl hy
    | number t j hj =>
      have hsum : number u i hi + number t j hj =
          (if i = f.infinityIndex then
            if j = f.infinityIndex ∧ u ≠ t then nan else infinity u
          else if j = f.infinityIndex then infinity t
          else add (number u i hi) (number t j hj)) := by
        show add _ _ = _
        simp only [add]
        split_ifs <;> rfl
      rw [hsum] at h ⊢
      simp only [infinity, number.injEq] at hs
      rcases hs with ⟨rfl, rfl⟩ | ⟨rfl, rfl⟩
      · -- Only the opposite infinity takes the first summand away, and then there is no number.
        simp only [if_true] at h ⊢
        split_ifs at h ⊢ with hopposite
        · exact absurd rfl h
        · rfl
      · by_cases hi' : i = f.infinityIndex
        · -- Both summands are infinite, so they are the same.
          subst hi'
          by_cases hsign : u = t
          · rw [if_pos rfl, if_neg (fun hopposite => hopposite.2 hsign), hsign]
          · rw [if_pos rfl, if_pos ⟨rfl, hsign⟩] at h
            exact absurd rfl h
        · rw [if_neg hi', if_pos rfl]

/-- An infinity stays the same when a finite number is added to it. -/
theorem infinity_add {s : Bool} (hy : y.isFinite = true) : infinity s + y = infinity s := by
  obtain ⟨t, j, hj, rfl, hj'⟩ := exists_eq_number hy
  show add (number s _ _) _ = _
  simp only [add, if_true, hj', false_and, if_false]

/-- A sum with a finite number is a number. -/
theorem add_ne_nan (hx : x ≠ nan) (hy : y.isFinite = true) : x + y ≠ nan := by
  by_cases hfinite : x.isFinite = true
  · exact (isRounding_add hfinite hy).ne_nan
  · obtain ⟨s, rfl⟩ := exists_eq_infinity hx hfinite
    rw [infinity_add hy]
    exact hx

/-- Sums keep the order of their operands. -/
theorem add_value_le (hsum : x + y ≠ nan) (hsum' : x' + y' ≠ nan) (hx : x.value ≤ x'.value)
    (hy : y.value ≤ y'.value) : (x + y).value ≤ (x' + y').value := by
  obtain ⟨hxnan, hynan⟩ := ne_nan_of_add hsum
  obtain ⟨hxnan', hynan'⟩ := ne_nan_of_add hsum'
  rcases infinity_or_isFinite hxnan hxnan' hx with hfirst | hlast | ⟨hxfinite, hxfinite'⟩
  · rw [add_infinity hsum (.inl hfirst)]
    exact infinity_le_value _
  · rw [add_infinity hsum' (.inl hlast)]
    exact value_le_infinity _
  · rcases infinity_or_isFinite hynan hynan' hy with hfirst | hlast | ⟨hyfinite, hyfinite'⟩
    · rw [add_infinity hsum (.inr hfirst)]
      exact infinity_le_value _
    · rw [add_infinity hsum' (.inr hlast)]
      exact value_le_infinity _
    · exact (isRounding_add hxfinite hyfinite).mono (isRounding_add hxfinite' hyfinite')
        (add_le_add hx hy)

/-- A sum that is a number is not below its first summand if the second one is not negative. -/
theorem le_add_of_ne_nan (hsum : x + y ≠ nan) (h : 0 ≤ y.value) :
    x ≠ nan ∧ x.value ≤ (x + y).value := by
  obtain ⟨hx, hy⟩ := ne_nan_of_add hsum
  refine ⟨hx, ?_⟩
  by_cases hfinite : x.isFinite = true ∧ y.isFinite = true
  · exact (isRounding_add hfinite.1 hfinite.2).le_value hx (by linarith)
  · rcases not_and_or.mp hfinite with hinfinite | hinfinite
    · -- An infinite sum is its infinite summand.
      obtain ⟨s, hs⟩ := exists_eq_infinity hx hinfinite
      rw [add_infinity hsum (.inl hs), hs]
    · rw [add_infinity hsum (.inr (eq_infinity hy hinfinite h))]
      exact value_le_infinity x

/-! ## Products -/

theorem ne_nan_of_mul (h : x * y ≠ nan) : x ≠ nan ∧ y ≠ nan := by
  constructor
  · rintro rfl
    exact h rfl
  · rintro rfl
    cases x with
    | nan => exact h rfl
    | number => exact h rfl

theorem exists_eq_zero (hy : y ≠ nan) (h : y.value = 0) : ∃ s, y = zero s := by
  cases y with
  | nan => exact absurd rfl hy
  | number s j hj =>
    have habs := abs_value_number s j hj
    rw [h, abs_zero, eq_comm, div_eq_zero_iff] at habs
    have hunits : f.units j = 0 := by
      exact_mod_cast habs.resolve_right (unitsPerOne_pos f).ne'
    obtain rfl := (units_eq_zero_iff f j).mp hunits
    exact ⟨s, rfl⟩

/-- A positive number of infinities is the same infinity. -/
theorem infinity_mul {s : Bool} (hy : y ≠ nan) (hpos : 0 < y.value) :
    infinity s * y = infinity s := by
  cases y with
  | nan => exact absurd rfl hy
  | number t j hj =>
    have hzero : ¬ (f.infinityIndex = 0 ∨ j = 0) := by
      rintro (hzero | rfl)
      · have hlarge := infinityIndex_ge f
        have := f.fractions_pos
        omega
      · exact hpos.ne' (value_zero t)
    rw [negative_eq_false hpos]
    show mul (number s _ _) _ = _
    simp only [mul, true_or, if_true, if_neg hzero, Bool.bne_false]

/-- Infinity times zero is no number. -/
theorem infinity_mul_zero (s t : Bool) : (infinity s * zero t : Binary f) = nan := by
  show mul (number s _ _) (number t _ _) = _
  simp only [mul, true_or, or_true, if_true]

/-- Products by a number that is not negative keep the order of finite factors. -/
theorem mul_value_le (hx : 0 ≤ x.value) (hy : y.isFinite = true) (hy' : y'.isFinite = true)
    (hproduct : x * y ≠ nan) (hproduct' : x * y' ≠ nan) (hnonneg : 0 ≤ y.value)
    (h : y.value ≤ y'.value) : (x * y).value ≤ (x * y').value := by
  by_cases hfinite : x.isFinite = true
  · exact (isRounding_mul hfinite hy).mono (isRounding_mul hfinite hy')
      (mul_le_mul_of_nonneg_left h hx)
  · obtain ⟨hnan, -⟩ := ne_nan_of_mul hproduct
    obtain ⟨-, hnan'⟩ := ne_nan_of_mul hproduct'
    obtain rfl := eq_infinity hnan hfinite hx
    -- The product is a number, so the second factor is not zero.
    have hpos : 0 < y'.value := by
      refine lt_of_le_of_ne (hnonneg.trans h) fun hzero => hproduct' ?_
      obtain ⟨s, rfl⟩ := exists_eq_zero hnan' hzero.symm
      exact infinity_mul_zero false s
    rw [infinity_mul hnan' hpos]
    exact value_le_infinity _

/-! ## Quotients -/

theorem ne_nan_of_div (h : x / y ≠ nan) : x ≠ nan := by
  rintro rfl
  exact h rfl

/-- A quotient by a positive number is a number. -/
theorem div_ne_nan (hx : x ≠ nan) (hy : y.isFinite = true) (hpos : 0 < y.value) : x / y ≠ nan := by
  by_cases hfinite : x.isFinite = true
  · exact (isRounding_div hfinite hy hpos.ne').ne_nan
  · obtain ⟨s, rfl⟩ := exists_eq_infinity hx hfinite
    rw [infinity_div hy hpos]
    exact hx

/-- Quotients by a positive number keep the order. -/
theorem div_value_le (hx : x ≠ nan) (hx' : x' ≠ nan) (hy : y.isFinite = true)
    (hpos : 0 < y.value) (h : x.value ≤ x'.value) : (x / y).value ≤ (x' / y).value := by
  rcases infinity_or_isFinite hx hx' h with rfl | rfl | ⟨hfinite, hfinite'⟩
  · rw [infinity_div hy hpos]
    exact infinity_le_value _
  · rw [infinity_div hy hpos]
    exact value_le_infinity _
  · exact (isRounding_div hfinite hy hpos.ne').mono (isRounding_div hfinite' hy hpos.ne')
      (div_le_div_of_nonneg_right h hpos.le)

end RegionPooling.Binary
