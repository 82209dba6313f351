import RegionPooling.Proofs.Binary.Single
import RegionPooling.Proofs.Decimal.Value

/-!
# Shortest decimals

The search for the shortest decimal tries grids of decimals, each ten times finer than the one
before, until one of the two neighbours of the number on the grid reads back as the number.
`Format.IsNeighbour` says all that the search knows about the decimal it finds: which neighbour
it is, that it reads back, and that it is the nearer one if the other one reads back too.

The search succeeds as soon as decimals are closer to each other than the number is to a midpoint.
For numbers of four bytes this is so with nine digits at the latest.

Main results:

* `Format.neighbour?_spec` — what the search finds on one grid.
* `Format.shortestDecimal_spec_of_fine` — what it finds where the grids become fine enough.
* `Single.shortestDecimal_spec` — the shortest decimal of a four-byte number.
-/

namespace RegionPooling

-- The powers of the natural numbers themselves, whatever else is in scope.
attribute [local instance (2000)] instPowNat

namespace Format

variable (f : Format)

/-- The value at an index. -/
def valueAt (i : Nat) : ℚ := f.units i / f.unitsPerOne

theorem units_succ_pos (i : Nat) : 0 < f.units (i + 1) := by
  rw [f.units_succ]
  exact Nat.add_pos_right _ (Nat.pow_pos (by decide))

theorem valueAt_nonneg (i : Nat) : 0 ≤ f.valueAt i :=
  div_nonneg (Nat.cast_nonneg _) (Binary.unitsPerOne_pos f).le

/-- The distance from the number at an index to the next one. -/
def step (i : Nat) : ℚ := 2 ^ f.doublings i / f.unitsPerOne

theorem step_pos (i : Nat) : 0 < f.step i := by
  have hU := Binary.unitsPerOne_pos f
  unfold step
  positivity

theorem valueAt_succ (i : Nat) : f.valueAt (i + 1) = f.valueAt i + f.step i := by
  rw [valueAt, valueAt, units_succ, step, ← add_div]
  push_cast
  rfl

theorem midpoint_eq_add (i : Nat) : f.midpoint i = f.valueAt i + f.step i / 2 := by
  have hU := (Binary.unitsPerOne_pos f).ne'
  rw [midpoint, units_succ, valueAt, step]
  push_cast
  field_simp
  ring

theorem step_le_succ (i : Nat) : f.step i ≤ f.step (i + 1) := by
  have hU := Binary.unitsPerOne_pos f
  have hle : f.doublings i ≤ f.doublings (i + 1) :=
    Nat.sub_le_sub_right (Nat.div_le_div_right (Nat.le_succ i)) 1
  unfold step
  gcongr
  norm_num

/-- A number has few bits, so it is not many times as large as its distance from the one before. -/
theorem valueAt_succ_le (i : Nat) : f.valueAt (i + 1) ≤ (2 * f.fractions : Nat) * f.step i := by
  have hU := Binary.unitsPerOne_pos f
  have hlt : f.significand i + 1 ≤ 2 * f.fractions := f.significand_lt i
  have hunits : f.units (i + 1) ≤ 2 * f.fractions * 2 ^ f.doublings i := by
    calc f.units (i + 1) = (f.significand i + 1) * 2 ^ f.doublings i := by
          rw [f.units_succ, units]
          ring
      _ ≤ 2 * f.fractions * 2 ^ f.doublings i := Nat.mul_le_mul_right _ hlt
  have hunits : (f.units (i + 1) : ℚ) ≤ (2 * f.fractions : Nat) * 2 ^ f.doublings i := by
    exact_mod_cast hunits
  rw [valueAt, step, ← mul_div_assoc]
  gcongr

/-- What is less than half a step away from a number is rounded to it. -/
theorem nearest_of_near {i : Nat} (hi : i + 1 < f.infinityIndex) {q : ℚ}
    (h : |q - f.valueAt (i + 1)| < f.step i / 2) : f.nearest q = i + 1 := by
  obtain ⟨hlower, hupper⟩ := abs_lt.mp h
  have hnext := f.step_le_succ i
  have hsucc := f.valueAt_succ i
  refine nearest_eq hi ?_ ?_
  · rw [midpoint_eq_add]
    linarith
  · rw [midpoint_eq_add]
    linarith

/-! ## Neighbours on a grid -/

/--
The decimal is one of the two neighbours of the number at an index, on the grid of its exponent,
and reads back as this number. If the other neighbour does so too, it is the nearer one.
-/
structure IsNeighbour (i : Nat) (d : Decimal) (lower : Nat) : Prop where
  lower_le : Decimal.value ⟨lower, d.exponent⟩ ≤ f.valueAt i
  lt_upper : f.valueAt i < Decimal.value ⟨lower + 1, d.exponent⟩
  reads : d.index f = i
  side : d.significand = lower ∧ (Decimal.index f ⟨lower + 1, d.exponent⟩ = i →
        2 * (f.valueAt i - d.value) ≤ 10 ^ d.exponent) ∨
    d.significand = lower + 1 ∧ (Decimal.index f ⟨lower, d.exponent⟩ = i →
        2 * (d.value - f.valueAt i) ≤ 10 ^ d.exponent)

/-- A number on a grid as a ratio. -/
theorem valueAt_mul_onGrid (i : Nat) (e : Int) :
    f.valueAt i * (Decimal.onGrid (f.units i) f.unitsPerOne e).2 =
      (Decimal.onGrid (f.units i) f.unitsPerOne e).1 * 10 ^ e := by
  have hU := (Binary.unitsPerOne_pos f).ne'
  have hones : ((10 ^ (-e).toNat : Nat) : ℚ) ≠ 0 :=
    Nat.cast_ne_zero.mpr (Nat.pow_pos (by decide)).ne'
  rw [Decimal.zpow_eq, valueAt, Decimal.onGrid, Nat.cast_mul, Nat.cast_mul]
  field_simp

/-- The whole steps up to a number on a grid, and the rest of the way. -/
theorem exists_steps (i : Nat) (e : Int) {num den : Nat}
    (h : Decimal.onGrid (f.units i) f.unitsPerOne e = (num, den)) :
    0 < den ∧ num % den < den ∧
      (f.valueAt i - Decimal.value ⟨num / den, e⟩) * den = (num % den : Nat) * 10 ^ e := by
  have hden : 0 < den := by
    have hpos : 0 < f.unitsPerOne * 10 ^ e.toNat :=
      Nat.mul_pos f.unitsPerOne_pos (Nat.pow_pos (by decide))
    rwa [← show _ = den from (Prod.ext_iff.mp h).2]
  have hvalue := f.valueAt_mul_onGrid i e
  rw [h] at hvalue
  have hdiv : ((num / den : Nat) : ℚ) * den + (num % den : Nat) = num := by
    exact_mod_cast Nat.div_add_mod' num den
  refine ⟨hden, Nat.mod_lt _ hden, ?_⟩
  rw [sub_mul, hvalue, ← hdiv, Decimal.value]
  ring

section Grid

variable {f} {i num den : Nat} {e : Int}

/-- The number lies between its neighbours on the grid. -/
theorem between_neighbours (hgrid : Decimal.onGrid (f.units i) f.unitsPerOne e = (num, den)) :
    Decimal.value ⟨num / den, e⟩ ≤ f.valueAt i ∧
      f.valueAt i < Decimal.value ⟨num / den + 1, e⟩ := by
  obtain ⟨hden, hmod, hsteps⟩ := f.exists_steps i e hgrid
  have hden : (0 : ℚ) < den := Nat.cast_pos.mpr hden
  have hten : (0 : ℚ) < 10 ^ e := by positivity
  have hmod : ((num % den : Nat) : ℚ) < den := Nat.cast_lt.mpr hmod
  have hlower : 0 ≤ (f.valueAt i - Decimal.value ⟨num / den, e⟩) * den := by
    rw [hsteps]
    positivity
  have hupper : (f.valueAt i - Decimal.value ⟨num / den, e⟩) * den < 10 ^ e * den := by
    rw [hsteps, mul_comm]
    exact mul_lt_mul_of_pos_left hmod hten
  rw [Decimal.value_succ]
  constructor
  · linarith [nonneg_of_mul_nonneg_left hlower hden]
  · linarith [lt_of_mul_lt_mul_right hupper hden.le]

/-- The neighbour below is the nearer one if the rest of the way is at most half a step. -/
theorem isNeighbour_below (hgrid : Decimal.onGrid (f.units i) f.unitsPerOne e = (num, den))
    (hreads : Decimal.index f ⟨num / den, e⟩ = i)
    (hnear : Decimal.index f ⟨num / den + 1, e⟩ = i → 2 * (num % den) ≤ den) :
    f.IsNeighbour i ⟨num / den, e⟩ (num / den) := by
  obtain ⟨hlower, hupper⟩ := between_neighbours hgrid
  refine ⟨hlower, hupper, hreads, .inl ⟨rfl, fun hother => ?_⟩⟩
  obtain ⟨hden, -, hsteps⟩ := f.exists_steps i e hgrid
  have hten : (0 : ℚ) < 10 ^ e := by positivity
  have hle : 2 * ((num % den : Nat) : ℚ) ≤ den := by exact_mod_cast hnear hother
  refine le_of_mul_le_mul_right ?_ (Nat.cast_pos.mpr hden : (0 : ℚ) < den)
  rw [mul_assoc, hsteps]
  nlinarith

/-- And the one above if it is at least half a step. -/
theorem isNeighbour_above (hgrid : Decimal.onGrid (f.units i) f.unitsPerOne e = (num, den))
    (hreads : Decimal.index f ⟨num / den + 1, e⟩ = i)
    (hnear : Decimal.index f ⟨num / den, e⟩ = i → den ≤ 2 * (num % den)) :
    f.IsNeighbour i ⟨num / den + 1, e⟩ (num / den) := by
  obtain ⟨hlower, hupper⟩ := between_neighbours hgrid
  refine ⟨hlower, hupper, hreads, .inr ⟨rfl, fun hother => ?_⟩⟩
  obtain ⟨hden, -, hsteps⟩ := f.exists_steps i e hgrid
  have hten : (0 : ℚ) < 10 ^ e := by positivity
  have hle : (den : ℚ) ≤ 2 * (num % den : Nat) := by exact_mod_cast hnear hother
  refine le_of_mul_le_mul_right ?_ (Nat.cast_pos.mpr hden : (0 : ℚ) < den)
  rw [Decimal.value_succ]
  nlinarith

end Grid

/-- What the search finds on one grid. -/
theorem neighbour?_spec {tie : Tie} {i : Nat} {e : Int} {d : Decimal}
    (h : f.neighbour? tie i e = some d) :
    d.exponent = e ∧ ∃ lower, f.IsNeighbour i d lower := by
  obtain ⟨num, den, hgrid⟩ : ∃ num den, Decimal.onGrid (f.units i) f.unitsPerOne e = (num, den) :=
    ⟨_, _, rfl⟩
  unfold neighbour? at h
  rw [hgrid] at h
  dsimp only at h
  by_cases hl : Decimal.index f ⟨num / den, e⟩ = i
  · by_cases hu : Decimal.index f ⟨num / den + 1, e⟩ = i
    · rw [decide_eq_true hl, decide_eq_true hu] at h
      dsimp only at h
      split at h
      · cases h
        exact ⟨rfl, _, isNeighbour_below hgrid hl fun _ => by omega⟩
      · split at h
        · cases h
          exact ⟨rfl, _, isNeighbour_above hgrid hu fun _ => by omega⟩
        · -- A tie; both neighbours are half a step away.
          split at h
          · cases h
            exact ⟨rfl, _, isNeighbour_below hgrid hl fun _ => by omega⟩
          · cases h
            exact ⟨rfl, _, isNeighbour_above hgrid hu fun _ => by omega⟩
    · rw [decide_eq_true hl, decide_eq_false hu] at h
      cases h
      exact ⟨rfl, _, isNeighbour_below hgrid hl fun hother => absurd hother hu⟩
  · by_cases hu : Decimal.index f ⟨num / den + 1, e⟩ = i
    · rw [decide_eq_false hl, decide_eq_true hu] at h
      cases h
      exact ⟨rfl, _, isNeighbour_above hgrid hu fun hother => absurd hother hl⟩
    · rw [decide_eq_false hl, decide_eq_false hu] at h
      cases h

/-- Where the number below on the grid reads back, the search finds something. -/
theorem exists_neighbour {tie : Tie} {i : Nat} {e : Int} {num den : Nat}
    (hgrid : Decimal.onGrid (f.units i) f.unitsPerOne e = (num, den))
    (hreads : Decimal.index f ⟨num / den, e⟩ = i) : ∃ d, f.neighbour? tie i e = some d := by
  unfold neighbour?
  rw [hgrid]
  dsimp only
  rw [decide_eq_true hreads]
  by_cases hu : Decimal.index f ⟨num / den + 1, e⟩ = i
  · rw [decide_eq_true hu]
    dsimp only
    split
    · exact ⟨_, rfl⟩
    · split
      · exact ⟨_, rfl⟩
      · split
        · exact ⟨_, rfl⟩
        · exact ⟨_, rfl⟩
  · rw [decide_eq_false hu]
    exact ⟨_, rfl⟩

/-- The grids of the search: the shortest decimal is a neighbour on one of them. -/
theorem shortestDecimal_of_exists {tie : Tie} {i : Nat}
    (h : ∃ further < f.enoughDigits, ∃ d, f.neighbour? tie i
      (Decimal.leadingExponent (f.units i) f.unitsPerOne - (further : Nat)) = some d) :
    ∃ further < f.enoughDigits,
      (f.shortestDecimal tie i).exponent =
        Decimal.leadingExponent (f.units i) f.unitsPerOne - (further : Nat) ∧
      ∃ lower, f.IsNeighbour i (f.shortestDecimal tie i) lower := by
  obtain ⟨enough, henough, d, hd⟩ := h
  have hsome : ((List.range f.enoughDigits).findSome? fun (further : Nat) =>
      f.neighbour? tie i
        (Decimal.leadingExponent (f.units i) f.unitsPerOne - further)).isSome := by
    rw [List.findSome?_isSome_iff]
    exact ⟨enough, List.mem_range.mpr henough, by rw [hd]; rfl⟩
  obtain ⟨found, hfound⟩ := Option.isSome_iff_exists.mp hsome
  obtain ⟨further, hmem, hneighbour⟩ := List.exists_of_findSome?_eq_some hfound
  have hshortest : f.shortestDecimal tie i = found := by
    unfold shortestDecimal
    dsimp only
    rw [hfound, Option.getD_some]
  rw [hshortest]
  exact ⟨further, List.mem_range.mp hmem, f.neighbour?_spec hneighbour⟩

/-! ## The search -/

/-- The number of the digits that the search has found is never zero. -/
theorem shortestDecimal_significand_pos (tie : Tie) (i : Nat) :
    0 < (f.shortestDecimal tie (i + 1)).significand := by
  unfold shortestDecimal
  dsimp only
  cases hfound : (List.range f.enoughDigits).findSome? fun (further : Nat) =>
      f.neighbour? tie (i + 1)
        (Decimal.leadingExponent (f.units (i + 1)) f.unitsPerOne - further) with
  | none => exact Nat.mul_pos (f.units_succ_pos i) (Nat.pow_pos (by decide))
  | some d =>
    obtain ⟨further, -, hneighbour⟩ := List.exists_of_findSome?_eq_some hfound
    obtain ⟨-, lower, hd⟩ := f.neighbour?_spec hneighbour
    -- Zero is read back as the number at index zero.
    refine Nat.pos_of_ne_zero fun hzero => ?_
    have hreads := hd.reads
    rw [Option.getD_some] at hzero
    have hvalue : d.value = f.units 0 / f.unitsPerOne := by
      have hunits : f.units 0 = 0 := by
        rw [units, significand, if_pos f.fractions_pos, Nat.zero_mul]
      rw [Decimal.value, hzero, hunits, Nat.cast_zero, zero_mul, zero_div]
    rw [Decimal.index_eq_nearest, hvalue, f.nearest_units (Nat.zero_le _)] at hreads
    omega

/-- With so many digits that the grid is finer than the numbers, the number below reads back. -/
theorem exists_neighbour_of_fine (tie : Tie) {i further : Nat} (hi : i + 1 < f.infinityIndex)
    (hfine : 4 * f.fractions < 10 ^ further) : ∃ d, f.neighbour? tie (i + 1)
      (Decimal.leadingExponent (f.units (i + 1)) f.unitsPerOne - (further : Nat)) = some d := by
  have hpos := f.units_succ_pos i
  obtain ⟨hleading, -⟩ := Decimal.leadingExponent_spec hpos f.unitsPerOne_pos
  set leading := Decimal.leadingExponent (f.units (i + 1)) f.unitsPerOne
  obtain ⟨num, den, hgrid⟩ : ∃ num den, Decimal.onGrid (f.units (i + 1)) f.unitsPerOne
      (leading - further) = (num, den) := ⟨_, _, rfl⟩
  obtain ⟨hbelow, habove⟩ := between_neighbours hgrid
  rw [Decimal.value_succ] at habove
  have hten : (0 : ℚ) < 10 ^ (leading - further) := by positivity
  -- One step of the grid is less than the way to the midpoint.
  have hstep : (10 : ℚ) ^ (leading - further) < f.step i / 2 := by
    have hsplit : (10 : ℚ) ^ leading = 10 ^ (leading - further) * 10 ^ further := by
      rw [← zpow_natCast, ← zpow_add₀ (by norm_num), sub_add_cancel]
    have hle : (10 : ℚ) ^ (leading - further) * 10 ^ further ≤ (2 * f.fractions : Nat) * f.step i :=
      hsplit ▸ hleading.trans (f.valueAt_succ_le i)
    have hlt : (4 * f.fractions : Nat) < (10 : ℚ) ^ further := by exact_mod_cast hfine
    have hfractions : (0 : ℚ) < (2 * f.fractions : Nat) := by
      exact_mod_cast Nat.mul_pos (by decide) f.fractions_pos
    have hdouble : ((4 * f.fractions : Nat) : ℚ) = 2 * (2 * f.fractions : Nat) := by
      push_cast
      ring
    rw [hdouble] at hlt
    have hscaled := mul_lt_mul_of_pos_left hlt hten
    nlinarith
  refine f.exists_neighbour hgrid ?_
  rw [Decimal.index_eq_nearest]
  refine f.nearest_of_near hi ?_
  have hvalue : f.valueAt (i + 1) = (f.units (i + 1) : ℚ) / f.unitsPerOne := rfl
  rw [abs_of_nonpos (by linarith)]
  linarith

/-- What is known of the shortest decimal where enough digits make the grid fine. -/
theorem shortestDecimal_spec_of_fine (tie : Tie) {i : Nat} (hi : i + 1 < f.infinityIndex)
    (hfine : ∃ further < f.enoughDigits, 4 * f.fractions < 10 ^ further) :
    Decimal.leadingExponent (f.units (i + 1)) f.unitsPerOne <
        (f.shortestDecimal tie (i + 1)).exponent + f.enoughDigits ∧
      (f.shortestDecimal tie (i + 1)).significand ≤ 10 ^ f.enoughDigits ∧
      ∃ lower, 0 < lower ∧ f.IsNeighbour (i + 1) (f.shortestDecimal tie (i + 1)) lower := by
  obtain ⟨fine, hfine, hlt⟩ := hfine
  obtain ⟨further, hfurther, hexponent, lower, hneighbour⟩ :=
    f.shortestDecimal_of_exists ⟨fine, hfine, f.exists_neighbour_of_fine tie hi hlt⟩
  have hpos := f.units_succ_pos i
  obtain ⟨hleading, hupper⟩ := Decimal.leadingExponent_spec hpos f.unitsPerOne_pos
  have hlt := lt_of_le_of_lt hneighbour.lower_le hupper
  have hge := lt_of_le_of_lt hleading hneighbour.lt_upper
  generalize Decimal.leadingExponent (f.units (i + 1)) f.unitsPerOne = leading at *
  have hten : (0 : ℚ) < 10 ^ (leading - (further : Int)) := by positivity
  rw [hexponent, Decimal.value] at hlt hge
  -- The number is at least the power of its first digit, and below ten times this power.
  have hlower : lower < 10 ^ f.enoughDigits := by
    have hsplit : (10 : ℚ) ^ (leading + 1) =
        (10 ^ (further + 1) : Nat) * 10 ^ (leading - (further : Int)) := by
      rw [Nat.cast_pow, Nat.cast_ofNat, ← zpow_natCast, ← zpow_add₀ (by norm_num)]
      congr 1
      push_cast
      ring
    rw [hsplit] at hlt
    have hlt : lower < 10 ^ (further + 1) := by
      exact_mod_cast lt_of_mul_lt_mul_right hlt hten.le
    exact Nat.lt_of_lt_of_le hlt (Nat.pow_le_pow_right (by decide) hfurther)
  have hfirst : 0 < lower := by
    have hsplit : (10 : ℚ) ^ leading =
        (10 ^ further : Nat) * 10 ^ (leading - (further : Int)) := by
      rw [Nat.cast_pow, Nat.cast_ofNat, ← zpow_natCast, ← zpow_add₀ (by norm_num)]
      congr 1
      ring
    rw [hsplit] at hge
    have hlt : 10 ^ further < lower + 1 := by exact_mod_cast lt_of_mul_lt_mul_right hge hten.le
    have hone : 0 < 10 ^ further := Nat.pow_pos (by decide)
    omega
  refine ⟨by omega, ?_, lower, hfirst, hneighbour⟩
  rcases hneighbour.side with ⟨hsig, -⟩ | ⟨hsig, -⟩
  · omega
  · omega

/-- A neighbour on a grid with at least one step below it is at most twice as far. -/
theorem IsNeighbour.value_bounds {f : Format} {i lower : Nat} {d : Decimal}
    (h : f.IsNeighbour i d lower) (hlower : 0 < lower) :
    f.valueAt i ≤ 2 * d.value ∧ d.value ≤ 2 * f.valueAt i := by
  have hbelow := h.lower_le
  have habove := h.lt_upper
  have hone : (1 : ℚ) ≤ lower := by exact_mod_cast hlower
  have hten : (0 : ℚ) < 10 ^ d.exponent := by positivity
  have hvalue : Decimal.value ⟨lower, d.exponent⟩ = lower * 10 ^ d.exponent := rfl
  have hstep : (10 : ℚ) ^ d.exponent ≤ Decimal.value ⟨lower, d.exponent⟩ := by
    rw [hvalue]
    exact le_mul_of_one_le_left hten.le hone
  rw [Decimal.value_succ] at habove
  rcases h.side with ⟨hsig, -⟩ | ⟨hsig, -⟩
  · have hd : d.value = Decimal.value ⟨lower, d.exponent⟩ := by rw [Decimal.value, hsig, hvalue]
    rw [hd]
    constructor
    · linarith
    · linarith
  · have hd : d.value = Decimal.value ⟨lower, d.exponent⟩ + 10 ^ d.exponent := by
      rw [← Decimal.value_succ, Decimal.value, hsig, Decimal.value]
    rw [hd]
    constructor
    · linarith
    · linarith

end Format

/-! ## Four-byte numbers -/

namespace Single

open Format (single valueAt IsNeighbour)

/-- The distance from the number at an index to the next one. -/
def step (i : Nat) : ℚ := 2 ^ single.doublings i / 2 ^ 149

theorem step_eq (i : Nat) : step i = single.step i := by
  rw [step, Format.step, unitsPerOne_eq]

theorem step_pos (i : Nat) : 0 < step i := step_eq i ▸ single.step_pos i

theorem valueAt_succ (i : Nat) : single.valueAt (i + 1) = single.valueAt i + step i :=
  step_eq i ▸ single.valueAt_succ i

theorem midpoint_eq_add (i : Nat) : single.midpoint i = single.valueAt i + step i / 2 :=
  step_eq i ▸ single.midpoint_eq_add i

theorem step_le_succ (i : Nat) : step i ≤ step (i + 1) := by
  rw [step_eq, step_eq]
  exact single.step_le_succ i

/-- A number is at most `2 ^ 24` times as large as its distance from the one before. -/
theorem valueAt_succ_le (i : Nat) : single.valueAt (i + 1) ≤ 2 ^ 24 * step i := by
  have hfractions : ((2 * single.fractions : Nat) : ℚ) = 2 ^ 24 := by
    rw [Nat.cast_mul, fractions_eq]
    norm_num
  rw [step_eq, ← hfractions]
  exact single.valueAt_succ_le i

/-! ## The range of the search -/

theorem valueAt_bounds {i : Nat} (hi : i + 1 < single.infinityIndex) :
    (10 : ℚ) ^ (-45 : Int) ≤ single.valueAt (i + 1) ∧ single.valueAt (i + 1) < 10 ^ (39 : Int) := by
  have hU : (0 : ℚ) < 2 ^ 149 := by positivity
  constructor
  · have hone : (1 : ℚ) ≤ single.units (i + 1) := by exact_mod_cast single.units_succ_pos i
    rw [valueAt, unitsPerOne_eq, le_div_iff₀ hU]
    refine le_trans ?_ hone
    norm_num
  · have hlt : single.valueAt (i + 1) < Format.single.limit := by
      rw [valueAt, Format.limit]
      have hlt := single.units_strictMono hi
      have := Binary.unitsPerOne_pos single
      gcongr
    rw [limit_eq] at hlt
    refine hlt.trans ?_
    norm_num

theorem leadingExponent_bounds {i : Nat} (hi : i + 1 < single.infinityIndex) :
    -45 ≤ Decimal.leadingExponent (single.units (i + 1)) single.unitsPerOne ∧
      Decimal.leadingExponent (single.units (i + 1)) single.unitsPerOne ≤ 38 := by
  have hpos := single.units_succ_pos i
  obtain ⟨hlower, hupper⟩ := Decimal.leadingExponent_spec hpos single.unitsPerOne_pos
  obtain ⟨hlow, hhigh⟩ := valueAt_bounds hi
  have hten : (1 : ℚ) < 10 := by norm_num
  constructor
  · have := (zpow_lt_zpow_iff_right₀ hten).mp (lt_of_le_of_lt hlow hupper)
    omega
  · have := (zpow_lt_zpow_iff_right₀ hten).mp (lt_of_le_of_lt hlower hhigh)
    omega

/-- The shortest decimal of a four-byte number is a neighbour of nine digits at most. -/
theorem shortestDecimal_spec (tie : Tie) {i : Nat} (hi : i + 1 < single.infinityIndex) :
    -53 ≤ (single.shortestDecimal tie (i + 1)).exponent ∧
      (single.shortestDecimal tie (i + 1)).significand ≤ 10 ^ 9 ∧
      ∃ lower, single.IsNeighbour (i + 1) (single.shortestDecimal tie (i + 1)) lower := by
  have henough : single.enoughDigits = 9 := rfl
  obtain ⟨hexponent, hsignificand, lower, -, hneighbour⟩ :=
    single.shortestDecimal_spec_of_fine tie hi ⟨8, by decide, by decide⟩
  have hleading := (leadingExponent_bounds hi).1
  rw [henough] at hexponent hsignificand
  exact ⟨by omega, hsignificand, lower, hneighbour⟩

/-! ## Fine grids -/

/-- Where the grid of the decimal is finer than the numbers are, the decimal keeps a distance from
both midpoints. -/
theorem inside_of_fine {i lower : Nat} {d : Decimal} (hi : i + 1 < single.infinityIndex)
    (h : single.IsNeighbour (i + 1) d lower) (hfine : (2 ^ 24 + 2 ^ 10) * 10 ^ d.exponent ≤ d.value) :
    single.midpoint i + step i / 2 ^ 16 ≤ d.value ∧
      d.value + step i / 2 ^ 16 ≤ single.midpoint (i + 1) ∧ d.value ≤ 2 ^ 25 * step i := by
  obtain ⟨hlower, hupper, -, hside⟩ := h
  have hstep := step_pos i
  have hwider := step_le_succ i
  have hrange := valueAt_succ_le i
  have hbelow : single.midpoint i = single.valueAt (i + 1) - step i / 2 := by
    rw [midpoint_eq_add, valueAt_succ]
    ring
  have habove := midpoint_eq_add (i + 1)
  have hnearest : single.nearest (single.valueAt (i + 1)) = i + 1 := single.nearest_units hi.le
  have hnext : Decimal.value ⟨lower + 1, d.exponent⟩ =
      Decimal.value ⟨lower, d.exponent⟩ + 10 ^ d.exponent := Decimal.value_succ _ _
  rw [hnext] at hupper
  rcases hside with ⟨hsig, hnear⟩ | ⟨hsig, hnear⟩
  · -- The decimal below; the other neighbour reads back or lies beyond the next midpoint.
    have hd : d.value = Decimal.value ⟨lower, d.exponent⟩ := by rw [Decimal.value, hsig, Decimal.value]
    rw [hd] at hfine hnear ⊢
    have hdistance : single.valueAt (i + 1) - Decimal.value ⟨lower, d.exponent⟩ ≤
        step i / 2 - step i / 2 ^ 16 := by
      by_cases hother : Decimal.index single ⟨lower + 1, d.exponent⟩ = i + 1
      · linarith [hnear hother]
      · have hge : single.midpoint (i + 1) ≤ Decimal.value ⟨lower + 1, d.exponent⟩ := by
          by_contra hlt
          have hmono := single.nearest_mono (single.valueAt_nonneg (i + 1)) (hnext ▸ hupper.le)
          have hle := single.nearest_le_of_lt (Decimal.value_nonneg _) hi.le (not_le.mp hlt)
          rw [Decimal.index_eq_nearest] at hother
          omega
        linarith
    refine ⟨?_, ?_, ?_⟩ <;> linarith
  · have hd : d.value = Decimal.value ⟨lower, d.exponent⟩ + 10 ^ d.exponent := by
      rw [← hnext, Decimal.value, hsig, Decimal.value]
    rw [hd] at hfine hnear ⊢
    have hdistance : Decimal.value ⟨lower, d.exponent⟩ + 10 ^ d.exponent - single.valueAt (i + 1) ≤
        step i / 2 - step i / 2 ^ 16 := by
      by_cases hother : Decimal.index single ⟨lower, d.exponent⟩ = i + 1
      · linarith [hnear hother]
      · have hle : Decimal.value ⟨lower, d.exponent⟩ ≤ single.midpoint i := by
          by_contra hlt
          have hmono := single.nearest_mono (Decimal.value_nonneg _) hlower
          have hge := single.lt_nearest_of_lt (show i < single.infinityIndex by omega) (not_le.mp hlt)
          rw [Decimal.index_eq_nearest] at hother
          omega
        linarith
    refine ⟨?_, ?_, ?_⟩ <;> linarith

end Single

end RegionPooling
