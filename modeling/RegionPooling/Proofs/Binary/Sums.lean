import Mathlib.Algebra.Order.BigOperators.Group.List
import Mathlib.Tactic.Ring
import RegionPooling.Proofs.Binary.Midpoint
import RegionPooling.Proofs.Binary.Order
import RegionPooling.Proofs.Binary.Single

/-!
# Sums of many numbers

Adding up numbers one after the other rounds once for each of them, by at most half of the
last bit of the sum so far. For `n` numbers up to `c` these errors add up to about
`c * n ^ 2 / 2 ^ 25`: a thousandth of the sum where there are some thirty thousand numbers.
Beyond that the bound is worth little, but a sum of numbers that are not negative never
falls, and that needs no bound on their number.

Main results:

* `Single.sum_error`, `Single.sum_mem_range` — the error of a sum of at most `sumLimit` numbers.
* `Single.le_foldl_add` — adding numbers that are not negative does not make a sum smaller.
* `Single.foldl_add_abs_le_two_pow` — however many numbers below `2 ^ e / 2 ^ 24` are added, the
  sum stays within `2 ^ e`.
* `Single.error_le` — the error of a single result that is not among the smallest.
-/

namespace RegionPooling

namespace Single

open Binary (IsRounding signed)

/-! ## One rounding -/

/-- A bound is moderate if it is far from the largest number, and either zero or at least the
smallest number of full precision. -/
def Moderate (c : ℚ) : Prop := (c = 0 ∨ 1 / 2 ^ 126 ≤ c) ∧ c ≤ 2 ^ 96

theorem Moderate.nonneg {c : ℚ} (h : Moderate c) : 0 ≤ c := by
  rcases h.1 with rfl | hle
  · exact le_refl _
  · exact le_trans (by positivity) hle

/-- Up to such a bound the error is relative to the bound. -/
theorem error_le {q c : ℚ} {x : Single} (h : IsRounding q x) (hx : x.isFinite = true)
    (hq : |q| ≤ c) (hc : c = 0 ∨ 1 / 2 ^ 126 ≤ c) : |x.value - q| ≤ c / 2 ^ 23 := by
  rcases hc with rfl | hle
  · have hzero : q = 0 := abs_nonpos_iff.mp hq
    rw [h.value_eq_zero hzero, hzero, sub_zero, abs_zero, zero_div]
  · have herror := error h hx
    have hrelative : |q| / 2 ^ 24 ≤ c / 2 ^ 24 := by gcongr
    have habsolute : (1 : ℚ) / 2 ^ 150 ≤ c / 2 ^ 24 := by
      calc (1 : ℚ) / 2 ^ 150 = 1 / 2 ^ 126 / 2 ^ 24 := by norm_num
        _ ≤ c / 2 ^ 24 := by gcongr
    calc |x.value - q| ≤ |q| / 2 ^ 24 + 1 / 2 ^ 150 := herror
      _ ≤ c / 2 ^ 24 + c / 2 ^ 24 := add_le_add hrelative habsolute
      _ = c / 2 ^ 23 := by ring

/-! ## Many numbers -/

/-- The largest number of numbers for which the errors of a sum are bounded here. -/
def sumLimit : Nat := 33000

/-- The bound of the error of a sum of `n` numbers, as a multiple of their bound. The last
factor makes up for the errors of the partial sums. -/
def drift (n : Nat) : ℚ := n * (n + 1) / 2 ^ 25 * (1 + 1 / 2 ^ 9)

theorem drift_succ (n : Nat) :
    drift n + (n + 1) * (1 + 1 / 2 ^ 9) / 2 ^ 24 = drift (n + 1) := by
  unfold drift
  push_cast
  ring

theorem drift_le {n : Nat} (h : n ≤ sumLimit) : drift n ≤ n * (986 / 1000000) := by
  have hn : (n : ℚ) ≤ 33000 := by exact_mod_cast h
  have hfactor : ((n : ℚ) + 1) / 2 ^ 25 * (1 + 1 / 2 ^ 9) ≤ 986 / 1000000 := by
    calc ((n : ℚ) + 1) / 2 ^ 25 * (1 + 1 / 2 ^ 9)
        ≤ (33000 + 1) / 2 ^ 25 * (1 + 1 / 2 ^ 9) := by gcongr
      _ ≤ 986 / 1000000 := by norm_num
  calc drift n = n * ((n + 1) / 2 ^ 25 * (1 + 1 / 2 ^ 9)) := by unfold drift; ring
    _ ≤ n * (986 / 1000000) := by gcongr

/-- The sum of numbers, added one after the other. -/
def sum (numbers : List Single) : Single := numbers.foldl (· + ·) (.zero false)

theorem sum_value_mem {numbers : List Single} {lower upper : ℚ}
    (h : ∀ x ∈ numbers, lower ≤ x.value ∧ x.value ≤ upper) :
    numbers.length * lower ≤ (numbers.map Binary.value).sum ∧
      (numbers.map Binary.value).sum ≤ numbers.length * upper := by
  have hlower := List.card_nsmul_le_sum (numbers.map Binary.value) lower (by
    intro q hq
    obtain ⟨x, hx, rfl⟩ := List.mem_map.mp hq
    exact (h x hx).1)
  have hupper := List.sum_le_card_nsmul (numbers.map Binary.value) upper (by
    intro q hq
    obtain ⟨x, hx, rfl⟩ := List.mem_map.mp hq
    exact (h x hx).2)
  rw [List.length_map, nsmul_eq_mul] at hlower hupper
  exact ⟨hlower, hupper⟩

/-- The induction is on the end of the list: each further number adds one rounding, of a sum
whose size the induction hypothesis bounds. -/
theorem sum_error {c : ℚ} (hc : 0 ≤ c) (hlarge : c ≤ 2 ^ 97) (numbers : List Single)
    (hlength : numbers.length ≤ sumLimit)
    (h : ∀ x ∈ numbers, x.isFinite = true ∧ |x.value| ≤ c) :
    (sum numbers).isFinite = true ∧
      |(sum numbers).value - (numbers.map Binary.value).sum| ≤ c * drift numbers.length := by
  induction numbers using List.reverseRecOn with
  | nil => exact ⟨by decide, by simp [sum, drift]⟩
  | append_singleton rest x ih =>
    have hlength : rest.length + 1 ≤ sumLimit := by simpa using hlength
    obtain ⟨hfinite, herror⟩ := ih (by omega) fun y hy => h y (List.mem_append_left _ hy)
    obtain ⟨hx, hxc⟩ := h x (by simp)
    have hsum : |(rest.map Binary.value).sum| ≤ rest.length * c := by
      have hmem := sum_value_mem fun y hy => abs_le.mp (h y (List.mem_append_left _ hy)).2
      rw [mul_neg] at hmem
      exact abs_le.mpr hmem
    have hdrift := drift_le (n := rest.length) (by omega)
    have hn : (rest.length : ℚ) + 1 ≤ 33000 := by exact_mod_cast hlength
    set n : ℚ := (rest.length : ℚ)
    have hn0 : 0 ≤ n := Nat.cast_nonneg _
    have hstep : sum (rest ++ [x]) = sum rest + x := by
      rw [sum, List.foldl_append]
      rfl
    -- The sum before the last rounding: the error so far, the exact sum, and the new number.
    have hexact : |(sum rest).value + x.value| ≤ (n + 1) * c * (1 + 1 / 2 ^ 9) := by
      have hsplit : (sum rest).value + x.value =
          ((sum rest).value - (rest.map Binary.value).sum) + (rest.map Binary.value).sum +
            x.value := by ring
      have hcd : c * drift rest.length ≤ c * (n * (986 / 1000000)) := by gcongr
      rw [hsplit]
      calc _ ≤ |(sum rest).value - (rest.map Binary.value).sum| +
            |(rest.map Binary.value).sum| + |x.value| := abs_add_three _ _ _
        _ ≤ c * (n * (986 / 1000000)) + n * c + c := by
          gcongr
          exact herror.trans hcd
        _ ≤ (n + 1) * c * (1 + 1 / 2 ^ 9) := by nlinarith [mul_nonneg hn0 hc]
    have hrounding := Binary.isRounding_add hfinite hx
    have hfinite' : (sum rest + x).isFinite = true := by
      refine isFinite_of_abs_le hrounding (hexact.trans ?_)
      calc (n + 1) * c * (1 + 1 / 2 ^ 9) ≤ 33000 * 2 ^ 97 * (1 + 1 / 2 ^ 9) := by gcongr
        _ ≤ 2 ^ 127 := by norm_num
    rw [hstep, List.map_append, List.sum_append, List.length_append]
    refine ⟨hfinite', ?_⟩
    simp only [List.map_cons, List.map_nil, List.sum_cons, List.sum_nil, add_zero,
      List.length_cons, List.length_nil, Nat.zero_add]
    have hlast := add_error hfinite hx hfinite'
    have hlast' : |(sum rest + x).value - ((sum rest).value + x.value)| ≤
        (n + 1) * c * (1 + 1 / 2 ^ 9) / 2 ^ 24 := hlast.trans (by gcongr)
    -- The new error is that of the last rounding on top of the one so far.
    have hsplit : (sum rest + x).value - ((rest.map Binary.value).sum + x.value) =
        ((sum rest + x).value - ((sum rest).value + x.value)) +
          ((sum rest).value - (rest.map Binary.value).sum) := by ring
    rw [hsplit, ← drift_succ]
    calc _ ≤ |(sum rest + x).value - ((sum rest).value + x.value)| +
          |(sum rest).value - (rest.map Binary.value).sum| := abs_add_le _ _
      _ ≤ (n + 1) * c * (1 + 1 / 2 ^ 9) / 2 ^ 24 + c * drift rest.length :=
        add_le_add hlast' herror
      _ = c * (drift rest.length + (n + 1) * (1 + 1 / 2 ^ 9) / 2 ^ 24) := by ring

/-- A sum of numbers in a range is about as large as the range says. -/
theorem sum_mem_range {numbers : List Single} {lower upper c : ℚ} (hlarge : c ≤ 2 ^ 97)
    (hlower : |lower| ≤ c) (hupper : |upper| ≤ c) (hlength : numbers.length ≤ sumLimit)
    (h : ∀ x ∈ numbers, x.isFinite = true ∧ lower ≤ x.value ∧ x.value ≤ upper) :
    (sum numbers).isFinite = true ∧
      numbers.length * (lower - c * (986 / 1000000)) ≤ (sum numbers).value ∧
      (sum numbers).value ≤ numbers.length * (upper + c * (986 / 1000000)) := by
  have hc : 0 ≤ c := (abs_nonneg _).trans hlower
  obtain ⟨hfinite, herror⟩ := sum_error hc hlarge numbers hlength fun x hx =>
    ⟨(h x hx).1, abs_le.mpr ⟨(abs_le.mp hlower).1.trans (h x hx).2.1,
      (h x hx).2.2.trans (abs_le.mp hupper).2⟩⟩
  obtain ⟨hge, hle⟩ := sum_value_mem fun x hx => (h x hx).2
  have hdrift : c * drift numbers.length ≤ c * (numbers.length * (986 / 1000000)) := by
    gcongr
    exact drift_le hlength
  obtain ⟨hfrom, hto⟩ := abs_le.mp (herror.trans hdrift)
  exact ⟨hfinite, by linarith, by linarith⟩

/-! ## Sums that do not fall -/

theorem le_add {x y : Single} (hx : x ≠ .nan) (hy : y.isFinite = true) (h : 0 ≤ y.value) :
    x + y ≠ .nan ∧ x.value ≤ (x + y).value := by
  have hsum := Binary.add_ne_nan hx hy
  exact ⟨hsum, (Binary.le_add_of_ne_nan hsum h).2⟩

/-- However many numbers are added, a sum of numbers that are not negative does not fall. -/
theorem le_foldl_add (numbers : List Single) {x : Single} (hx : x ≠ .nan)
    (h : ∀ y ∈ numbers, y.isFinite = true ∧ 0 ≤ y.value) :
    numbers.foldl (· + ·) x ≠ .nan ∧ x.value ≤ (numbers.foldl (· + ·) x).value := by
  induction numbers generalizing x with
  | nil => exact ⟨hx, le_refl _⟩
  | cons y rest ih =>
    obtain ⟨hy, hy0⟩ := h y (List.mem_cons_self ..)
    obtain ⟨hnan, hle⟩ := le_add hx hy hy0
    obtain ⟨hnan', hle'⟩ := ih hnan fun z hz => h z (List.mem_cons_of_mem _ hz)
    exact ⟨hnan', hle.trans hle'⟩

/-- A sum of numbers that are not negative is at least as large as the range of the numbers
says of the first `k` of them. -/
theorem le_sum_of_range {numbers : List Single} {lower upper c : ℚ} (hlarge : c ≤ 2 ^ 97)
    (hnonneg : 0 ≤ lower) (hupper : |upper| ≤ c) (hle : lower ≤ upper)
    (h : ∀ x ∈ numbers, x.isFinite = true ∧ lower ≤ x.value ∧ x.value ≤ upper) {k : Nat}
    (hk : k ≤ numbers.length) (hlimit : k ≤ sumLimit) :
    sum numbers ≠ .nan ∧ k * (lower - c * (986 / 1000000)) ≤ (sum numbers).value := by
  have hlength : (numbers.take k).length = k := List.length_take_of_le hk
  have hlower : |lower| ≤ c := by
    rw [abs_of_nonneg hnonneg]
    exact hle.trans ((le_abs_self upper).trans hupper)
  obtain ⟨hfinite, hge, -⟩ := sum_mem_range hlarge hlower hupper (by rwa [hlength])
    fun x hx => h x (List.mem_of_mem_take hx)
  rw [hlength] at hge
  -- The rest only adds to the sum of the first `k`.
  have hsplit : sum numbers = (numbers.drop k).foldl (· + ·) (sum (numbers.take k)) := by
    rw [sum, sum, ← List.foldl_append, List.take_append_drop]
  obtain ⟨hnan, hmono⟩ := le_foldl_add (numbers.drop k) (Binary.ne_nan_of_isFinite hfinite)
    fun x hx => ⟨(h x (List.mem_of_mem_drop hx)).1,
      hnonneg.trans (h x (List.mem_of_mem_drop hx)).2.1⟩
  rw [hsplit]
  exact ⟨hnan, hge.trans hmono⟩

/-! ## Sums that are full -/

/-- Neighbours of `2 ^ e` are so far apart that what lies closer to it is lost. -/
theorem value_le_two_pow {e : Nat} (he : e ≤ 127) {q : ℚ} {x : Single} (h : IsRounding q x)
    (hq : q < 2 ^ e + 2 ^ e / 2 ^ 24) : x.value ≤ 2 ^ e := by
  have hindex : (e + 126) * Format.single.fractions + 2 ^ 23 ≤ Format.single.infinityIndex := by
    have hfractions : Format.single.fractions = 2 ^ 23 := rfl
    have hinfinity : Format.single.infinityIndex = 255 * 2 ^ 23 := rfl
    rw [hfractions, hinfinity]
    omega
  have hunits := Format.single.units_shift (e + 126) (n := 2 ^ 23) (by decide)
    (.inr (Nat.le_refl _))
  have hnext := Format.single.units_shift (e + 126) (n := 2 ^ 23 + 1) (by decide)
    (.inr (Nat.le_succ _))
  have hle := h.value_le_of_lt_midpoint hindex (by
    rw [Format.midpoint, hunits, Nat.add_assoc, hnext, unitsPerOne_eq]
    refine hq.trans_eq ?_
    push_cast
    rw [pow_add]
    ring)
  rw [hunits, unitsPerOne_eq] at hle
  refine hle.trans_eq ?_
  push_cast
  rw [pow_add]
  ring

theorem abs_value_le_two_pow {e : Nat} (he : e ≤ 127) {q : ℚ} {x : Single} (h : IsRounding q x)
    (hq : |q| < 2 ^ e + 2 ^ e / 2 ^ 24) : |x.value| ≤ 2 ^ e := by
  obtain ⟨hlower, hupper⟩ := abs_lt.mp hq
  have hle := value_le_two_pow he h hupper
  have hge := value_le_two_pow he h.neg (by linarith)
  rw [Binary.value_neg] at hge
  exact abs_le.mpr ⟨by linarith, hle⟩

/-- A number so small does not take a sum past the power of two, on either side. -/
theorem add_abs_le_two_pow {e : Nat} (he : e ≤ 126) {x y : Single} (hx : x.isFinite = true)
    (hy : y.isFinite = true) (hxle : |x.value| ≤ 2 ^ e) (hylt : |y.value| < 2 ^ e / 2 ^ 24) :
    (x + y).isFinite = true ∧ |(x + y).value| ≤ 2 ^ e := by
  have hrounding := Binary.isRounding_add hx hy
  have hsum : |x.value + y.value| < 2 ^ e + 2 ^ e / 2 ^ 24 :=
    (abs_add_le _ _).trans_lt (add_lt_add_of_le_of_lt hxle hylt)
  have hpower : (2 : ℚ) ^ e ≤ 2 ^ 126 := pow_le_pow_right₀ (by norm_num) he
  exact ⟨isFinite_of_abs_le hrounding (by linarith),
    abs_value_le_two_pow (he.trans (by decide)) hrounding hsum⟩

/-- However many such numbers are added, the sum stays where it was. -/
theorem foldl_add_abs_le_two_pow {e : Nat} (he : e ≤ 126) (numbers : List Single) {x : Single}
    (hx : x.isFinite = true) (hxle : |x.value| ≤ 2 ^ e)
    (h : ∀ y ∈ numbers, y.isFinite = true ∧ |y.value| < 2 ^ e / 2 ^ 24) :
    (numbers.foldl (· + ·) x).isFinite = true ∧ |(numbers.foldl (· + ·) x).value| ≤ 2 ^ e := by
  induction numbers generalizing x with
  | nil => exact ⟨hx, hxle⟩
  | cons y rest ih =>
    obtain ⟨hy, hylt⟩ := h y (List.mem_cons_self ..)
    obtain ⟨hfinite, hle⟩ := add_abs_le_two_pow he hx hy hxle hylt
    exact ih hfinite hle fun z hz => h z (List.mem_cons_of_mem _ hz)

end Single

end RegionPooling
