import RegionPooling.Proofs.Fixture
import RegionPooling.Proofs.Operation.Preparation
import RegionPooling.Proofs.Tensor.Difference

/-!
# What a verified fixture says

Verifying makes one number out of two tensors and then looks at this number alone. Nothing is lost
on the way: the number is finite and within the tolerance exactly if each distance is, so a fixture
passes if and only if its output agrees with what is expected at every place. The number begins
with zero, and therefore a tolerance below zero, or one that is no number, is never met, not even by
tensors without elements.

Main results:

* `Fixture.verify_eq_ok_iff` — when there is a report, and what it says.
* `Fixture.verify_eq_capacityOverflow_iff` — when there is not even an error.
* `Tensor.agrees_iff` — agreement is a matter of the largest difference.
* `Fixture.passes_iff_agrees` — a fixture passes if and only if the tensors agree.
-/

namespace RegionPooling

/-! ## Reports -/

namespace Report

variable {r r' : Report}

theorem passed_iff : r.passed = true ↔ r.maxAbsDiff.isFinite = true ∧ r.maxAbsDiff ≤ r.tolerance := by
  simp [passed]

/-- A report that stands its check comes back as it is. -/
theorem check_eq_ok_iff : r.check = .ok r' ↔ r' = r ∧ r.passed = true := by
  unfold check
  cases r.passed with
  | true => simp [eq_comm]
  | false => simp

end Report

namespace Fixture

variable {f : Fixture} {r : Report}

/-- There is a report if there is something expected, the run goes through, and the two tensors have
one shape. It names the largest difference. -/
theorem verify_eq_ok_iff : f.verify = .ok r ↔ ∃ expected actual, f.expected = some expected ∧
    f.run = .ok actual ∧ actual.maxAbsDiff expected = some r.maxAbsDiff ∧
    r.name = f.name ∧ r.tolerance = f.tolerance := by
  constructor
  · intro h
    unfold verify at h
    split at h
    · rename_i expected hexpected
      obtain ⟨actual, hrun, h⟩ := bind_eq_ok.mp h
      split at h
      · rename_i d hd
        cases h
        exact ⟨expected, actual, hexpected, hrun, hd, rfl, rfl⟩
      · cases h
    · cases h
  · rintro ⟨expected, actual, hexpected, hrun, hd, hname, htolerance⟩
    cases r
    dsimp only at hd hname htolerance
    subst hname htolerance
    unfold verify
    simp only [hexpected]
    refine bind_eq_ok.mpr ⟨actual, hrun, ?_⟩
    simp only [hd]
    rfl

/-- The run asks for an output with more elements than a buffer can have. -/
def Oversized (f : Fixture) : Prop :=
  ∃ op, Operation.ofParams f.params = .ok op ∧ op.Oversized f.input.shape f.regions.shape

theorem run_eq_capacityOverflow_iff : f.run = .error .capacityOverflow ↔ f.Oversized := by
  unfold run Oversized
  rw [bind_eq_error]
  constructor
  · rintro (h | ⟨op, hop, h⟩)
    · obtain ⟨_, -, ⟨⟩⟩ := mapError_eq_error.mp h
    · exact ⟨op, mapError_eq_ok.mp hop, Operation.execute_eq_capacityOverflow_iff.mp h⟩
  · rintro ⟨op, hop, h⟩
    exact .inr ⟨op, mapError_eq_ok.mpr hop, Operation.execute_eq_capacityOverflow_iff.mpr h⟩

/-- Verifying panics if its run does. It does not come to that without something expected. -/
theorem verify_eq_capacityOverflow_iff :
    f.verify = .error .capacityOverflow ↔ f.expected ≠ none ∧ f.Oversized := by
  unfold verify
  rw [← run_eq_capacityOverflow_iff]
  cases f.expected with
  | none =>
    refine ⟨fun h => ?_, fun h => absurd rfl h.1⟩
    cases h
  | some expected =>
    dsimp only
    rw [bind_eq_error]
    constructor
    · rintro (h | ⟨actual, -, h⟩)
      · exact ⟨Option.some_ne_none _, h⟩
      · split at h
        · cases h
        · cases h
    · rintro ⟨-, h⟩
      exact .inl h

end Fixture

/-! ## Agreement -/

namespace Tensor

/-- The tensors have one shape and differ at no place by more than the tolerance. -/
structure Agrees (a b : Tensor) (tolerance : Single) : Prop where
  shape_eq : a.shape = b.shape
  tolerance_nonneg : .zero false ≤ tolerance
  within : ∀ (i : Nat) (x y : Single), a.data[i]? = some x → b.data[i]? = some y →
    (x - y).abs.isFinite = true ∧ (x - y).abs ≤ tolerance

/-- Agreement at every place is a matter of the largest difference alone. -/
theorem agrees_iff {a b : Tensor} {tolerance : Single} : a.Agrees b tolerance ↔
    ∃ d, a.maxAbsDiff b = some d ∧ d.isFinite = true ∧ d ≤ tolerance := by
  constructor
  · intro h
    refine ⟨_, maxAbsDiff_of_shape_eq h.shape_eq, largest_le_iff.mpr ⟨h.tolerance_nonneg, ?_⟩⟩
    intro d hd
    obtain ⟨i, x, y, hx, hy, rfl⟩ := mem_distances.mp hd
    exact h.within i x y hx hy
  · rintro ⟨d, hd, hpasses⟩
    obtain ⟨hshape, rfl⟩ := maxAbsDiff_eq_some_iff.mp hd
    obtain ⟨hnonneg, hall⟩ := largest_le_iff.mp hpasses
    refine { shape_eq := hshape, tolerance_nonneg := hnonneg, within := ?within }
    case within =>
      intro i x y hx hy
      exact hall _ (mem_distances.mpr ⟨i, x, y, hx, hy, rfl⟩)

end Tensor

namespace Fixture

variable {f : Fixture} {r : Report}

/-- The report of a fixture that passes is the one it was verified with. -/
theorem check_eq_ok_iff : f.check = .ok r ↔ f.verify = .ok r ∧ r.passed = true := by
  rw [check, bind_eq_ok]
  constructor
  · rintro ⟨r', hverify, hcheck⟩
    obtain ⟨rfl, hpassed⟩ := Report.check_eq_ok_iff.mp (mapError_eq_ok.mp hcheck)
    exact ⟨hverify, hpassed⟩
  · rintro ⟨hverify, hpassed⟩
    exact ⟨r, hverify, mapError_eq_ok.mpr (Report.check_eq_ok_iff.mpr ⟨rfl, hpassed⟩)⟩

/--
A fixture passes if and only if something is expected, the run goes through, and what comes out
agrees with it: in its shape, and at every place up to the tolerance. The report of one that passes
names the largest of the differences. Which of two tensors is compared with the other makes no
difference.
-/
theorem passes_iff_agrees (f : Fixture) :
    ((∃ r, f.check = .ok r) ↔ ∃ expected actual,
      f.expected = some expected ∧ f.run = .ok actual ∧ actual.Agrees expected f.tolerance) ∧
    (∀ r, f.check = .ok r → r.name = f.name ∧ r.tolerance = f.tolerance ∧
      ∃ expected actual, f.expected = some expected ∧ f.run = .ok actual ∧
        actual.IsLargestDifference expected r.maxAbsDiff) ∧
    ∀ a b : Tensor, a.maxAbsDiff b = b.maxAbsDiff a := by
  refine ⟨⟨?passes, ?agrees⟩, ?report, Tensor.maxAbsDiff_comm⟩
  case passes =>
    rintro ⟨r, h⟩
    obtain ⟨hverify, hpassed⟩ := check_eq_ok_iff.mp h
    obtain ⟨expected, actual, hexpected, hrun, hd, -, htolerance⟩ := verify_eq_ok_iff.mp hverify
    have hpassed := Report.passed_iff.mp hpassed
    rw [htolerance] at hpassed
    exact ⟨expected, actual, hexpected, hrun, Tensor.agrees_iff.mpr ⟨_, hd, hpassed⟩⟩
  case agrees =>
    rintro ⟨expected, actual, hexpected, hrun, hagrees⟩
    obtain ⟨d, hd, hpasses⟩ := Tensor.agrees_iff.mp hagrees
    refine ⟨⟨f.name, d, f.tolerance⟩, check_eq_ok_iff.mpr ⟨?_, ?_⟩⟩
    · exact verify_eq_ok_iff.mpr ⟨expected, actual, hexpected, hrun, hd, rfl, rfl⟩
    · exact Report.passed_iff.mpr hpasses
  case report =>
    intro r h
    obtain ⟨hverify, hpassed⟩ := check_eq_ok_iff.mp h
    obtain ⟨expected, actual, hexpected, hrun, hd, hname, htolerance⟩ := verify_eq_ok_iff.mp hverify
    have hnan := Binary.ne_nan_of_isFinite (Report.passed_iff.mp hpassed).1
    exact ⟨hname, htolerance, expected, actual, hexpected, hrun,
      Tensor.isLargestDifference_of_maxAbsDiff hd hnan⟩

/-- The output of `minusZero` is zero. It agrees with the minus zero that is expected, and it does so
within a tolerance of minus zero: there, the two are one number. -/
theorem minusZero_passes :
    minusZero.check = .ok ⟨minusZero.name, .zero false, .zero true⟩ ∧
      ∃ expected actual, minusZero.expected = some expected ∧ minusZero.run = .ok actual ∧
        actual.Agrees expected (.zero true) ∧ actual.IsLargestDifference expected (.zero false) := by
  have hpasses : minusZero.check = .ok ⟨minusZero.name, .zero false, .zero true⟩ := by
    have hreport : minusZero.check.toOption.map id =
        some ⟨minusZero.name, .zero false, .zero true⟩ := by
      decide +kernel
    obtain ⟨r, hr, rfl⟩ := exists_ok_of_toOption_map hreport
    exact hr
  obtain ⟨hiff, hreport, -⟩ := passes_iff_agrees minusZero
  obtain ⟨expected, actual, hexpected, hrun, hagrees⟩ := hiff.mp ⟨_, hpasses⟩
  obtain ⟨-, -, expected', actual', hexpected', hrun', hlargest⟩ := hreport _ hpasses
  obtain rfl := Option.some.inj (hexpected.symm.trans hexpected')
  obtain rfl := Except.ok.inj (hrun.symm.trans hrun')
  exact ⟨hpasses, expected, actual, hexpected, hrun, hagrees, hlargest⟩

end Fixture

end RegionPooling
