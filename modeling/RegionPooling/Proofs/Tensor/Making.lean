import RegionPooling.Proofs.Failures
import RegionPooling.Tensor

/-!
# Making tensors

A tensor that is computed needs a shape with a number of elements, and a buffer for as many. The
first is a matter of addresses and its lack an error; the second is a matter of bytes, of which each
element takes several, and its lack a panic. Since there are fewer elements in the largest buffer
than there are addresses, both can happen, and the number of elements decides between them.

Main results:

* `Tensor.tabulate_eq`, `Tensor.tabulate_eq_error` — what is made of a shape, by its count.
* `Tensor.failsOnly_tabulate` — the only error is that of a shape without a count.
-/

namespace RegionPooling.Tensor

variable {shape : Shape} {count : Nat} {element : Nat → Single}

theorem tabulate_eq_error (h : shape.count? = none) :
    tabulate shape element = .error (.failed (.shapeOverflow shape.text)) := by
  unfold tabulate
  split
  · rfl
  · rename_i count hcount
    rw [h] at hcount
    cases hcount

theorem tabulate_eq (h : shape.count? = some count) : tabulate shape element =
    if count ≤ maxElements then
      .ok ⟨shape, Array.ofFn (n := count) fun i => element i, by simp [h]⟩
    else .error .capacityOverflow := by
  unfold tabulate
  split
  · rename_i hnone
    rw [h] at hnone
    cases hnone
  · rename_i count' hcount
    obtain rfl := Option.some.inj (h.symm.trans hcount)
    rfl

theorem tabulate_eq_ok (h : shape.count? = some count) (hmax : count ≤ maxElements) :
    ∃ t, tabulate shape element = .ok t ∧ t.shape = shape := by
  rw [tabulate_eq h, if_pos hmax]
  exact ⟨_, rfl, rfl⟩

theorem tabulate_eq_capacityOverflow (h : shape.count? = some count) (hmax : maxElements < count) :
    tabulate shape element = .error .capacityOverflow := by
  rw [tabulate_eq h, if_neg (Nat.not_le.mpr hmax)]

/-- If something goes wrong without a panic, then it is the count. -/
theorem failsOnly_tabulate {kind : Error → Prop} (h : kind (.shapeOverflow shape.text)) :
    FailsOnly (Stop.Only kind) (tabulate shape element) := by
  cases hcount : shape.count? with
  | none =>
    rw [tabulate_eq_error hcount]
    exact .error (Stop.only_failed h)
  | some count =>
    rw [tabulate_eq hcount]
    split
    · exact .ok _
    · exact .error Stop.only_capacityOverflow

end RegionPooling.Tensor
