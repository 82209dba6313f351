import RegionPooling.Proofs.Binary.Distance
import RegionPooling.Tensor

/-!
# The largest difference of two tensors

Two tensors of one shape are compared place by place. The result begins at zero and takes over each
distance that is larger; a distance that is no number is taken over too, and is never given up
again, wherever it is met. So the result is one of the distances, or the zero it began with, and if
it is a number, none of the distances is larger. As no distance is negative, the zero counts as a
result of its own only where there is nothing to compare.

Main results:

* `Tensor.foldl_worse_mem`, `Tensor.le_foldl_worse` — the result is a distance, and the largest one.
* `Tensor.maxAbsDiff_comm` — it does not matter which tensor comes first.
* `Tensor.isLargestDifference_of_maxAbsDiff` — what a result that is a number says on the places.
* `Tensor.maxAbsDiff_self` — a tensor compared with itself.
-/

namespace RegionPooling

namespace Tensor

/-! ## The worst of a list -/

section Worst

variable {a b : Single} {xs : List Single}

theorem worse_of_nan (h : a = .nan ∨ b = .nan) : worse a b = .nan := by
  rcases h with rfl | rfl
  · rfl
  · unfold worse
    rw [show (Binary.nan : Single).isNaN = true from rfl, Bool.or_true, if_pos rfl]

theorem isNaN_eq_false (h : a ≠ .nan) : a.isNaN = false := by
  cases a with
  | nan => exact absurd rfl h
  | number => rfl

theorem worse_of_ne_nan (ha : a ≠ .nan) (hb : b ≠ .nan) : worse a b = if a < b then b else a := by
  unfold worse Binary.max
  simp only [isNaN_eq_false ha, isNaN_eq_false hb, Bool.or_false, Bool.false_eq_true, if_false]

/-- The worse of two is one of them. -/
theorem worse_eq_or (a b : Single) : worse a b = a ∨ worse a b = b := by
  by_cases ha : a = .nan
  · exact .inl ((worse_of_nan (.inl ha)).trans ha.symm)
  · by_cases hb : b = .nan
    · exact .inr ((worse_of_nan (.inr hb)).trans hb.symm)
    · rw [worse_of_ne_nan ha hb]
      split
      · exact .inr rfl
      · exact .inl rfl

/-- If it is a number, neither of the two is larger. -/
theorem le_worse (h : worse a b ≠ .nan) : a ≤ worse a b ∧ b ≤ worse a b := by
  have ha : a ≠ .nan := fun ha => h (worse_of_nan (.inl ha))
  have hb : b ≠ .nan := fun hb => h (worse_of_nan (.inr hb))
  rw [worse_of_ne_nan ha hb]
  split
  · rename_i hlt
    rw [Binary.lt_iff_value_lt ha hb] at hlt
    exact ⟨Binary.le_iff.mpr ⟨ha, hb, hlt.le⟩, Binary.le_refl hb⟩
  · rename_i hge
    rw [Binary.lt_iff_value_lt ha hb, not_lt] at hge
    exact ⟨Binary.le_refl ha, Binary.le_iff.mpr ⟨hb, ha, hge⟩⟩

/-- The worst of a list is one of the list, or what it began with. -/
theorem foldl_worse_mem (a : Single) (xs : List Single) : xs.foldl worse a ∈ a :: xs := by
  induction xs generalizing a with
  | nil => exact List.mem_cons_self
  | cons x rest ih =>
    rw [List.foldl_cons]
    rcases List.mem_cons.mp (ih (worse a x)) with hfirst | hrest
    · rw [hfirst]
      rcases worse_eq_or a x with h | h
      · rw [h]
        exact List.mem_cons_self
      · rw [h]
        exact List.mem_cons_of_mem _ List.mem_cons_self
    · exact List.mem_cons_of_mem _ (List.mem_cons_of_mem _ hrest)

/-- If the worst of a list is a number, nothing in the list is larger. -/
theorem le_foldl_worse {x : Single} (h : xs.foldl worse a ≠ .nan) (hx : x ∈ a :: xs) :
    x ≤ xs.foldl worse a := by
  induction xs generalizing a x with
  | nil =>
    obtain rfl := List.mem_singleton.mp hx
    exact Binary.le_refl h
  | cons y rest ih =>
    rw [List.foldl_cons] at h ⊢
    -- What both `a` and `y` are at most is at most the rest.
    have hworse := ih h List.mem_cons_self
    obtain ⟨ha, hy⟩ := le_worse (Binary.le_iff.mp hworse).1
    rcases List.mem_cons.mp hx with rfl | hx
    · exact Binary.le_trans ha hworse
    · rcases List.mem_cons.mp hx with rfl | hx
      · exact Binary.le_trans hy hworse
      · exact ih h (List.mem_cons_of_mem _ hx)

/-- What is not a number is never given up. -/
theorem foldl_worse_eq_nan_iff : xs.foldl worse a = .nan ↔ .nan ∈ a :: xs := by
  constructor
  · intro h
    have hmem := foldl_worse_mem a xs
    rwa [h] at hmem
  · intro hmem
    by_contra h
    exact (Binary.le_iff.mp (le_foldl_worse h hmem)).1 rfl

end Worst

/-! ## Differences -/

/-- The distances of the elements at the same places. -/
def distances (a b : Tensor) : List Single :=
  (a.data.toList.zip b.data.toList).map fun (x, y) => (x - y).abs

variable {a b : Tensor} {d : Single}

theorem maxAbsDiff_of_shape_eq (h : a.shape = b.shape) :
    a.maxAbsDiff b = some ((a.distances b).foldl worse (.zero false)) := if_pos h

theorem maxAbsDiff_eq_some_iff : a.maxAbsDiff b = some d ↔
    a.shape = b.shape ∧ (a.distances b).foldl worse (.zero false) = d := by
  unfold maxAbsDiff
  by_cases h : a.shape = b.shape
  · rw [if_pos h]
    simp [h, distances]
  · rw [if_neg h]
    simp [h]

theorem mem_distances : d ∈ a.distances b ↔
    ∃ (i : Nat) (x y : Single), a.data[i]? = some x ∧ b.data[i]? = some y ∧ (x - y).abs = d := by
  rw [distances, List.mem_map]
  constructor
  · rintro ⟨⟨x, y⟩, hmem, rfl⟩
    obtain ⟨i, hi⟩ := List.mem_iff_getElem?.mp hmem
    rw [List.getElem?_zip_eq_some, Array.getElem?_toList, Array.getElem?_toList] at hi
    exact ⟨i, x, y, hi.1, hi.2, rfl⟩
  · rintro ⟨i, x, y, hx, hy, rfl⟩
    refine ⟨(x, y), List.mem_iff_getElem?.mpr ⟨i, ?_⟩, rfl⟩
    rw [List.getElem?_zip_eq_some, Array.getElem?_toList, Array.getElem?_toList]
    exact ⟨hx, hy⟩

/-- No distance is negative. -/
theorem distance_nonneg (hd : d ∈ a.distances b) : 0 ≤ d.value := by
  obtain ⟨i, x, y, -, -, rfl⟩ := mem_distances.mp hd
  exact Binary.abs_value_nonneg _

theorem distances_comm (a b : Tensor) : a.distances b = b.distances a := by
  rw [distances, distances, ← List.zip_swap, List.map_map]
  refine List.map_congr_left ?_
  rintro ⟨y, x⟩ -
  exact Binary.abs_difference_comm x y

/-- It does not matter which of two tensors is compared with the other. -/
theorem maxAbsDiff_comm (a b : Tensor) : a.maxAbsDiff b = b.maxAbsDiff a := by
  by_cases h : a.shape = b.shape
  · rw [maxAbsDiff_of_shape_eq h, maxAbsDiff_of_shape_eq h.symm, distances_comm]
  · rw [maxAbsDiff, if_neg h, maxAbsDiff, if_neg fun h' => h h'.symm]

/-- Tensors of one shape have elements at the same places. -/
theorem size_eq_of_shape_eq (h : a.shape = b.shape) : a.data.size = b.data.size := by
  have hcount := a.count_eq
  rw [h, b.count_eq] at hcount
  exact (Option.some.inj hcount).symm

/-- The number is the largest of all distances: none is above it, and it is one of them. Without
any elements it is zero. -/
structure IsLargestDifference (a b : Tensor) (d : Single) : Prop where
  le : ∀ (i : Nat) (x y : Single), a.data[i]? = some x → b.data[i]? = some y → (x - y).abs ≤ d
  attained : (∃ (i : Nat) (x y : Single),
      a.data[i]? = some x ∧ b.data[i]? = some y ∧ (x - y).abs = d) ∨
    a.data.size = 0 ∧ d = .zero false

theorem isLargestDifference_of_maxAbsDiff (h : a.maxAbsDiff b = some d) (hd : d ≠ .nan) :
    IsLargestDifference a b d := by
  obtain ⟨hshape, rfl⟩ := maxAbsDiff_eq_some_iff.mp h
  have hle : ∀ x ∈ a.distances b, x ≤ (a.distances b).foldl worse (.zero false) :=
    fun x hx => le_foldl_worse hd (List.mem_cons_of_mem _ hx)
  refine { le := ?le, attained := ?attained }
  case le =>
    intro i x y hx hy
    exact hle _ (mem_distances.mpr ⟨i, x, y, hx, hy, rfl⟩)
  case attained =>
    rcases List.mem_cons.mp (foldl_worse_mem (.zero false) (a.distances b)) with hzero | hmem
    · rcases Nat.eq_zero_or_pos a.data.size with hempty | hpos
      · exact .inr ⟨hempty, hzero⟩
      · -- The zero is that of the first place too, as no distance is above it.
        left
        have hpos' : 0 < b.data.size := size_eq_of_shape_eq hshape ▸ hpos
        have hx : a.data[0]? = some a.data[0] := Array.getElem?_eq_getElem hpos
        have hy : b.data[0]? = some b.data[0] := Array.getElem?_eq_getElem hpos'
        refine ⟨0, _, _, hx, hy, ?_⟩
        have hfirst := hle _ (mem_distances.mpr ⟨0, _, _, hx, hy, rfl⟩)
        rw [hzero] at hfirst ⊢
        obtain ⟨hnan, -, hvalue⟩ := Binary.le_iff.mp hfirst
        rw [Binary.value_zero] at hvalue
        exact Binary.abs_eq_zero_of_value hnan
          (le_antisymm hvalue (Binary.abs_value_nonneg _))
    · exact .inl (mem_distances.mp hmem)

/-- The largest distance is finite and within the tolerance exactly if every distance is, and if the
zero that all began with is. -/
theorem largest_le_iff {tolerance : Single} :
    ((a.distances b).foldl worse (.zero false)).isFinite = true ∧
        (a.distances b).foldl worse (.zero false) ≤ tolerance ↔
      .zero false ≤ tolerance ∧ ∀ d ∈ a.distances b, d.isFinite = true ∧ d ≤ tolerance := by
  constructor
  · rintro ⟨hfinite, hle⟩
    have hlargest {d : Single} (hd : d ∈ .zero false :: a.distances b) :
        d ≤ (a.distances b).foldl worse (.zero false) :=
      le_foldl_worse (Binary.ne_nan_of_isFinite hfinite) hd
    refine ⟨Binary.le_trans (hlargest List.mem_cons_self) hle, fun d hd => ?_⟩
    have hd' := hlargest (List.mem_cons_of_mem _ hd)
    exact ⟨Binary.isFinite_of_nonneg_of_le (distance_nonneg hd) hd' hfinite,
      Binary.le_trans hd' hle⟩
  · rintro ⟨hzero, hall⟩
    rcases List.mem_cons.mp (foldl_worse_mem (.zero false) (a.distances b)) with h | h
    · rw [h]
      exact ⟨by decide, hzero⟩
    · exact hall _ h

/-- A tensor compared with itself: nothing is different, unless some element is not finite, and then
there is no number. -/
theorem maxAbsDiff_self (a : Tensor) :
    a.maxAbsDiff a = some (if a.isFinite then .zero false else .nan) := by
  have hself : ∀ d, d ∈ a.distances a ↔
      ∃ x ∈ a.data, d = if x.isFinite then .zero false else .nan := by
    intro d
    rw [mem_distances]
    constructor
    · rintro ⟨i, x, y, hx, hy, rfl⟩
      obtain rfl : x = y := Option.some.inj (hx.symm.trans hy)
      exact ⟨x, Array.mem_of_getElem? hx, Binary.abs_difference_self x⟩
    · rintro ⟨x, hx, rfl⟩
      obtain ⟨i, hi⟩ := Array.mem_iff_getElem?.mp hx
      exact ⟨i, x, x, hi, hi, Binary.abs_difference_self x⟩
  rw [maxAbsDiff_of_shape_eq rfl]
  by_cases hfinite : a.isFinite = true
  · -- All distances are zero, so the worst of them is.
    rw [if_pos hfinite]
    rcases List.mem_cons.mp (foldl_worse_mem (.zero false) (a.distances a)) with h | h
    · rw [h]
    · obtain ⟨x, hx, hd⟩ := (hself _).mp h
      rw [hd, if_pos (Array.all_eq_true_iff_forall_mem.mp hfinite x hx)]
  · rw [if_neg hfinite]
    rw [isFinite, Array.all_eq_true_iff_forall_mem] at hfinite
    obtain ⟨x, hnot⟩ := not_forall.mp hfinite
    obtain ⟨hx, hinfinite⟩ := Classical.not_imp.mp hnot
    have hnan : .nan ∈ a.distances a := (hself .nan).mpr ⟨x, hx, (if_neg hinfinite).symm⟩
    rw [foldl_worse_eq_nan_iff.mpr (List.mem_cons_of_mem _ hnan)]

end Tensor

end RegionPooling
