import Mathlib.Algebra.BigOperators.Group.List.Basic
import Mathlib.Algebra.BigOperators.Ring.List
import Mathlib.Algebra.GroupWithZero.Nat
import Mathlib.Algebra.Order.BigOperators.Group.List
import Mathlib.Data.List.Perm.Subperm
import RegionPooling.Shape

/-!
# Counting elements

The number of elements of a shape is found by multiplying its sizes one after the other, and
the check for overflow is made at every step. `Shape.extent` is the product that is checked:
that of the sizes other than zero. Since no factor of it is zero, it is at least as large as
the product of any of the sizes, so one check of it covers all partial products.

Main results:

* `Shape.extent?_eq` — the checked product succeeds exactly where the whole product is an
  address, no matter at which step a multiplication would first overflow.
* `Shape.count?_eq_some_iff` — the number of elements, with the condition for its existence.
* `Shape.prod_le_extent` — the product of some of the sizes is at most the product that is
  checked.
* `Shape.count_outcome` — what counting gives for a shape and for all its rearrangements.
-/

namespace RegionPooling.Shape

/-- The product of the sizes that are not zero. -/
def extent (s : Shape) : Nat := ((s.sizes.filter (· ≠ 0)).map UInt32.toNat).prod

theorem one_le_prod {numbers : List Nat} (h : ∀ n ∈ numbers, n ≠ 0) : 1 ≤ numbers.prod :=
  Nat.one_le_iff_ne_zero.mpr (List.prod_ne_zero fun h0 => h 0 h0 rfl)

/-- Multiplying step by step fails somewhere exactly if the whole product is too large. -/
theorem foldlM_checkedProduct (sizes : List UInt32) (h : ∀ size ∈ sizes, size ≠ 0)
    {product : Nat} (hp : product < addressable) :
    sizes.foldlM (fun product size => checkedProduct product size.toNat) product =
      if product * (sizes.map UInt32.toNat).prod < addressable then
        some (product * (sizes.map UInt32.toNat).prod)
      else none := by
  -- Along the list, with the product so far as what is multiplied next.
  induction sizes generalizing product with
  | nil => simp [hp]
  | cons size rest ih =>
    have hrest : ∀ size ∈ rest, size ≠ 0 := fun x hx => h x (List.mem_cons_of_mem _ hx)
    have hone : 1 ≤ (rest.map UInt32.toNat).prod := by
      apply one_le_prod
      intro n hn hzero
      obtain ⟨x, hx, rfl⟩ := List.mem_map.mp hn
      exact hrest x hx (UInt32.toNat_inj.mp hzero)
    rw [List.foldlM_cons, List.map_cons, List.prod_cons, ← Nat.mul_assoc]
    by_cases hstep : product * size.toNat < addressable
    · rw [checkedProduct, if_pos hstep]
      exact ih hrest hstep
    · -- What overflows here stays too large, as no later factor is zero.
      have hle : product * size.toNat ≤ product * size.toNat * (rest.map UInt32.toNat).prod :=
        Nat.le_mul_of_pos_right _ hone
      rw [checkedProduct, if_neg hstep, if_neg (by omega)]
      rfl

theorem extent?_eq (s : Shape) :
    s.extent? = if s.extent < addressable then some s.extent else none := by
  unfold extent? extent
  rw [foldlM_checkedProduct _ _ (by decide), Nat.one_mul]
  intro size hsize
  simpa using (List.mem_filter.mp hsize).2

/-- Leaving out zeros is the same as counting them as ones. -/
theorem extent_eq (s : Shape) : s.extent = ((s.sizes.map UInt32.toNat).map (max 1)).prod := by
  unfold extent
  induction s.sizes with
  | nil => rfl
  | cons size rest ih =>
    rw [List.map_cons, List.map_cons, List.prod_cons, ← ih]
    by_cases hsize : size = 0
    · subst hsize
      simp
    · have hpos : size.toNat ≠ 0 := fun h => hsize (UInt32.toNat_inj.mp h)
      rw [List.filter_cons_of_pos (by simpa using hsize), List.map_cons, List.prod_cons,
        max_eq_right (by omega)]

/-- A shape without zeros has as many elements as its sizes have for a product. -/
theorem extent_eq_prod {s : Shape} (h : s.sizes.contains 0 = false) :
    s.extent = (s.sizes.map UInt32.toNat).prod := by
  unfold extent
  rw [List.filter_eq_self.mpr]
  intro size hsize
  have hne : size ≠ 0 := by
    rintro rfl
    simp [hsize] at h
  simpa using hne

/-- The number of elements is the product of all sizes, if that of the others is an address. -/
theorem count?_eq_some_iff {s : Shape} {n : Nat} :
    s.count? = some n ↔ s.extent < addressable ∧ n = (s.sizes.map UInt32.toNat).prod := by
  unfold count?
  rw [extent?_eq]
  by_cases hlt : s.extent < addressable
  · rw [if_pos hlt, Option.map_some, Option.some.injEq]
    -- A size of zero makes the product zero, but only after the other sizes were checked.
    by_cases hzero : s.sizes.contains 0 = true
    · have hmem : (0 : UInt32) ∈ s.sizes := by simpa using hzero
      have hprod : (s.sizes.map UInt32.toNat).prod = 0 :=
        List.prod_eq_zero (List.mem_map.mpr ⟨0, hmem, rfl⟩)
      rw [if_pos hzero, hprod]
      exact ⟨fun h => ⟨hlt, h.symm⟩, fun h => h.2.symm⟩
    · rw [Bool.not_eq_true] at hzero
      rw [if_neg (by simp only [hzero]; decide), extent_eq_prod hzero]
      rw [extent_eq_prod hzero] at hlt
      exact ⟨fun h => ⟨hlt, h.symm⟩, fun h => h.2.symm⟩
  · rw [if_neg hlt, Option.map_none]
    exact ⟨fun h => (by cases h), fun h => absurd h.1 hlt⟩

/-- Where a shape of four sizes has a count, products of its sizes are addresses; each factor
may be left out, which also leaves out the zeros. -/
theorem product_lt_of_count? {s : Shape} {n p q r t : Nat} (hcount : s.count? = some n)
    (hsizes : s.sizes.map UInt32.toNat = [p, q, r, t]) {a b c d : Nat} (ha : a ≤ max 1 p)
    (hb : b ≤ max 1 q) (hc : c ≤ max 1 r) (hd : d ≤ max 1 t) :
    a * b * c * d < addressable := by
  have hextent := (count?_eq_some_iff.mp hcount).1
  rw [extent_eq, hsizes] at hextent
  simp only [List.map_cons, List.map_nil, List.prod_cons, List.prod_nil, Nat.mul_one,
    ← Nat.mul_assoc] at hextent
  exact Nat.lt_of_le_of_lt
    (Nat.mul_le_mul (Nat.mul_le_mul (Nat.mul_le_mul ha hb) hc) hd) hextent

theorem count_eq_ok_iff {s : Shape} {n : Nat} : s.count = .ok n ↔ s.count? = some n := by
  unfold count
  cases s.count? with
  | none => simp
  | some m => simp

/-- Counting fails exactly for an overflow, and says of which shape. -/
theorem count_eq_error_iff {s : Shape} :
    s.count = .error (.shapeOverflow s.text) ↔ addressable ≤ s.extent := by
  unfold count count?
  rw [extent?_eq]
  by_cases hlt : s.extent < addressable
  · rw [if_pos hlt, Option.map_some]
    exact ⟨fun h => (by cases h), fun h => absurd hlt (Nat.not_lt.mpr h)⟩
  · rw [if_neg hlt]
    exact ⟨fun _ => Nat.not_lt.mp hlt, fun _ => rfl⟩

/-! ## Some of the sizes, and the sizes in another order -/

/-- Some of the sizes, in whatever order, have no larger product than all but the zeros. -/
theorem prod_le_extent {s : Shape} {part : List UInt32} (h : part.Subperm s.sizes) :
    (part.map UInt32.toNat).prod ≤ s.extent := by
  obtain ⟨inner, hperm, hsublist⟩ := h
  -- With ones for the zeros a product only grows, and so it does with more factors.
  have hone : ∀ n ∈ (s.sizes.map UInt32.toNat).map (max 1), 1 ≤ n := by
    intro n hn
    obtain ⟨m, -, rfl⟩ := List.mem_map.mp hn
    exact Nat.le_max_left 1 m
  calc (part.map UInt32.toNat).prod
      = ((part.map UInt32.toNat).map id).prod := by rw [List.map_id]
    _ ≤ ((part.map UInt32.toNat).map (max 1)).prod :=
        List.prod_le_prod' fun n _ => Nat.le_max_right 1 n
    _ = ((inner.map UInt32.toNat).map (max 1)).prod := ((hperm.map _).map _).prod_eq.symm
    _ ≤ ((s.sizes.map UInt32.toNat).map (max 1)).prod :=
        ((hsublist.map _).map _).prod_le_prod' hone
    _ = s.extent := s.extent_eq.symm

theorem extent_eq_of_perm {s t : Shape} (h : t.sizes.Perm s.sizes) : t.extent = s.extent := by
  rw [extent_eq, extent_eq]
  exact ((h.map _).map _).prod_eq

/--
A shape has a number of elements exactly if the product of its sizes other than zero is an
address. The number is then the product of all sizes, and otherwise the overflow is reported.
Which of the two it is, and the number, do not depend on the order of the sizes. Where there is
a number, the products of some of the sizes are addresses, also where another size is zero.
-/
theorem count_outcome (s : Shape) :
    (∀ n, s.count = .ok n ↔
      s.extent < addressable ∧ n = (s.sizes.map UInt32.toNat).prod) ∧
    (s.count = .error (.shapeOverflow s.text) ↔ addressable ≤ s.extent) ∧
    (s.sizes = [] → s.count = .ok 1) ∧
    (0 ∈ s.sizes → s.extent < addressable → s.count = .ok 0) ∧
    (∀ t : Shape, t.sizes.Perm s.sizes →
      (∀ n, t.count = .ok n ↔ s.count = .ok n) ∧
      (t.count = .error (.shapeOverflow t.text) ↔ s.count = .error (.shapeOverflow s.text))) ∧
    ∀ n, s.count = .ok n → ∀ part : List UInt32, part.Subperm s.sizes →
      (part.map UInt32.toNat).prod < addressable := by
  have hok (t : Shape) (n : Nat) : t.count = .ok n ↔
      t.extent < addressable ∧ n = (t.sizes.map UInt32.toNat).prod :=
    count_eq_ok_iff.trans count?_eq_some_iff
  refine ⟨hok s, count_eq_error_iff, fun hnil => ?_, fun hzero hlt => ?_, fun t hperm => ?_,
    fun n hn part hpart => ?_⟩
  · refine (hok s 1).mpr ?_
    rw [extent, hnil]
    exact ⟨by decide, rfl⟩
  · have hprod : (s.sizes.map UInt32.toNat).prod = 0 :=
      List.prod_eq_zero (List.mem_map.mpr ⟨0, hzero, rfl⟩)
    exact (hok s 0).mpr ⟨hlt, hprod.symm⟩
  · refine ⟨fun n => ?_, ?_⟩
    · rw [hok t, hok s, extent_eq_of_perm hperm, (hperm.map _).prod_eq]
    · rw [count_eq_error_iff, count_eq_error_iff, extent_eq_of_perm hperm]
  · exact Nat.lt_of_le_of_lt (prod_le_extent hpart) ((hok s n).mp hn).1

/-- The largest product of two sizes, behind a size of zero that makes the number zero. -/
def emptyRows : Shape := ⟨[0, 0xFFFFFFFF, 0xFFFFFFFF]⟩

/-- Two of the sizes still have a product that is an address, and three of that size have not. -/
theorem emptyRows_count_outcome :
    emptyRows.count = .ok 0 ∧
      (⟨[0xFFFFFFFF, 0, 0xFFFFFFFF]⟩ : Shape).count = .ok 0 ∧
      (([0xFFFFFFFF, 0xFFFFFFFF] : List UInt32).map UInt32.toNat).prod < addressable ∧
      (⟨[]⟩ : Shape).count = .ok 1 ∧
      ¬∃ n, (⟨[0xFFFFFFFF, 0, 0xFFFFFFFF, 0xFFFFFFFF]⟩ : Shape).count = .ok n := by
  have hperm : [0xFFFFFFFF, 0, 0xFFFFFFFF].Perm emptyRows.sizes := List.Perm.swap ..
  have hzero : emptyRows.count = .ok 0 :=
    (count_outcome emptyRows).2.2.2.1 (by decide) (by decide)
  refine ⟨hzero, ?_, ?_, ?_, ?_⟩
  · exact (((count_outcome emptyRows).2.2.2.2.1 _ hperm).1 0).mpr hzero
  · exact (count_outcome emptyRows).2.2.2.2.2 0 hzero _ (List.sublist_cons_self ..).subperm
  · exact (count_outcome ⟨[]⟩).2.2.1 rfl
  · rintro ⟨n, hn⟩
    have hlt := (((count_outcome _).1 n).mp hn).1
    exact absurd hlt (by decide)

end RegionPooling.Shape
