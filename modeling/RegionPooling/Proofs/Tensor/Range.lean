import RegionPooling.Proofs.Tensor.Difference

/-!
# The range of a tensor

The smallest and the largest element are found by two folds, from positive infinity down and from
negative infinity up. Both pass over what is not a number, wherever it stands. What they begin with
cannot be told from a result: no number is before positive infinity in the first fold, so where it
is left in the end, it is an element too, and the same holds for the other fold. This is so as long
as there is a number to take over. If no element is a number, both are left as they began, and the
smallest element is said to be larger than the largest one.

The two folds differ in the order alone, so all that is needed of them is proved for any order
(`Tensor.Keeps`).

Main results:

* `Tensor.Keeps.foldl_mem`, `Tensor.Keeps.before_foldl` — the result is an element, and no other
  number comes before it.
* `Tensor.valueRange_isRange_iff` — a tensor with elements has a range exactly if one of them is a
  number.
-/

namespace RegionPooling

namespace Tensor

/-! ## Folds that keep one element -/

/-- Of two numbers the one is kept that is before the other, and what is not a number gives way. -/
structure Keeps (choose : Single → Single → Single) (before : Single → Single → Prop) : Prop where
  eq_or : ∀ {a b}, a ≠ .nan →
    choose a b = a ∧ (b ≠ .nan → before a b) ∨ choose a b = b ∧ before b a
  ne_nan : ∀ {a b}, before a b → a ≠ .nan
  refl : ∀ {a}, a ≠ .nan → before a a
  trans : ∀ {a b c}, before a b → before b c → before a c

namespace Keeps

variable {choose : Single → Single → Single} {before : Single → Single → Prop}
  {seed a b x : Single} {xs : List Single}

theorem before_both (h : Keeps choose before) (ha : a ≠ .nan) :
    before (choose a b) a ∧ (b ≠ .nan → before (choose a b) b) := by
  rcases h.eq_or ha with ⟨heq, hright⟩ | ⟨heq, hleft⟩
  · rw [heq]
    exact ⟨h.refl ha, hright⟩
  · rw [heq]
    exact ⟨hleft, h.refl⟩

/-- The result is a number, and it is one of the list or what it began with. -/
theorem foldl_mem_cons (h : Keeps choose before) (hseed : seed ≠ .nan) (xs : List Single) :
    xs.foldl choose seed ≠ .nan ∧ xs.foldl choose seed ∈ seed :: xs := by
  refine List.foldlRecOn xs choose (motive := fun kept => kept ≠ .nan ∧ kept ∈ seed :: xs)
    ⟨hseed, List.mem_cons_self⟩ ?_
  rintro kept ⟨hkept, hmem⟩ x hx
  rcases h.eq_or (b := x) hkept with ⟨heq, -⟩ | ⟨heq, hbefore⟩
  · rw [heq]
    exact ⟨hkept, hmem⟩
  · rw [heq]
    exact ⟨h.ne_nan hbefore, List.mem_cons_of_mem _ hx⟩

/-- No number of the list comes before the result. -/
theorem before_foldl (h : Keeps choose before) (hseed : seed ≠ .nan) (hx : x ∈ seed :: xs)
    (hnumber : x ≠ .nan) : before (xs.foldl choose seed) x := by
  induction xs generalizing seed x with
  | nil =>
    obtain rfl := List.mem_singleton.mp hx
    exact h.refl hnumber
  | cons y rest ih =>
    rw [List.foldl_cons]
    obtain ⟨hleft, hright⟩ := h.before_both (b := y) hseed
    have hkept := h.ne_nan hleft
    -- The result is before what is kept of `seed` and `y`, and this is before both of them.
    have hbefore := ih hkept List.mem_cons_self hkept
    rcases List.mem_cons.mp hx with rfl | hx
    · exact h.trans hbefore hleft
    · rcases List.mem_cons.mp hx with rfl | hx
      · exact h.trans hbefore (hright hnumber)
      · exact ih hkept (List.mem_cons_of_mem _ hx) hnumber

/-- If the seed is before itself only, and some element is a number, the result is an element. -/
theorem foldl_mem (h : Keeps choose before) (hseed : seed ≠ .nan)
    (hlast : ∀ y, before seed y → y = seed) (hx : x ∈ xs) (hnumber : x ≠ .nan) :
    xs.foldl choose seed ∈ xs := by
  rcases List.mem_cons.mp (h.foldl_mem_cons hseed xs).2 with hkept | hmem
  · have hbefore := h.before_foldl hseed (List.mem_cons_of_mem _ hx) hnumber
    rw [hkept] at hbefore ⊢
    rwa [← hlast x hbefore]
  · exact hmem

/-- If no element is a number, the seed stays. -/
theorem foldl_eq_seed (h : Keeps choose before) (hseed : seed ≠ .nan) (hall : ∀ x ∈ xs, x = .nan) :
    xs.foldl choose seed = seed := by
  obtain ⟨hnumber, hmem⟩ := h.foldl_mem_cons hseed xs
  rcases List.mem_cons.mp hmem with hkept | hmem
  · exact hkept
  · exact absurd (hall _ hmem) hnumber

end Keeps

theorem keeps_min : Keeps Binary.min (· ≤ ·) where
  eq_or {a b} ha := by
    unfold Binary.min
    rw [isNaN_eq_false ha, if_neg Bool.false_ne_true]
    split
    · exact .inr ⟨rfl, Binary.le_of_lt ‹b < a›⟩
    · exact .inl ⟨rfl, fun hb => Binary.le_of_not_lt ha hb ‹_›⟩
  ne_nan h := (Binary.le_iff.mp h).1
  refl := Binary.le_refl
  trans := Binary.le_trans

theorem keeps_max : Keeps Binary.max (· ≥ ·) where
  eq_or {a b} ha := by
    unfold Binary.max
    rw [isNaN_eq_false ha, if_neg Bool.false_ne_true]
    split
    · exact .inr ⟨rfl, Binary.le_of_lt ‹a < b›⟩
    · exact .inl ⟨rfl, fun hb => Binary.le_of_not_lt hb ha ‹_›⟩
  ne_nan h := (Binary.le_iff.mp h).2.1
  refl := Binary.le_refl
  trans hab hbc := Binary.le_trans hbc hab

/-! ## The range -/

/-- The smallest and the largest number among the elements: each of them is equal to an element, and
all elements that are numbers lie between them. -/
structure IsRange (t : Tensor) (least greatest : Single) : Prop where
  le : least ≤ greatest
  least_mem : ∃ x ∈ t.data, least.numEq x = true
  greatest_mem : ∃ x ∈ t.data, greatest.numEq x = true
  within : ∀ x ∈ t.data, x ≠ .nan → least ≤ x ∧ x ≤ greatest

theorem infinity_ne_nan (s : Bool) : (.infinity s : Single) ≠ .nan := nofun

/-- With one number among the elements, the folds give a range. -/
theorem isRange_foldl {t : Tensor} {x : Single} (hx : x ∈ t.data) (hnumber : x ≠ .nan) :
    t.IsRange (t.data.toList.foldl Binary.min (.infinity false))
      (t.data.toList.foldl Binary.max (.infinity true)) := by
  have hpositive := infinity_ne_nan false
  have hnegative := infinity_ne_nan true
  have hleast := keeps_min.foldl_mem hpositive (fun _ => Binary.eq_infinity_of_le) hx.val hnumber
  have hgreatest :=
    keeps_max.foldl_mem hnegative (fun _ => Binary.eq_infinity_of_ge) hx.val hnumber
  have hwithin : ∀ y ∈ t.data, y ≠ .nan →
      t.data.toList.foldl Binary.min (.infinity false) ≤ y ∧
        y ≤ t.data.toList.foldl Binary.max (.infinity true) := by
    intro y hy hne
    exact ⟨keeps_min.before_foldl hpositive (List.mem_cons_of_mem _ hy.val) hne,
      keeps_max.before_foldl hnegative (List.mem_cons_of_mem _ hy.val) hne⟩
  obtain ⟨hbelow, habove⟩ := hwithin x hx hnumber
  exact {
    le := Binary.le_trans hbelow habove
    least_mem := ⟨_, ⟨hleast⟩, Binary.numEq_self (keeps_min.foldl_mem_cons hpositive _).1⟩
    greatest_mem := ⟨_, ⟨hgreatest⟩, Binary.numEq_self (keeps_max.foldl_mem_cons hnegative _).1⟩
    within := hwithin }

/--
The range of every tensor that has elements is given, and it is one exactly if some element is a
number. For a tensor without numbers, what both folds began with is given in place of elements.
-/
theorem valueRange_isRange_iff (t : Tensor) (hsize : 0 < t.data.size) :
    ∃ least greatest, t.valueRange = some (least, greatest) ∧
      (t.IsRange least greatest ↔ ∃ x ∈ t.data, x ≠ .nan) ∧
      ((∀ x ∈ t.data, x = .nan) → least = .infinity false ∧ greatest = .infinity true) := by
  have hnonempty : ¬ t.data.isEmpty = true := by
    rw [Array.isEmpty_iff_size_eq_zero]
    omega
  refine ⟨_, _, if_neg hnonempty, ?_⟩
  rw [← Array.foldl_toList, ← Array.foldl_toList]
  refine ⟨⟨?numbers, ?range⟩, ?none⟩
  case numbers =>
    intro hrange
    obtain ⟨x, hx, hequal⟩ := hrange.least_mem
    exact ⟨x, hx, Binary.ne_nan_of_numEq hequal⟩
  case range =>
    rintro ⟨x, hx, hnumber⟩
    exact isRange_foldl hx hnumber
  case none =>
    intro hall
    have hall' : ∀ x ∈ t.data.toList, x = .nan := fun x hx => hall x ⟨hx⟩
    exact ⟨keeps_min.foldl_eq_seed (infinity_ne_nan false) hall',
      keeps_max.foldl_eq_seed (infinity_ne_nan true) hall'⟩

/-- Both zeros and an infinity, between elements that are no numbers. -/
def mixed : Tensor := ⟨⟨[5]⟩, #[.nan, .zero true, .infinity false, .zero false, .nan], rfl⟩

theorem mixed_has_range : 0 < mixed.data.size ∧
    ∃ least greatest, mixed.valueRange = some (least, greatest) ∧
      mixed.IsRange least greatest := by
  have hsize : 0 < mixed.data.size := by decide
  obtain ⟨least, greatest, hvalue, hiff, -⟩ := valueRange_isRange_iff mixed hsize
  exact ⟨hsize, least, greatest, hvalue, hiff.mpr ⟨.zero true, by simp [mixed], by decide⟩⟩

/-- One element, which is not a number. -/
def notANumber : Tensor := ⟨⟨[1]⟩, #[.nan], rfl⟩

/-- A range is given for it all the same, from positive infinity to negative infinity. -/
theorem notANumber_has_no_range : 0 < notANumber.data.size ∧
    notANumber.valueRange = some (.infinity false, .infinity true) ∧
      ¬ (.infinity false : Single) ≤ .infinity true ∧
        ¬ ∃ least greatest, notANumber.valueRange = some (least, greatest) ∧
          notANumber.IsRange least greatest := by
  have hvalue : notANumber.valueRange = some (.infinity false, .infinity true) := by decide
  have hinverted : ¬ (.infinity false : Single) ≤ .infinity true := by decide
  refine ⟨by decide, hvalue, hinverted, ?_⟩
  rintro ⟨least, greatest, hsome, hrange⟩
  rw [hvalue, Option.some.injEq, Prod.mk.injEq] at hsome
  obtain ⟨rfl, rfl⟩ := hsome
  exact hinverted hrange.le

end Tensor

end RegionPooling
