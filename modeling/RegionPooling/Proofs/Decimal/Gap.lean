import RegionPooling.Proofs.Binary.Single
import RegionPooling.Proofs.Decimal.Approximation
import RegionPooling.Proofs.Decimal.Value

/-!
# Decimals near midpoints

A decimal is read in two steps: into an eight-byte number, and from there into a four-byte one.
The first step misses it by a little. That does no harm unless a midpoint of four-byte numbers
lies within the miss, so this module shows that decimals of few digits keep away from midpoints:
a decimal is the midpoint itself, or it is farther from it than reading can miss.

The decimals of one exponent are the multiples of a power of ten, and midpoints are odd
multiples of powers of two. Only two powers of two matter for each exponent: larger ones are
multiples of the first, and for smaller ones the decimal is multiplied instead. So a bound on
how close multiples of two numbers come settles each exponent by a calculation.

There is one exponent with decimals closer to a midpoint, and only two of them are
(`Decimal.IsClose`).

Main result:

* `Decimal.midpoint_or_far` — a decimal is a midpoint, far from it, or one of the two.
-/

namespace RegionPooling.Decimal

open Convergents

/-! ## The two grids -/

/-- From this significand on, decimals of one exponent lie closer together than four-byte numbers
of their size. -/
def fineFrom : Nat := 2 ^ 24 + 2 ^ 10

/-- The decimals of an exponent are the multiples of `tens / ones`, counted in halves of the
smallest four-byte number. -/
def tens (e : Int) : Nat := 10 ^ e.toNat * 2 ^ 150

def ones (e : Int) : Nat := 10 ^ (-e).toNat

/-- The largest power of two up to the distance of the decimals of an exponent. -/
def doublingsOf (e : Int) : Nat := (tens e / ones e).log2

/-- The distance of midpoints that decimals are compared with: of the first kind, or of the next
smaller one. -/
def mesh (e : Int) (kind : Nat) : Nat := ones e * 2 ^ (doublingsOf e - kind)

/-- Multiples of the decimals that are comparable with midpoints of this mesh lie below this. -/
def reach (e : Int) (kind : Nat) : Nat := min fineFrom (2 * fineFrom * mesh e kind / tens e + 1)

/--
How far reading may miss a decimal, in parts of `2 ^ 62` of it: by one rounding where the power
of ten is an eight-byte number itself, and by two otherwise.
-/
def missParts (e : Int) : Nat := if e.natAbs ≤ 22 then 2 ^ 9 else 2 ^ 10 + 1

/-! ## Calculation -/

def nearestPair (e : Int) (kind : Nat) : Convergents :=
  ofRatio (reach e kind) (tens e) (mesh e kind)

/-- How close the nearest pair comes. -/
def nearestError (e : Int) (kind : Nat) : Nat :=
  (error (tens e) (mesh e kind) (nearestPair e kind).q (nearestPair e kind).p).natAbs

/-- No decimal comes closer to a midpoint than reading may miss it. -/
def Isolated (e : Int) (kind : Nat) : Prop :=
  (nearestPair e kind).Around (tens e) (mesh e kind) ∧
    (reach e kind ≤ (nearestPair e kind).q' ∨
      error (tens e) (mesh e kind) (nearestPair e kind).q' (nearestPair e kind).p' = 0) ∧
    missParts e * (reach e kind * tens e) < 2 ^ 62 * nearestError e kind

/-- No decimal does except for the multiples of one of them. -/
def IsolatedBut (e : Int) (kind : Nat) : Prop :=
  (nearestPair e kind).Around (tens e) (mesh e kind) ∧
    reach e kind ≤ (nearestPair e kind).q' ∧
    missParts e * (reach e kind * tens e) * (nearestPair e kind).q <
      2 ^ 62 * (((nearestPair e kind).q' - reach e kind) * nearestError e kind)

instance (e : Int) (kind : Nat) : Decidable (Isolated e kind) :=
  inferInstanceAs (Decidable (_ ∧ (_ ∨ _) ∧ _))

instance (e : Int) (kind : Nat) : Decidable (IsolatedBut e kind) :=
  inferInstanceAs (Decidable (_ ∧ _ ∧ _))

-- One run of the Euclidean algorithm for each exponent and kind.
set_option maxRecDepth 4000 in
theorem isolated_range : ∀ place : Nat, place < 93 → ∀ kind : Nat, kind < 2 →
    (place : Int) - 54 ≠ -32 → Isolated (place - 54) kind := by decide +kernel

theorem isolatedBut : IsolatedBut (-32) 0 ∧ IsolatedBut (-32) 1 := by decide +kernel

theorem nearestPair_zero : nearestPair (-32) 0 = ⟨22841339, 14077062, 2222857682, 1369941815⟩ := by
  decide +kernel

theorem nearestPair_one : nearestPair (-32) 1 = ⟨22841339, 7038531, 4468556703, 1376980346⟩ := by
  decide +kernel

theorem isolated {e : Int} {kind : Nat} (hlow : -54 ≤ e) (hhigh : e ≤ 38) (hne : e ≠ -32)
    (hkind : kind < 2) : Isolated e kind := by
  have h := isolated_range (e + 54).toNat (by omega) kind hkind
  rw [show ((e + 54).toNat : Int) - 54 = e by omega] at h
  exact h hne

/-! ## Decimals and midpoints -/

/-- The decimal `s * 10 ^ e` is farther from `n` than reading may miss it; `n` is counted in halves
of the smallest four-byte number. -/
def IsFar (e : Int) (s n : Nat) : Prop :=
  missParts e * (s * tens e) < 2 ^ 62 * (error (tens e) (ones e) s n).natAbs

theorem missParts_le (e : Int) : missParts e ≤ 2 ^ 10 + 1 := by
  unfold missParts
  split
  · decide
  · exact Nat.le_refl _

theorem tens_pos (e : Int) : 0 < tens e := Nat.mul_pos (Nat.pow_pos (by decide)) (by decide)

theorem ones_pos (e : Int) : 0 < ones e := Nat.pow_pos (by decide)

theorem tens_lt (e : Int) : tens e < 2 * mesh e 0 := by
  have hlog : tens e / ones e < 2 ^ (doublingsOf e + 1) := Nat.lt_log2_self
  have hlt := (Nat.div_lt_iff_lt_mul (ones_pos e)).mp hlog
  calc tens e < 2 ^ (doublingsOf e + 1) * ones e := hlt
    _ = 2 * mesh e 0 := by
        rw [mesh, Nat.sub_zero]
        ring

theorem le_tens {e : Int} (h : doublingsOf e ≠ 0) : 2 * mesh e 1 ≤ tens e := by
  have hne : tens e / ones e ≠ 0 := by
    intro hzero
    exact h (by rw [doublingsOf, hzero, Nat.log2_zero])
  have hle := (Nat.le_div_iff_mul_le (ones_pos e)).mp (Nat.log2_self_le hne)
  obtain ⟨k, hk⟩ := Nat.exists_eq_succ_of_ne_zero h
  rw [← doublingsOf, hk] at hle
  calc 2 * mesh e 1 = 2 ^ (k + 1) * ones e := by
        rw [mesh, hk, Nat.succ_sub_one]
        ring
    _ ≤ tens e := hle

theorem lt_reach {e : Int} {kind s : Nat} (hlt : s < fineFrom)
    (h : s * tens e ≤ 2 * fineFrom * mesh e kind) : s < reach e kind := by
  have hdiv := (Nat.le_div_iff_mul_le (tens_pos e)).mpr h
  exact lt_min hlt (by omega)

/-- A power of two may count for the multiple or for the mesh. -/
theorem error_mul_two_pow (x y s m k u : Nat) :
    error x (y * 2 ^ k) s (m * 2 ^ u) = error x y s (m * 2 ^ (k + u)) := by
  simp only [error]
  push_cast
  ring

/-- Decimal and midpoint may both be multiplied. -/
theorem error_two_pow_mul (x y s m t u : Nat) :
    error x (y * 2 ^ (t + u)) (s * 2 ^ u) m = 2 ^ u * error x y s (m * 2 ^ t) := by
  simp only [error]
  push_cast
  ring

/-- What lies well beyond a midpoint is far from it. -/
theorem isFar_of_beyond {e : Int} {s m t u : Nat} (hm : m < 2 ^ 25)
    (h : 2 * fineFrom * (ones e * 2 ^ (t + u)) ≤ s * 2 ^ u * tens e) :
    IsFar e s (m * 2 ^ t) := by
  have hle : 2 * fineFrom * (ones e * 2 ^ t) ≤ s * tens e := by
    have hpow : 0 < 2 ^ u := Nat.pow_pos (by decide)
    refine Nat.le_of_mul_le_mul_right ?_ hpow
    calc 2 * fineFrom * (ones e * 2 ^ t) * 2 ^ u
        = 2 * fineFrom * (ones e * 2 ^ (t + u)) := by
          rw [Nat.pow_add]
          ring
      _ ≤ s * 2 ^ u * tens e := h
      _ = s * tens e * 2 ^ u := by ring
  have hn : m * 2 ^ t * ones e ≤ 2 ^ 25 * (ones e * 2 ^ t) := by
    calc m * 2 ^ t * ones e = m * (ones e * 2 ^ t) := by ring
      _ ≤ 2 ^ 25 * (ones e * 2 ^ t) := Nat.mul_le_mul_right _ hm.le
  have hpos : 0 < ones e * 2 ^ t := Nat.mul_pos (ones_pos e) (Nat.pow_pos (by decide))
  have hmiss := missParts_le e
  have herror : (error (tens e) (ones e) s (m * 2 ^ t)).natAbs =
      s * tens e - m * 2 ^ t * ones e := by
    simp only [error]
    unfold fineFrom at hle
    omega
  unfold IsFar
  rw [herror]
  generalize s * tens e = decimal at hle ⊢
  generalize m * 2 ^ t * ones e = midpoint at hn ⊢
  generalize ones e * 2 ^ t = distance at hle hn hpos
  -- A part in `2 ^ 15` of the decimal lies beyond the midpoint.
  have hbeyond : decimal ≤ 2 ^ 15 * (decimal - midpoint) := by
    unfold fineFrom at hle
    omega
  calc missParts e * decimal ≤ (2 ^ 10 + 1) * (2 ^ 15 * (decimal - midpoint)) :=
        Nat.mul_le_mul hmiss hbeyond
    _ < 2 ^ 62 * (decimal - midpoint) := by
        unfold fineFrom at hle
        omega

/-- A midpoint is compared with a multiple of the decimal, by a power of two, on one of the two
meshes, unless it is far away in any case. -/
theorem isFar_or_comparable {e : Int} {s m t : Nat} (hlt : s < fineFrom) (hm : m < 2 ^ 25) :
    IsFar e s (m * 2 ^ t) ∨
      (∃ u, s < reach e 0 ∧
        error (tens e) (mesh e 0) s (m * 2 ^ u) = error (tens e) (ones e) s (m * 2 ^ t)) ∨
      ∃ u, s * 2 ^ u < reach e 1 ∧
        error (tens e) (mesh e 1) (s * 2 ^ u) m =
          2 ^ u * error (tens e) (ones e) s (m * 2 ^ t) := by
  have hX := tens_pos e
  by_cases hdoublings : doublingsOf e ≤ t
  · -- The midpoint is a multiple of the first mesh.
    obtain ⟨u, rfl⟩ := Nat.exists_eq_add_of_le hdoublings
    refine .inr (.inl ⟨u, lt_reach hlt ?_, ?_⟩)
    · calc s * tens e ≤ fineFrom * (2 * mesh e 0) :=
            Nat.mul_le_mul hlt.le (tens_lt e).le
        _ = 2 * fineFrom * mesh e 0 := by ring
    · rw [mesh, Nat.sub_zero, error_mul_two_pow]
  · obtain ⟨u, hu⟩ : ∃ u, doublingsOf e = t + u + 1 := ⟨doublingsOf e - t - 1, by omega⟩
    have hmesh : mesh e 1 = ones e * 2 ^ (t + u) := by rw [mesh, hu, Nat.add_sub_cancel]
    have hle := le_tens (show doublingsOf e ≠ 0 by omega)
    by_cases hnear : s * 2 ^ u * tens e < 2 * fineFrom * mesh e 1
    · refine .inr (.inr ⟨u, lt_reach ?_ hnear.le, hmesh ▸ error_two_pow_mul ..⟩)
      by_contra hge
      have : fineFrom * (2 * mesh e 1) ≤ s * 2 ^ u * tens e :=
        Nat.mul_le_mul (Nat.le_of_not_lt hge) hle
      linarith
    · -- The decimal lies beyond all midpoints of this mesh.
      exact .inl (isFar_of_beyond hm (hmesh ▸ Nat.le_of_not_lt hnear))

/-- A comparable multiple of an isolated decimal is the midpoint or far from it. -/
theorem isFar_of_isolated {e : Int} {kind s m : Nat} (h : Isolated e kind) (hs : 0 < s)
    (hlt : s < reach e kind) (hne : error (tens e) (mesh e kind) s m ≠ 0) :
    missParts e * (s * tens e) < 2 ^ 62 * (error (tens e) (mesh e kind) s m).natAbs := by
  obtain ⟨haround, hbound, hmiss⟩ := h
  have hle : nearestError e kind ≤ (error (tens e) (mesh e kind) s m).natAbs :=
    error_le haround (hbound.imp_left fun h => Nat.lt_of_lt_of_le hlt h) hs hne
  calc missParts e * (s * tens e) ≤ missParts e * (reach e kind * tens e) :=
        Nat.mul_le_mul_left _ (Nat.mul_le_mul_right _ hlt.le)
    _ < 2 ^ 62 * nearestError e kind := hmiss
    _ ≤ 2 ^ 62 * (error (tens e) (mesh e kind) s m).natAbs := Nat.mul_le_mul_left _ hle

/-- And where one decimal is not isolated, this holds of all but its multiples. -/
theorem isFar_of_isolatedBut {e : Int} {kind s m : Nat} (h : IsolatedBut e kind) (hs : 0 < s)
    (hlt : s < reach e kind) :
    (∃ a, s = a * (nearestPair e kind).q ∧ m = a * (nearestPair e kind).p) ∨
      missParts e * (s * tens e) < 2 ^ 62 * (error (tens e) (mesh e kind) s m).natAbs := by
  obtain ⟨haround, hbound, hmiss⟩ := h
  refine (multiple_or_error_le haround hs (Nat.lt_of_lt_of_le hlt hbound)).imp_right fun hle => ?_
  refine Nat.lt_of_mul_lt_mul_right (a := (nearestPair e kind).q) ?_
  calc missParts e * (s * tens e) * (nearestPair e kind).q
      ≤ missParts e * (reach e kind * tens e) * (nearestPair e kind).q :=
        Nat.mul_le_mul_right _ (Nat.mul_le_mul_left _ (Nat.mul_le_mul_right _ hlt.le))
    _ < 2 ^ 62 * (((nearestPair e kind).q' - reach e kind) * nearestError e kind) := hmiss
    _ ≤ 2 ^ 62 * (((nearestPair e kind).q' - s) * nearestError e kind) := by
        gcongr
    _ ≤ 2 ^ 62 * ((nearestPair e kind).q * (error (tens e) (mesh e kind) s m).natAbs) :=
        Nat.mul_le_mul_left _ hle
    _ = 2 ^ 62 * (error (tens e) (mesh e kind) s m).natAbs * (nearestPair e kind).q := by ring

/-- The two decimals that are closer to a midpoint than reading may miss them. -/
def IsClose (e : Int) (s : Nat) : Prop := e = -32 ∧ (s = 7038531 ∨ s = 14077062)

/-- In whole numbers: a decimal of few digits is a midpoint, or far from it, or it is one of the
two close ones. -/
theorem error_eq_zero_or_isFar {e : Int} {s m t : Nat} (hlow : -54 ≤ e) (hhigh : e ≤ 38)
    (hs : 0 < s) (hlt : s < fineFrom) (hm : m < 2 ^ 25) :
    error (tens e) (ones e) s (m * 2 ^ t) = 0 ∨ IsFar e s (m * 2 ^ t) ∨ IsClose e s := by
  by_cases hzero : error (tens e) (ones e) s (m * 2 ^ t) = 0
  · exact .inl hzero
  right
  rcases isFar_or_comparable (e := e) (t := t) hlt hm with hfar | ⟨u, hreach, herror⟩ |
    ⟨u, hreach, herror⟩
  · exact .inl hfar
  · -- The decimal itself against a multiple of the midpoint.
    by_cases he : e = -32
    · subst he
      rcases isFar_of_isolatedBut (m := m * 2 ^ u) isolatedBut.1 hs hreach with
        ⟨a, ha, -⟩ | hfar
      · right
        refine ⟨rfl, .inr ?_⟩
        rw [nearestPair_zero] at ha
        unfold fineFrom at hlt
        dsimp only at ha
        omega
      · exact .inl (by rwa [herror] at hfar)
    · have hfar := isFar_of_isolated (isolated hlow hhigh he (by decide)) hs hreach (herror ▸ hzero)
      exact .inl (by rwa [herror] at hfar)
  · -- A multiple of the decimal against the midpoint.
    have hpos : 0 < s * 2 ^ u := Nat.mul_pos hs (Nat.pow_pos (by decide))
    have hdivide (h : missParts e * (s * 2 ^ u * tens e) <
        2 ^ 62 * (error (tens e) (mesh e 1) (s * 2 ^ u) m).natAbs) : IsFar e s (m * 2 ^ t) := by
      rw [herror, Int.natAbs_mul, Int.natAbs_pow] at h
      refine Nat.lt_of_mul_lt_mul_right (a := 2 ^ u) ?_
      calc missParts e * (s * tens e) * 2 ^ u = missParts e * (s * 2 ^ u * tens e) := by ring
        _ < 2 ^ 62 * (2 ^ u * (error (tens e) (ones e) s (m * 2 ^ t)).natAbs) := h
        _ = 2 ^ 62 * (error (tens e) (ones e) s (m * 2 ^ t)).natAbs * 2 ^ u := by ring
    have hne : error (tens e) (mesh e 1) (s * 2 ^ u) m ≠ 0 := by
      rw [herror]
      exact mul_ne_zero (pow_ne_zero _ (by decide)) hzero
    by_cases he : e = -32
    · subst he
      rcases isFar_of_isolatedBut (m := m) isolatedBut.2 hpos hreach with ⟨a, ha, ha'⟩ | hfar
      · -- The close decimal is odd, so it has not been multiplied.
        rw [nearestPair_one] at ha ha'
        dsimp only at ha ha'
        obtain rfl : a = 1 := by omega
        rcases u with _ | u
        · exact .inr ⟨rfl, .inl (by omega)⟩
        · rw [Nat.pow_succ, ← Nat.mul_assoc] at ha
          omega
      · exact .inl (hdivide hfar)
    · exact .inl (hdivide (isFar_of_isolated (isolated hlow hhigh he (by decide)) hpos hreach hne))

/-! ## As rational numbers -/

/-- The part of a decimal by which reading may miss it. -/
def miss (e : Int) : ℚ := missParts e / 2 ^ 62

theorem tens_eq (e : Int) : (tens e : ℚ) = 10 ^ e * 2 ^ 150 * ones e := by
  have hne : ((10 ^ (-e).toNat : Nat) : ℚ) ≠ 0 := Nat.cast_ne_zero.mpr (ones_pos e).ne'
  rw [tens, ones, zpow_eq, Nat.cast_mul, Nat.cast_pow 2, Nat.cast_ofNat]
  field_simp

/-- The significand of a midpoint in halves of units. -/
theorem midpoint_eq (j : Nat) : Format.single.midpoint j =
    ((2 * Format.single.significand j + 1) * 2 ^ Format.single.doublings j : Nat) / 2 ^ 150 := by
  have hhalf : (2 : ℚ) * 2 ^ 149 = 2 ^ 150 := by norm_num
  rw [Format.midpoint_eq, Single.unitsPerOne_eq, hhalf]

theorem significand_midpoint_lt (j : Nat) : 2 * Format.single.significand j + 1 < 2 ^ 25 := by
  have hlt : Format.single.significand j < 2 ^ 24 := Format.single.significand_lt j
  omega

/-- The distance from a midpoint, as a difference of whole numbers. -/
theorem value_sub_midpoint (s : Nat) (e : Int) (n : Nat) :
    (value ⟨s, e⟩ - n / 2 ^ 150) * (2 ^ 150 * ones e) = (error (tens e) (ones e) s n : Int) := by
  have hpos : (0 : ℚ) < 2 ^ 150 := by positivity
  simp only [error, value]
  push_cast
  rw [tens_eq]
  field_simp

/--
A decimal of few digits is a midpoint of four-byte numbers, or it is farther from it than
reading may miss the decimal, or it is one of the two close ones.
-/
theorem midpoint_or_far {s : Nat} {e : Int} (hlow : -54 ≤ e) (hhigh : e ≤ 38) (hs : 0 < s)
    (hlt : s < fineFrom) (j : Nat) :
    value ⟨s, e⟩ = Format.single.midpoint j ∨
      miss e * value ⟨s, e⟩ < |value ⟨s, e⟩ - Format.single.midpoint j| ∨ IsClose e s := by
  have hones : (0 : ℚ) < 2 ^ 150 * ones e :=
    mul_pos (by positivity) (Nat.cast_pos.mpr (ones_pos e))
  have hsub := value_sub_midpoint s e
    ((2 * Format.single.significand j + 1) * 2 ^ Format.single.doublings j)
  rw [← midpoint_eq] at hsub
  rcases error_eq_zero_or_isFar (t := Format.single.doublings j) hlow hhigh hs hlt
    (significand_midpoint_lt j) with hzero | hfar | hclose
  · left
    rw [hzero, Int.cast_zero] at hsub
    exact sub_eq_zero.mp ((mul_eq_zero.mp hsub).resolve_right hones.ne')
  · right
    left
    have hfar : (missParts e : ℚ) * (s * tens e) < 2 ^ 62 *
        |((error (tens e) (ones e) s ((2 * Format.single.significand j + 1) *
          2 ^ Format.single.doublings j) : Int) : ℚ)| := by
      rw [← Int.cast_abs, Int.abs_eq_natAbs, Int.cast_natCast]
      exact_mod_cast hfar
    rw [← hsub, abs_mul, abs_of_pos hones, tens_eq] at hfar
    refine lt_of_mul_lt_mul_right ?_ hones.le
    refine lt_of_mul_lt_mul_left ?_ (show (0 : ℚ) ≤ 2 ^ 62 by positivity)
    calc (2 : ℚ) ^ 62 * (miss e * value ⟨s, e⟩ * (2 ^ 150 * ones e))
        = missParts e * (s * (10 ^ e * 2 ^ 150 * ones e)) := by
          rw [miss, value]
          field_simp
      _ < 2 ^ 62 * (|value ⟨s, e⟩ - Format.single.midpoint j| * (2 ^ 150 * ones e)) := hfar
  · exact .inr (.inr hclose)

end RegionPooling.Decimal
