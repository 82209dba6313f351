import Mathlib.Algebra.Ring.Nat
import RegionPooling.Decimal.Layout

/-!
# Digits without zeros at the end

A number is written with the digits that are left when the zeros at the end are gone. These
are the digits of a number again: of the significand divided by a power of ten.

Main results:

* `Decimal.exists_toDigits` — what is left of the digits of a number.
* `Decimal.head?_toDigits_ne` — digits do not begin with a zero.
-/

namespace RegionPooling.Decimal

/-- The digits of a number that is not zero do not begin with a zero. -/
theorem head?_toDigits_ne {n : Nat} (h : 0 < n) : (Nat.toDigits 10 n).head? ≠ some '0' := by
  -- The first digit is also that of a tenth of the number, down to a single digit.
  induction n using Nat.strongRecOn with
  | _ n ih =>
    rcases Nat.lt_or_ge n 10 with hlt | hge
    · rw [Nat.toDigits_of_lt_base hlt, List.head?_cons]
      intro hzero
      exact Nat.ne_of_gt h (Nat.digitChar_eq_zero.mp (Option.some.inj hzero))
    · have htenth : 0 < n / 10 := Nat.div_pos hge (by decide)
      obtain ⟨c, digits, hdigits⟩ :=
        List.exists_cons_of_length_pos (Nat.length_toDigits_pos (b := 10) (n := n / 10))
      have hfirst := ih (n / 10) (by omega) htenth
      rw [Nat.toDigits_of_base_le (by decide) hge, hdigits]
      rw [hdigits] at hfirst
      exact hfirst

theorem dropEndWhile_concat_of_pos {p : Char → Bool} {c : Char} (h : p c = true)
    (text : List Char) : Text.dropEndWhile p (text ++ [c]) = Text.dropEndWhile p text := by
  rw [Text.dropEndWhile, List.reverse_append, List.reverse_singleton, List.singleton_append,
    List.dropWhile_cons_of_pos h, Text.dropEndWhile]

theorem dropEndWhile_concat_of_neg {p : Char → Bool} {c : Char} (h : ¬ p c = true)
    (text : List Char) : Text.dropEndWhile p (text ++ [c]) = text ++ [c] := by
  rw [Text.dropEndWhile, List.reverse_append, List.reverse_singleton, List.singleton_append,
    List.dropWhile_cons_of_neg h, List.reverse_cons, List.reverse_reverse]

/-- The last digit of a number and those before it. -/
theorem exists_toDigits_eq (n : Nat) :
    ∃ front, Nat.toDigits 10 n = front ++ [Nat.digitChar (n % 10)] := by
  rcases Nat.lt_or_ge n 10 with hlt | hge
  · exact ⟨[], by rw [Nat.toDigits_of_lt_base hlt, Nat.mod_eq_of_lt hlt, List.nil_append]⟩
  · exact ⟨_, Nat.toDigits_of_base_le (by decide) hge⟩

/--
Without the zeros at their end the digits of a number are those of a smaller number, which is
multiplied by ten for each of the zeros.
-/
theorem exists_toDigits {n : Nat} (h : 0 < n) :
    ∃ s t, 0 < s ∧ n = s * 10 ^ t ∧
      (Nat.toDigits 10 n).length = (Nat.toDigits 10 s).length + t ∧
      Text.dropEndWhile (· == '0') (Nat.toDigits 10 n) = Nat.toDigits 10 s := by
  -- One zero at the end is taken away in each step.
  induction n using Nat.strongRecOn with
  | _ n ih =>
    by_cases hmod : n % 10 = 0
    · have hge : 10 ≤ n := by omega
      obtain ⟨s, t, hs, hn, hlength, hdrop⟩ := ih (n / 10) (by omega) (by omega)
      have hdigits : Nat.toDigits 10 n = Nat.toDigits 10 (n / 10) ++ ['0'] := by
        rw [Nat.toDigits_of_base_le (by decide) hge, hmod]
        rfl
      refine ⟨s, t + 1, hs, ?_, ?_, ?_⟩
      · rw [Nat.pow_succ, ← Nat.mul_assoc, ← hn]
        omega
      · rw [hdigits, List.length_append, List.length_singleton, hlength, Nat.add_assoc]
      · rw [hdigits, dropEndWhile_concat_of_pos rfl, hdrop]
    · obtain ⟨front, hdigits⟩ := exists_toDigits_eq n
      have hlast : ¬ (Nat.digitChar (n % 10) == '0') = true := by
        rw [beq_iff_eq, Nat.digitChar_eq_zero]
        exact hmod
      refine ⟨n, 0, h, (Nat.mul_one n).symm, rfl, ?_⟩
      rw [hdigits]
      exact dropEndWhile_concat_of_neg (p := (· == '0')) hlast front

end RegionPooling.Decimal
