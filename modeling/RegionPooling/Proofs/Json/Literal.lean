import RegionPooling.Proofs.Decimal.Digits
import RegionPooling.Proofs.Decimal.Reading
import RegionPooling.Proofs.Json.Numeral

/-!
# Numbers of a document

Whatever the layout, the text of a four-byte number is a numeral, and the numeral denotes the
shortest decimal: the point and the zeros around the digits only move a power of ten between the
significand and the exponent. Whole numbers are the exception, as they get one more zero after the
point. Both decimals are read back as the number that was written.

Main results:

* `Single.exists_numeral` — the numeral of a finite number, which is read as this number.
* `Numeral.ofInt_value?` — a whole number is read as itself.
-/

namespace RegionPooling

/-! ## What a numeral says -/

namespace Numeral

/-- The numeral has a fraction or an exponent, and its digits say this decimal. -/
structure Denotes (n : Numeral) (d : Decimal) : Prop where
  wellFormed : n.WellFormed
  marked : n.fraction ≠ none ∨ n.exponent ≠ none
  significand : Nat.ofDigitChars 10 n.digits 0 = d.significand
  exponent : n.exponent.getD 0 - (n.fraction.getD []).length = d.exponent

theorem Denotes.value?_eq {n : Numeral} {d : Decimal} (h : n.Denotes d)
    (hlimit : d.significand ≤ significandLimit) :
    n.value? = (scale (Binary.ofNat d.significand) d.exponent).map fun x =>
      .real (if n.negative then x.neg else x) := by
  rw [value?_eq_scale h.marked (h.significand ▸ hlimit), h.significand, h.exponent]

/-- A numeral with a fraction. -/
theorem denotes_fraction {whole digits : List Char} {exponent : Option Int} {s : Nat} {e : Int}
    (negative : Bool) (hwhole : whole ≠ [] ∧ ∀ c ∈ whole, c.isDigit = true)
    (hzero : whole.head? = some '0' → whole.length ≤ 1)
    (hdigits : digits ≠ [] ∧ ∀ c ∈ digits, c.isDigit = true)
    (hs : Nat.ofDigitChars 10 (whole ++ digits) 0 = s) (he : exponent.getD 0 - digits.length = e) :
    Denotes ⟨negative, whole, some digits, exponent⟩ ⟨s, e⟩ where
  wellFormed := {
    whole_ne_nil := hwhole.1
    whole_digits := hwhole.2
    no_leading_zero := hzero
    fraction_ne_nil := fun _ h => Option.some.inj h ▸ hdigits.1
    fraction_digits := fun _ h => Option.some.inj h ▸ hdigits.2 }
  marked := Or.inl nofun
  significand := hs
  exponent := he

/-- Digits of a number that is not zero, without a zero in front. -/
structure Digits (digits : List Char) (n : Nat) : Prop where
  ne_nil : digits ≠ []
  isDigit : ∀ c ∈ digits, c.isDigit = true
  head_ne : digits.head? ≠ some '0'
  value : Nat.ofDigitChars 10 digits 0 = n

theorem isDigit_toDigits (n : Nat) : ∀ c ∈ Nat.toDigits 10 n, c.isDigit = true := fun _ hc =>
  Nat.isDigit_of_mem_toDigits (by decide) (by decide) hc

theorem toDigits_ne_nil (n : Nat) : Nat.toDigits 10 n ≠ [] :=
  List.length_pos_iff.mp Nat.length_toDigits_pos

theorem digits_toDigits {n : Nat} (h : 0 < n) : Digits (Nat.toDigits 10 n) n where
  ne_nil := toDigits_ne_nil n
  isDigit := isDigit_toDigits n
  head_ne := Decimal.head?_toDigits_ne h
  value := Nat.ofDigitChars_ten_toDigits

theorem isDigit_zeros (n : Nat) : ∀ c ∈ Layout.zeros n, c.isDigit = true := by
  intro c hc
  rw [List.eq_of_mem_replicate hc]
  rfl

/-! ## Whole numbers -/

/-- The numeral of a whole number. -/
def ofInt (n : Int) : Numeral :=
  { negative := decide (n < 0), whole := Nat.toDigits 10 n.natAbs, fraction := none,
    exponent := none }

theorem ofInt_wellFormed (n : Int) : (ofInt n).WellFormed where
  whole_ne_nil := toDigits_ne_nil _
  whole_digits := isDigit_toDigits _
  no_leading_zero := by
    intro hhead
    rcases Nat.eq_zero_or_pos n.natAbs with hzero | hpos
    · simp only [ofInt, hzero]
      exact Nat.le_refl 1
    · exact absurd hhead (Decimal.head?_toDigits_ne hpos)
  fraction_ne_nil := nofun
  fraction_digits := nofun

theorem ofInt_write (n : Int) : (ofInt n).write = Layout.writeInt n := by
  simp only [write, ofInt, writeUnsigned, writeFraction, writeExponent, List.append_nil,
    Layout.sign, Layout.writeInt, decide_eq_true_eq]
  split
  · rfl
  · rfl

/-- A whole number that fits a machine word is read as itself. -/
theorem ofInt_value? {n : Int} (hlower : -0x8000000000000000 ≤ n) (hupper : n < 0x10000000000000000) :
    (ofInt n).value? = some (.whole n) := by
  have hlimit : Nat.ofDigitChars 10 (ofInt n).whole 0 ≤ significandLimit := by
    rw [ofInt, Nat.ofDigitChars_ten_toDigits, significandLimit]
    omega
  rw [value?_whole rfl rfl hlimit, ofInt, Nat.ofDigitChars_ten_toDigits, wholeNumber]
  by_cases hneg : n < 0
  · rw [if_neg (by simp [hneg]), if_pos (by omega)]
    congr 2
    omega
  · rw [if_pos (by simp [hneg])]
    congr 2
    omega

end Numeral

/-! ## Layouts -/

namespace Layout

variable {d : Decimal} {digits : List Char} {exponent lowest highest : Int}

/-- Without the zeros at the end the digits are those of a decimal of the same value. -/
theorem exists_digitsAndExponent (h : 0 < d.significand) :
    ∃ s t, 0 < s ∧ d.significand = s * 10 ^ t ∧
      digitsAndExponent ⟨s, d.exponent + (t : Nat)⟩ =
        (Text.dropEndWhile (· == '0') (digitsAndExponent d).1, (digitsAndExponent d).2) := by
  obtain ⟨s, t, hs, hsignificand, hlength, hdrop⟩ := Decimal.exists_toDigits h
  refine ⟨s, t, hs, hsignificand, ?_⟩
  have hpos : 0 < (Nat.toDigits 10 s).length := Nat.length_toDigits_pos
  simp only [digitsAndExponent, hdrop, hlength]
  congr 1
  omega

/-- All digits after the point, with zeros before them. -/
theorem exists_numeral_below (negative : Bool) {s : Nat} (h : Numeral.Digits digits s)
    (hlow : exponent < 0) :
    ∃ n : Numeral, n.negative = negative ∧ n.Denotes ⟨s, exponent + 1 - digits.length⟩ ∧
      (json lowest highest).writePositional digits exponent = n.writeUnsigned := by
  refine ⟨⟨negative, ['0'], some (zeros ((-exponent).toNat - 1) ++ digits), none⟩, rfl,
    Numeral.denotes_fraction negative ?_ ?_ ?_ ?_ ?_, ?_⟩
  · exact ⟨List.cons_ne_nil _ _, List.forall_mem_singleton.mpr rfl⟩
  · exact fun _ => Nat.le_refl 1
  · exact ⟨List.append_ne_nil_of_right_ne_nil _ h.ne_nil,
      List.forall_mem_append.mpr ⟨Numeral.isDigit_zeros _, h.isDigit⟩⟩
  · rw [Nat.ofDigitChars_append, Nat.ofDigitChars_append, zeros, Nat.ofDigitChars_replicate_zero]
    exact h.value
  · rw [Option.getD_none, List.length_append, zeros, List.length_replicate]
    omega
  · rw [writePositional, if_pos hlow]
    simp [Numeral.writeUnsigned, Numeral.writeFraction, Numeral.writeExponent]

/-- All digits before the point, with zeros after them and one more after the point. -/
theorem exists_numeral_whole (negative : Bool) {s : Nat} (h : Numeral.Digits digits s)
    (hlow : 0 ≤ exponent) (hwhole : digits.length ≤ exponent.toNat + 1) :
    ∃ n : Numeral, n.negative = negative ∧
      n.Denotes ⟨s * 10 ^ (exponent.toNat + 1 - digits.length) * 10, -1⟩ ∧
      (json lowest highest).writePositional digits exponent = n.writeUnsigned := by
  refine ⟨⟨negative, digits ++ zeros (exponent.toNat + 1 - digits.length), some ['0'], none⟩, rfl,
    Numeral.denotes_fraction negative ?_ ?_ ?_ ?_ rfl, ?_⟩
  · exact ⟨List.append_ne_nil_of_left_ne_nil h.ne_nil _,
      List.forall_mem_append.mpr ⟨h.isDigit, Numeral.isDigit_zeros _⟩⟩
  · intro hhead
    obtain ⟨c, rest, rfl⟩ := List.exists_cons_of_ne_nil h.ne_nil
    exact absurd hhead h.head_ne
  · exact ⟨List.cons_ne_nil _ _, List.forall_mem_singleton.mpr rfl⟩
  · rw [Nat.ofDigitChars_append, Nat.ofDigitChars_append, zeros, Nat.ofDigitChars_replicate_zero,
      h.value]
    exact (Nat.mul_comm _ _).trans (congrArg (· * 10) (Nat.mul_comm _ _))
  · rw [writePositional, if_neg (by omega)]
    simp only [hwhole, if_true]
    simp [Numeral.writeUnsigned, Numeral.writeFraction, Numeral.writeExponent, json]

/-- The point between two digits. -/
theorem exists_numeral_between (negative : Bool) {s : Nat} (h : Numeral.Digits digits s)
    (hlow : 0 ≤ exponent) (hwhole : ¬ digits.length ≤ exponent.toNat + 1) :
    ∃ n : Numeral, n.negative = negative ∧ n.Denotes ⟨s, exponent + 1 - digits.length⟩ ∧
      (json lowest highest).writePositional digits exponent = n.writeUnsigned := by
  refine ⟨⟨negative, digits.take (exponent.toNat + 1), some (digits.drop (exponent.toNat + 1)),
    none⟩, rfl, Numeral.denotes_fraction negative ⟨?_, ?_⟩ ?_ ⟨?_, ?_⟩ ?_ ?_, ?_⟩
  · intro hnil
    have := congrArg List.length hnil
    rw [List.length_take, List.length_nil] at this
    omega
  · exact fun c hc => h.isDigit c (List.mem_of_mem_take hc)
  · intro hhead
    rw [List.head?_take, if_neg (Nat.succ_ne_zero _)] at hhead
    exact absurd hhead h.head_ne
  · intro hnil
    have := congrArg List.length hnil
    rw [List.length_drop, List.length_nil] at this
    omega
  · exact fun c hc => h.isDigit c (List.mem_of_mem_drop hc)
  · rw [List.take_append_drop, h.value]
  · rw [Option.getD_none, List.length_drop]
    omega
  · rw [writePositional, if_neg (by omega)]
    simp only [hwhole, if_false]
    simp [Numeral.writeUnsigned, Numeral.writeFraction, Numeral.writeExponent]

/-- The point after the first digit, if another one follows, and the exponent. -/
theorem exists_numeral_scientific (negative : Bool) {s : Nat} (h : Numeral.Digits digits s) :
    ∃ n : Numeral, n.negative = negative ∧ n.Denotes ⟨s, exponent + 1 - digits.length⟩ ∧
      (json lowest highest).writeScientific digits exponent = n.writeUnsigned := by
  obtain ⟨c, rest, rfl⟩ := List.exists_cons_of_ne_nil h.ne_nil
  have hdigit : ∀ c' ∈ [c], c'.isDigit = true :=
    List.forall_mem_singleton.mpr (h.isDigit c List.mem_cons_self)
  have htext : (json lowest highest).writeScientific (c :: rest) exponent =
      [c] ++ (if rest = [] then [] else '.' :: rest) ++ Numeral.writeExponent (some exponent) := by
    cases rest with
    | nil => simp [writeScientific, Numeral.writeExponent, json]
    | cons _ _ => simp [writeScientific, Numeral.writeExponent, json]
  rw [htext]
  cases rest with
  | nil =>
    refine ⟨⟨negative, [c], none, some exponent⟩, rfl, ⟨⟨List.cons_ne_nil _ _, hdigit,
      fun _ => Nat.le_refl 1, ?_, ?_⟩, Or.inr (Option.some_ne_none _), h.value, ?_⟩, rfl⟩
    · rintro _ ⟨⟩
    · rintro _ ⟨⟩
    · exact (Int.sub_zero _).trans (Int.add_sub_cancel _ _).symm
  | cons next rest =>
    refine ⟨⟨negative, [c], some (next :: rest), some exponent⟩, rfl,
      Numeral.denotes_fraction negative ⟨List.cons_ne_nil _ _, hdigit⟩ (fun _ => Nat.le_refl 1)
        ⟨List.cons_ne_nil _ _, fun c hc => h.isDigit c (List.mem_cons_of_mem _ hc)⟩ h.value ?_, rfl⟩
    rw [Option.getD_some, List.length_cons, List.length_cons, List.length_cons]
    omega

/--
The text of a decimal without zeros at its end denotes this decimal, or ten times as much in
tenths if it is a whole number, which then has no more digits than are written in full.
-/
theorem exists_numeral (lowest : Int) (negative : Bool) {s places : Nat} {e : Int} (hs : 0 < s)
    (hhighest : highest < places) (h : digitsAndExponent ⟨s, e⟩ = (digits, exponent)) :
    ∃ n : Numeral, n.negative = negative ∧
      (n.Denotes ⟨s, e⟩ ∨
        ∃ k : Nat, e = k ∧ s * 10 ^ k < 10 ^ places ∧ n.Denotes ⟨s * 10 ^ k * 10, -1⟩) ∧
      (if (json lowest highest).positional exponent then
        (json lowest highest).writePositional digits exponent
      else (json lowest highest).writeScientific digits exponent) = n.writeUnsigned := by
  obtain ⟨rfl, rfl⟩ := Prod.mk.inj h
  -- One case for each layout; all but the second one keep the significand.
  have hdigits := Numeral.digits_toDigits hs
  have hpos : 0 < (Nat.toDigits 10 s).length := Nat.length_toDigits_pos
  have hbound := (Decimal.toDigits_bounds hs).2
  have he : e = e + ((Nat.toDigits 10 s).length - 1 : Nat) + 1 - (Nat.toDigits 10 s).length := by
    omega
  generalize hexponent : e + (((Nat.toDigits 10 s).length - 1 : Nat) : Int) = exponent at *
  by_cases hpositional : (json lowest highest).positional exponent = true
  · have hhigh : exponent ≤ highest := by
      simp only [json, Bool.and_eq_true, decide_eq_true_eq] at hpositional
      exact hpositional.2
    rw [if_pos hpositional]
    rcases lt_or_ge exponent 0 with hlow | hlow
    · obtain ⟨n, hnegative, hdenotes, htext⟩ := exists_numeral_below negative hdigits hlow
      exact ⟨n, hnegative, Or.inl (he ▸ hdenotes), htext⟩
    · by_cases hwhole : (Nat.toDigits 10 s).length ≤ exponent.toNat + 1
      · obtain ⟨n, hnegative, hdenotes, htext⟩ := exists_numeral_whole negative hdigits hlow hwhole
        refine ⟨n, hnegative, Or.inr ⟨_, ?_, ?_, hdenotes⟩, htext⟩
        · omega
        · calc s * 10 ^ (exponent.toNat + 1 - (Nat.toDigits 10 s).length)
              < 10 ^ (Nat.toDigits 10 s).length *
                  10 ^ (exponent.toNat + 1 - (Nat.toDigits 10 s).length) :=
                Nat.mul_lt_mul_of_pos_right hbound (Nat.pow_pos (by decide))
            _ = 10 ^ (exponent.toNat + 1) := by
                rw [← Nat.pow_add, Nat.add_sub_cancel' hwhole]
            _ ≤ 10 ^ places := Nat.pow_le_pow_right (by decide) (by omega)
      · obtain ⟨n, hnegative, hdenotes, htext⟩ :=
          exists_numeral_between negative hdigits hlow hwhole
        exact ⟨n, hnegative, Or.inl (he ▸ hdenotes), htext⟩
  · rw [if_neg hpositional]
    obtain ⟨n, hnegative, hdenotes, htext⟩ := exists_numeral_scientific negative hdigits
    exact ⟨n, hnegative, Or.inl (he ▸ hdenotes), htext⟩

/-- Zero is written with one zero on each side of the point. -/
theorem exists_numeral_zero (f : Format) (negative : Bool) (hlowest : lowest ≤ 0)
    (hhighest : 0 ≤ highest) :
    ∃ n : Numeral, n.negative = negative ∧ n.Denotes ⟨0, -1⟩ ∧
      (json lowest highest).writeMagnitude f 0 = n.writeUnsigned := by
  have hzero : ['0'] ≠ [] ∧ ∀ c ∈ ['0'], c.isDigit = true :=
    ⟨List.cons_ne_nil _ _, List.forall_mem_singleton.mpr rfl⟩
  refine ⟨⟨negative, ['0'], some ['0'], none⟩, rfl,
    Numeral.denotes_fraction negative hzero (fun _ => Nat.le_refl 1) hzero rfl rfl, ?_⟩
  have hpositional : (json lowest highest).positional 0 = true := by
    simp [json, hlowest, hhighest]
  unfold writeMagnitude
  rw [if_pos rfl]
  dsimp only
  rw [if_pos hpositional]
  simp [writePositional, Numeral.writeUnsigned, Numeral.writeFraction, Numeral.writeExponent, json,
    zeros]

/-- Any other number is written with the digits of its shortest decimal. -/
theorem exists_numeral_shortest (f : Format) (lowest : Int) (negative : Bool) {places : Nat}
    (hhighest : highest < places) (i : Nat) :
    ∃ (n : Numeral) (s t : Nat), n.negative = negative ∧ 0 < s ∧
      (f.shortestDecimal .toEven (i + 1)).significand = s * 10 ^ t ∧
      (n.Denotes ⟨s, (f.shortestDecimal .toEven (i + 1)).exponent + t⟩ ∨
        ∃ k : Nat, (f.shortestDecimal .toEven (i + 1)).exponent + t = k ∧
          s * 10 ^ k < 10 ^ places ∧ n.Denotes ⟨s * 10 ^ k * 10, -1⟩) ∧
      (json lowest highest).writeMagnitude f (i + 1) = n.writeUnsigned := by
  have hpos := f.shortestDecimal_significand_pos .toEven i
  obtain ⟨s, t, hs, hsignificand, htrimmed⟩ := exists_digitsAndExponent hpos
  obtain ⟨n, hnegative, hdenotes, htext⟩ := exists_numeral lowest negative hs hhighest htrimmed
  exact ⟨n, s, t, hnegative, hs, hsignificand, hdenotes, htext ▸ rfl⟩

/-- Whatever the format, a finite number is written as a numeral. -/
theorem exists_numeral_render {f : Format} (hlowest : lowest ≤ 0) (hhighest : 0 ≤ highest)
    {x : Binary f} (h : x.isFinite = true) :
    ∃ n : Numeral, n.WellFormed ∧ ((json lowest highest).render x).toList = n.write := by
  obtain ⟨negative, i, hi, rfl, hne⟩ := Binary.exists_eq_number h
  obtain ⟨n, rfl, ⟨d, hdenotes⟩, htext⟩ : ∃ n : Numeral, n.negative = negative ∧
      (∃ d, n.Denotes d) ∧ (json lowest highest).writeMagnitude f i = n.writeUnsigned := by
    cases i with
    | zero =>
      obtain ⟨n, hnegative, hdenotes, htext⟩ := exists_numeral_zero f negative hlowest hhighest
      exact ⟨n, hnegative, ⟨_, hdenotes⟩, htext⟩
    | succ i =>
      have hplaces : highest < ((highest.toNat + 1 : Nat) : Int) := by omega
      obtain ⟨n, s, t, hnegative, -, -, hdenotes, htext⟩ :=
        exists_numeral_shortest f lowest negative hplaces i
      refine ⟨n, hnegative, ?_, htext⟩
      rcases hdenotes with hdenotes | ⟨k, -, -, hdenotes⟩
      · exact ⟨_, hdenotes⟩
      · exact ⟨_, hdenotes⟩
  refine ⟨n, hdenotes.wellFormed, ?_⟩
  rw [render, if_neg hne, String.toList_ofList, htext, Numeral.write]

/-- What is not finite has no numeral. -/
theorem render_of_not_isFinite {f : Format} (lowest highest : Int) {x : Binary f}
    (h : ¬ x.isFinite = true) : (json lowest highest).render x = "null" := by
  cases x with
  | nan => rfl
  | number negative i hi =>
    have hinfinite : i = f.infinityIndex := by
      have : ¬ i < f.infinityIndex := fun hlt => h (decide_eq_true hlt)
      omega
    exact if_pos hinfinite

end Layout

/-! ## Finite numbers -/

/-- The sign goes unchanged through a conversion. -/
theorem Binary.convert_neg {f g : Format} (x : Binary f) :
    (x.neg.convert : Binary g) = x.convert.neg := by
  cases x with
  | nan => rfl
  | number s i h =>
    unfold Binary.neg Binary.convert
    dsimp only
    split
    · rfl
    · rfl

/-- The decimal of the numeral fits a machine word and is read as the magnitude at an index. -/
def Numeral.StandsFor (n : Numeral) (i : Nat) : Prop :=
  ∃ d, n.Denotes d ∧ d.significand ≤ significandLimit ∧
    ∃ y, scale (Binary.ofNat d.significand) d.exponent = some y ∧
      ∃ h, (y.convert : Single) = .number false i h

/-- With its sign the numeral is read as the number at this index. -/
theorem Numeral.StandsFor.value?_eq {n : Numeral} {i : Nat} (h : n.StandsFor i) :
    ∃ y, n.value? = some (.real y) ∧ ∃ h, (y.convert : Single) = .number n.negative i h := by
  obtain ⟨d, hdenotes, hlimit, y, hscale, hi, hconvert⟩ := h
  refine ⟨if n.negative then y.neg else y, ?_, hi, ?_⟩
  · rw [hdenotes.value?_eq hlimit, hscale]
    rfl
  · cases n.negative with
    | false => exact hconvert
    | true =>
      show (y.neg.convert : Single) = _
      rw [Binary.convert_neg, hconvert]
      rfl

namespace Single

/-- Zero divided by a power of ten is zero. -/
theorem zero_reads_back : ∃ y, Numeral.scale (Binary.ofNat 0) (-1) = some y ∧
    ∃ h, (y.convert : Single) = .number false 0 h := by
  refine ⟨.zero false, ?_, Nat.zero_le _, ?_⟩
  · unfold Numeral.scale
    decide +kernel
  · decide +kernel

/-- The text of a magnitude is a numeral that stands for it. -/
theorem exists_numeral_magnitude (negative : Bool) {i : Nat}
    (hi : i < Format.single.infinityIndex) :
    ∃ n : Numeral, n.negative = negative ∧ n.StandsFor i ∧
      Layout.jsonSingle.writeMagnitude .single i = n.writeUnsigned := by
  cases i with
  | zero =>
    obtain ⟨n, hnegative, hdenotes, htext⟩ := Layout.exists_numeral_zero .single negative
      (show (-6 : Int) ≤ 0 by decide) (show (0 : Int) ≤ 12 by decide)
    exact ⟨n, hnegative, ⟨_, hdenotes, Nat.zero_le _, zero_reads_back⟩, htext⟩
  | succ i =>
    have hnine := (shortestDecimal_spec .toEven hi).2.1
    obtain ⟨n, s, t, hnegative, hs, hsignificand, hdenotes, htext⟩ :=
      Layout.exists_numeral_shortest .single (-6) negative
        (show (12 : Int) < (13 : Nat) by decide) i
    refine ⟨n, hnegative, ?_, htext⟩
    rcases hdenotes with hdenotes | ⟨k, hk, hlt, hdenotes⟩
    · -- The digits without the zeros at the end, which are fewer than ten.
      have hle : s * 1 ≤ s * 10 ^ t := Nat.mul_le_mul_left _ (Nat.pow_pos (by decide))
      have hlimit : s ≤ 0xFFFFFFFFFFFFFFFF := by omega
      exact ⟨_, hdenotes, hlimit, Decimal.shortest_reads_back .toEven hi hsignificand rfl⟩
    · -- A whole number in tenths.
      have hlimit : s * 10 ^ k * 10 ≤ 0xFFFFFFFFFFFFFFFF := by omega
      refine ⟨_, hdenotes, hlimit, Decimal.whole_reads_back .toEven hi (by omega) ?_⟩
      rw [Decimal.value_eq_of_significand hsignificand, hk, Decimal.value_natCast]
      push_cast
      rfl

/-- A finite number is written as a numeral, which is read as this number. -/
theorem exists_numeral {x : Single} (h : x.isFinite = true) :
    ∃ n : Numeral, n.WellFormed ∧ (Layout.jsonSingle.render x).toList = n.write ∧
      ∃ y, n.value? = some (.real y) ∧ (y.convert : Single) = x := by
  obtain ⟨negative, i, hi, rfl, hne⟩ := Binary.exists_eq_number h
  obtain ⟨n, rfl, hstands, htext⟩ := exists_numeral_magnitude negative (lt_of_le_of_ne hi hne)
  obtain ⟨y, hvalue, hindex, hconvert⟩ := hstands.value?_eq
  obtain ⟨d, hdenotes, -⟩ := hstands
  refine ⟨n, hdenotes.wellFormed, ?_, y, hvalue, hconvert⟩
  rw [Layout.render, if_neg hne, String.toList_ofList, htext, Numeral.write]

end Single

end RegionPooling
