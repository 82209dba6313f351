import RegionPooling.Binary.Rounding

/-!
# Binary numbers

`Binary f` is the set of values of a format: one not-a-number, and for each sign the values
at the indices up to infinity. Zero has two signs. Payloads of not-a-number are not kept.

Equality of the type tells the two zeros apart and identifies all not-a-numbers, so it is
the equality of bit patterns. The comparisons of numbers are `lt`, `le` and `numEq`: both
zeros count as one value there, and not-a-number compares false with everything.
-/

namespace RegionPooling

-- The powers of the natural numbers themselves, whatever else is in scope.
attribute [local instance (2000)] instPowNat

/-- A number of the format `f`. -/
inductive Binary (f : Format) where
  /-- Not a number. -/
  | nan
  /-- The number with this sign at this index. -/
  | number (negative : Bool) (index : Nat) (index_le : index ≤ f.infinityIndex)
  deriving DecidableEq

/-- Four-byte numbers, the element type of tensors. -/
abbrev Single := Binary .single

/-- Eight-byte numbers, the type of numbers in a document. -/
abbrev Double := Binary .double

namespace Binary

variable {f : Format}

/-- Zero of either sign. -/
def zero (negative : Bool) : Binary f := number negative 0 (Nat.zero_le _)

/-- Infinity of either sign. -/
def infinity (negative : Bool) : Binary f := number negative f.infinityIndex (Nat.le_refl _)

/-- The nearest number to `num / den` units, with a sign. -/
@[specialize f]
def ofUnits (negative : Bool) (num den : Nat) : Binary f :=
  number negative (f.nearestIndex num den) (f.nearestIndex_le num den)

/-- The nearest number to `num * 2 ^ up / 2 ^ down` units, with a sign. -/
@[specialize f]
def ofScaled (negative : Bool) (num up down : Nat) : Binary f :=
  number negative (f.nearestScaled num up down) (f.nearestScaled_le num up down)

theorem ofScaled_eq (negative : Bool) (num up down : Nat) :
    ofScaled (f := f) negative num up down = ofUnits negative (num * 2 ^ up) (2 ^ down) := by
  simp [ofScaled, ofUnits, Format.nearestScaled_eq]

theorem ofUnits_zero (negative : Bool) (den : Nat) :
    ofUnits (f := f) negative 0 den = zero negative := by
  simp [ofUnits, zero, Format.nearestIndex, Format.divToEven_zero]

instance : Inhabited (Binary f) := ⟨zero false⟩

/-! ## Bit patterns -/

/-- The bit that holds the sign, as a weight. -/
def signWeight (f : Format) : Nat := 2 ^ (f.fractionBits + f.exponentBits)

/-- Reads a bit pattern; every pattern past infinity is not a number. -/
def ofBits (bits : Nat) : Binary f :=
  let index := bits % signWeight f
  if h : index ≤ f.infinityIndex then number (bits / signWeight f % 2 == 1) index h else nan

/-- The bit pattern, or nothing for not-a-number, which has many. -/
def bits? : Binary f → Option Nat
  | nan => none
  | number negative index _ => some ((if negative then signWeight f else 0) + index)

/-! ## Classes -/

def isNaN : Binary f → Bool
  | nan => true
  | number .. => false

/-- Neither infinite nor not-a-number. -/
def isFinite : Binary f → Bool
  | nan => false
  | number _ index _ => decide (index < f.infinityIndex)

/-! ## Order -/

/--
The place of a number in the order: the index with its sign. The two zeros share a place,
and not-a-number has none.
-/
def place : Binary f → Option Int
  | nan => none
  | number negative index _ => some (if negative then -(index : Int) else index)

/-- Tests two places, and is false as soon as one is missing. -/
def compareWith (test : Int → Int → Bool) (a b : Binary f) : Bool :=
  match a.place, b.place with
  | some x, some y => test x y
  | _, _ => false

def lt (a b : Binary f) : Bool := compareWith (fun x y => decide (x < y)) a b

def le (a b : Binary f) : Bool := compareWith (fun x y => decide (x ≤ y)) a b

/-- Equality of numbers: the zeros are equal, not-a-number equals nothing. -/
def numEq (a b : Binary f) : Bool := compareWith (fun x y => decide (x = y)) a b

instance : LT (Binary f) := ⟨fun a b => lt a b = true⟩

instance : LE (Binary f) := ⟨fun a b => le a b = true⟩

instance (a b : Binary f) : Decidable (a < b) := inferInstanceAs (Decidable (lt a b = true))

instance (a b : Binary f) : Decidable (a ≤ b) := inferInstanceAs (Decidable (le a b = true))

/-- The larger operand; not-a-number gives way, and of two equals the first stays. -/
def max (a b : Binary f) : Binary f :=
  if a.isNaN then b else if a < b then b else a

/-- The smaller operand; not-a-number gives way, and of two equals the first stays. -/
def min (a b : Binary f) : Binary f :=
  if a.isNaN then b else if b < a then b else a

end Binary

end RegionPooling
