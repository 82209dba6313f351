import RegionPooling.Proofs.Pooling.Tiling

/-!
# Walks come to an end

Positions may be asked for one after another, as often as one likes: each is the last one and a
step, unless that does not lead up or is not below the end (`request`). Nothing counts the requests.
What ends them is that each position is above the last one, and that only so many numbers lie
between the first one and the end: at some point nothing is given any more. Until then, what is
given are the elements of the walk, in order.

This holds of any three numbers, also of infinite ones, of steps that are zero or lead down, and of
what is not a number at all.

Main results:

* `request_eq_getElem?` — the requests are answered by the elements of the walk, and then no more.
* `length_walkFrom_le` — a walk is no longer than the numbers from its beginning to its end.
* `walk_terminates` — both, and what the positions are: there is one list that they can be.
-/

namespace RegionPooling

/-! ## One request after another -/

/-- The position behind another one, if it is above it. -/
def advance? (step position : Single) : Option Single :=
  if position < position + step then some (position + step) else none

/-- What is given for a request, after so many others: first `position`, and then always the
position behind the last one; nothing, once a position is not below `stop` or none was given. -/
def request (stop step position : Single) : Nat → Option Single
  | 0 => (some position).filter (· < stop)
  | n + 1 => ((request stop step position n).bind (advance? step)).filter (· < stop)

variable {start stop step position p q : Single} {n : Nat}

theorem getElem?_walkFrom_zero (stop step position : Single) :
    (walkFrom stop step position)[0]? = (some position).filter (· < stop) := by
  rw [walkFrom, Option.filter_some]
  by_cases h : position < stop
  · rw [if_pos h, if_pos (decide_eq_true h)]
    rfl
  · rw [if_neg h, if_neg (by simpa using h)]
    rfl

/-- Behind each position of a walk is the one that is got by advancing, or none. -/
theorem getElem?_walkFrom_succ (stop step position : Single) (n : Nat) :
    (walkFrom stop step position)[n + 1]? =
      ((walkFrom stop step position)[n]?.bind (advance? step)).filter (· < stop) := by
  fun_induction walkFrom stop step position generalizing n with
  | case1 position hlt next ih =>
    by_cases hnext : position < next
    · rw [if_pos hnext, List.getElem?_cons_succ]
      cases n with
      | zero =>
        have hadvance : advance? step position = some next := if_pos hnext
        rw [List.getElem?_cons_zero, Option.bind_some, hadvance]
        exact getElem?_walkFrom_zero stop step next
      | succ n =>
        rw [List.getElem?_cons_succ]
        exact ih hnext n
    · -- The last position: nothing is behind it, and nothing behind that.
      rw [if_neg hnext, List.getElem?_cons_succ, List.getElem?_nil]
      cases n with
      | zero =>
        have hadvance : advance? step position = none := if_neg hnext
        rw [List.getElem?_cons_zero, Option.bind_some, hadvance, Option.filter_none]
      | succ n => rw [List.getElem?_cons_succ, List.getElem?_nil, Option.bind_none, Option.filter_none]
  | case2 position hlt =>
    rw [List.getElem?_nil, List.getElem?_nil, Option.bind_none, Option.filter_none]

/-- The requests are answered by the elements of the walk, one by one, and then no more. -/
theorem request_eq_getElem? (stop step position : Single) (n : Nat) :
    request stop step position n = (walkFrom stop step position)[n]? := by
  induction n with
  | zero => exact (getElem?_walkFrom_zero stop step position).symm
  | succ n ih => rw [request, ih, getElem?_walkFrom_succ]

/-! ## How many positions there can be -/

/-- How many numbers lie from `x` on and below `y`, counted by their places in the order. -/
def numbersBetween (x y : Single) : Nat := (y.place.getD 0 - x.place.getD 0).toNat

/-- All the numbers are not more than those of either sign. -/
theorem numbersBetween_le (x y : Single) :
    numbersBetween x y ≤ 2 * Format.single.infinityIndex := by
  have hplace (z : Single) : |z.place.getD 0| ≤ (Format.single.infinityIndex : Int) := by
    cases z with
    | nan => simp [Binary.place]
    | number negative index index_le =>
      cases negative
      · simpa [Binary.place] using index_le
      · simpa [Binary.place] using index_le
  have hx := abs_le.mp (hplace x)
  have hy := abs_le.mp (hplace y)
  unfold numbersBetween
  omega

/-- A number is left out on the way up. -/
theorem numbersBetween_lt_of_lt {x y z : Single} (hxy : x < y) (hyz : y < z) :
    numbersBetween y z < numbersBetween x z := by
  obtain ⟨px, py, hx, hy, hlt⟩ := Binary.place_lt_of_lt hxy
  obtain ⟨py', pz, hy', hz, hlt'⟩ := Binary.place_lt_of_lt hyz
  obtain rfl : py = py' := Option.some.inj (hy.symm.trans hy')
  simp only [numbersBetween, hx, hy, hz, Option.getD_some]
  omega

theorem numbersBetween_pos_of_lt {x y : Single} (h : x < y) : 0 < numbersBetween x y := by
  obtain ⟨px, py, hx, hy, hlt⟩ := Binary.place_lt_of_lt h
  simp only [numbersBetween, hx, hy, Option.getD_some]
  omega

/-- A walk is no longer than the numbers between its beginning and its end. -/
theorem length_walkFrom_le (stop step position : Single) :
    (walkFrom stop step position).length ≤ numbersBetween position stop := by
  fun_induction walkFrom stop step position with
  | case1 position hlt next ih =>
    have hpos := numbersBetween_pos_of_lt hlt
    rw [List.length_cons]
    by_cases hnext : position < next
    · rw [if_pos hnext]
      by_cases hstop : next < stop
      · have hfewer := numbersBetween_lt_of_lt hnext hstop
        have hrest := ih hnext
        omega
      · -- The walk does not go on past its end.
        have hnone : walkFrom stop step next = [] := by rw [walkFrom, if_neg hstop]
        rw [hnone]
        exact hpos
    · rw [if_neg hnext]
      exact hpos
  | case2 position hlt => exact Nat.zero_le _

/-! ## What the positions are -/

/-- The list holds the positions of a walk: all of them, in order, and nothing else. -/
structure IsWalk (start stop step : Single) (positions : List Single) : Prop where
  ascending : positions.Pairwise (· < ·)
  ne_nan : ∀ p ∈ positions, p ≠ .nan
  lt_stop : ∀ p ∈ positions, p < stop
  /-- The first position is half a step in. -/
  head : ∀ p, positions[0]? = some p → p = start + step / Binary.ofNat 2
  /-- There is none only if that is not below the end. -/
  empty : positions[0]? = none ↔ ¬ start + step / Binary.ofNat 2 < stop
  /-- From each position a step leads to the next one. -/
  next : ∀ n p q, positions[n]? = some p → positions[n + 1]? = some q → q = p + step
  /-- There is no next one exactly if the step does not lead up or not below the end. -/
  last : ∀ n p, positions[n]? = some p →
    (positions[n + 1]? = none ↔ ¬ p < p + step ∨ ¬ p + step < stop)

theorem filter_advance?_eq_some_iff :
    (advance? step p).filter (· < stop) = some q ↔
      q = p + step ∧ p < p + step ∧ p + step < stop := by
  unfold advance?
  by_cases h : p < p + step
  · rw [if_pos h]
    constructor
    · intro hq
      obtain ⟨hq, hlt⟩ := Option.filter_eq_some_iff.mp hq
      obtain rfl := Option.some.inj hq
      exact ⟨rfl, h, of_decide_eq_true hlt⟩
    · rintro ⟨rfl, -, hlt⟩
      exact Option.filter_eq_some_iff.mpr ⟨rfl, decide_eq_true hlt⟩
  · simp [h]

theorem filter_advance?_eq_none_iff :
    (advance? step p).filter (· < stop) = none ↔ ¬ p < p + step ∨ ¬ p + step < stop := by
  constructor
  · intro hnone
    by_contra hgoes
    rw [not_or, not_not, not_not] at hgoes
    rw [filter_advance?_eq_some_iff.mpr ⟨rfl, hgoes⟩] at hnone
    cases hnone
  · intro hstops
    by_contra hsome
    obtain ⟨q, hq⟩ := Option.ne_none_iff_exists'.mp hsome
    obtain ⟨-, hnext, hstop⟩ := filter_advance?_eq_some_iff.mp hq
    rcases hstops with h | h
    · exact h hnext
    · exact h hstop

theorem isWalk_walk (start stop step : Single) :
    IsWalk start stop step (walk start stop step) where
  ascending := pairwise_walk start stop step
  ne_nan _ hp := ne_nan_of_mem_walk hp
  lt_stop _ hp := lt_of_mem_walk hp
  head p hp := by
    rw [walk, getElem?_walkFrom_zero] at hp
    exact (Option.some.inj (Option.filter_eq_some_iff.mp hp).1).symm
  empty := by
    rw [walk, getElem?_walkFrom_zero, firstPosition]
    simp
  next n p q hp hq := by
    rw [walk, getElem?_walkFrom_succ, ← walk, hp, Option.bind_some] at hq
    exact (filter_advance?_eq_some_iff.mp hq).1
  last n p hp := by
    rw [walk, getElem?_walkFrom_succ, ← walk, hp, Option.bind_some]
    exact filter_advance?_eq_none_iff

/-- The first position and the rule for the next one leave no choice. -/
theorem IsWalk.unique {xs ys : List Single} (hx : IsWalk start stop step xs)
    (hy : IsWalk start stop step ys) : xs = ys := by
  refine List.ext_getElem? fun n => ?_
  induction n with
  | zero =>
    cases hxs : xs[0]? with
    | none => exact (hy.empty.mpr (hx.empty.mp hxs)).symm
    | some p =>
      cases hys : ys[0]? with
      | none =>
        rw [hx.empty.mpr (hy.empty.mp hys)] at hxs
        cases hxs
      | some q => rw [hx.head p hxs, hy.head q hys]
  | succ n ih =>
    cases hxs : xs[n]? with
    | none =>
      -- Behind the end of both lists.
      have hlength := List.getElem?_eq_none_iff.mp hxs
      have hlength' := List.getElem?_eq_none_iff.mp (ih.symm.trans hxs)
      rw [List.getElem?_eq_none (by omega), List.getElem?_eq_none (by omega)]
    | some p =>
      have hys := ih.symm.trans hxs
      cases hx' : xs[n + 1]? with
      | none => exact ((hy.last n p hys).mpr ((hx.last n p hxs).mp hx')).symm
      | some q =>
        cases hy' : ys[n + 1]? with
        | none =>
          rw [(hx.last n p hxs).mpr ((hy.last n p hys).mp hy')] at hx'
          cases hx'
        | some q' => rw [hx.next n p q hxs hx', hy.next n p q' hys hy']

/--
A walk comes to an end, whatever the numbers are that it is taken with. Its positions ascend below
the end, the first one half a step in and each other one a step behind the one before, and they end
where such a step does not lead up or not below the end; only one list is like this. They are what
is given when positions are asked for one after another without end: after at most as many requests
as there are numbers up to the end, and there are less than `2 ^ 32`, nothing more is given.
-/
theorem walk_terminates (start stop step : Single) :
    (∀ positions, IsWalk start stop step positions ↔ positions = walk start stop step) ∧
      (∀ n, request stop step (start + step / Binary.ofNat 2) n = (walk start stop step)[n]?) ∧
      (∀ n, request stop step (start + step / Binary.ofNat 2)
        (numbersBetween (start + step / Binary.ofNat 2) stop + n) = none) ∧
      numbersBetween (start + step / Binary.ofNat 2) stop ≤ 0xFF000000 := by
  have hrequest := request_eq_getElem? stop step (start + step / Binary.ofNat 2)
  have hlength := length_walkFrom_le stop step (start + step / Binary.ofNat 2)
  refine ⟨fun positions => ?_, hrequest, fun n => ?_, numbersBetween_le _ _⟩
  · constructor
    · intro h
      exact h.unique (isWalk_walk start stop step)
    · rintro rfl
      exact isWalk_walk start stop step
  · rw [hrequest]
    exact List.getElem?_eq_none (hlength.trans (Nat.le_add_right _ n))

/-- A billion is too large to be changed by a thousandth: there is one position, and no next one. -/
example : walk (Binary.ofNat 1000000000) (Binary.ofNat 2000000000)
    (Binary.ofNat 1 / Binary.ofNat 1000) = [Binary.ofNat 1000000000] := by
  decide +kernel

end RegionPooling
