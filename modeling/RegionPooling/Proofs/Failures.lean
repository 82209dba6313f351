import Mathlib.Data.List.Forall2
import RegionPooling.Error

/-!
# Computations that can fail

What a computation gives or fails with that is put together from others: one after the other, or
over all items of a list. Every check and every reader is taken apart with these lemmas, without
looking at how the computations are chained.

`FailsOnly` says of a computation that each of its failures is one of a kind. What is put together
from such computations is such a computation. Where a computation may also panic, it is the errors
that are of a kind (`Stop.Only`).
-/

namespace RegionPooling

/-! ## Results and failures -/

theorem bind_eq_ok {ε α β : Type} {x : Except ε α} {f : α → Except ε β} {b : β} :
    (x >>= f) = .ok b ↔ ∃ a, x = .ok a ∧ f a = .ok b := by
  cases x with
  | error error => exact ⟨fun h => (by cases h), fun ⟨_, h, _⟩ => (by cases h)⟩
  | ok a => exact ⟨fun h => ⟨a, rfl, h⟩, fun ⟨_, h, hf⟩ => (by cases h; exact hf)⟩

theorem bind_eq_error {ε α β : Type} {x : Except ε α} {f : α → Except ε β} {error : ε} :
    (x >>= f) = .error error ↔ x = .error error ∨ ∃ a, x = .ok a ∧ f a = .error error := by
  cases x with
  | error other =>
    constructor
    · intro h
      cases h
      exact .inl rfl
    · rintro (h | ⟨_, h, _⟩)
      · cases h
        rfl
      · cases h
  | ok a =>
    constructor
    · intro h
      exact .inr ⟨a, rfl, h⟩
    · rintro (h | ⟨_, h, hf⟩)
      · cases h
      · cases h
        exact hf

theorem map_eq_ok {ε α β : Type} {x : Except ε α} {f : α → β} {b : β} :
    x.map f = .ok b ↔ ∃ a, x = .ok a ∧ f a = b := by
  cases x with
  | error error => exact ⟨fun h => (by cases h), fun ⟨_, h, _⟩ => (by cases h)⟩
  | ok a => exact ⟨fun h => ⟨a, rfl, by cases h; rfl⟩, fun ⟨_, h, hf⟩ => (by cases h; cases hf; rfl)⟩

theorem map_eq_error {ε α β : Type} {x : Except ε α} {f : α → β} {error : ε} :
    x.map f = .error error ↔ x = .error error := by
  cases x with
  | error other => exact ⟨fun h => (by cases h; rfl), fun h => (by cases h; rfl)⟩
  | ok a => exact ⟨fun h => (by cases h), fun h => (by cases h)⟩

theorem mapError_eq_ok {ε δ α : Type} {x : Except ε α} {f : ε → δ} {a : α} :
    x.mapError f = .ok a ↔ x = .ok a := by
  cases x with
  | error error => exact ⟨fun h => (by cases h), fun h => (by cases h)⟩
  | ok b => exact ⟨fun h => (by cases h; rfl), fun h => (by cases h; rfl)⟩

theorem mapError_eq_error {ε δ α : Type} {x : Except ε α} {f : ε → δ} {error : δ} :
    x.mapError f = .error error ↔ ∃ e, x = .error e ∧ f e = error := by
  cases x with
  | error e =>
    exact ⟨fun h => ⟨e, rfl, by cases h; rfl⟩, fun ⟨_, h, he⟩ => (by cases h; cases he; rfl)⟩
  | ok a => exact ⟨fun h => (by cases h), fun ⟨_, h, _⟩ => (by cases h)⟩

theorem map_mapError {ε δ α β : Type} (x : Except ε α) (f : ε → δ) (g : α → β) :
    (x.mapError f).map g = (x.map g).mapError f := by
  cases x with
  | error error => rfl
  | ok a => rfl

/-- What is known of the result if there is one, where there is one. -/
theorem exists_ok_of_toOption_map {ε α β : Type} {x : Except ε α} {f : α → β} {b : β}
    (h : x.toOption.map f = some b) : ∃ a, x = .ok a ∧ f a = b := by
  cases x with
  | error error => cases h
  | ok a => exact ⟨a, rfl, Option.some.inj h⟩

theorem forM_eq_ok_iff {ε α : Type} {xs : List α} {f : α → Except ε Unit} :
    xs.forM f = .ok () ↔ ∀ x ∈ xs, f x = .ok () := by
  induction xs with
  | nil => exact ⟨fun _ x hx => absurd hx List.not_mem_nil, fun _ => rfl⟩
  | cons x rest ih =>
    rw [show (x :: rest).forM f = f x >>= fun _ => rest.forM f from rfl, bind_eq_ok]
    constructor
    · rintro ⟨_, hx, hrest⟩ y hy
      rcases List.mem_cons.mp hy with rfl | hy
      · exact hx
      · exact ih.mp hrest y hy
    · intro h
      exact ⟨(), h x (List.mem_cons_self ..),
        ih.mpr fun y hy => h y (List.mem_cons_of_mem _ hy)⟩

theorem forM_congr {ε α : Type} {xs : List α} {f g : α → Except ε Unit}
    (h : ∀ x ∈ xs, f x = g x) : xs.forM f = xs.forM g := by
  induction xs with
  | nil => rfl
  | cons x rest ih =>
    show (f x >>= fun _ => rest.forM f) = (g x >>= fun _ => rest.forM g)
    rw [h x (List.mem_cons_self ..), ih fun y hy => h y (List.mem_cons_of_mem _ hy)]

/-- What a loop reports is what one of its rounds reports. -/
theorem forM_eq_error {ε α : Type} {xs : List α} {f : α → Except ε Unit} {error : ε}
    (h : xs.forM f = .error error) : ∃ x ∈ xs, f x = .error error := by
  induction xs with
  | nil => cases h
  | cons x rest ih =>
    rcases bind_eq_error.mp h with hx | ⟨_, _, hrest⟩
    · exact ⟨x, List.mem_cons_self .., hx⟩
    · obtain ⟨y, hy, hfy⟩ := ih hrest
      exact ⟨y, List.mem_cons_of_mem _ hy, hfy⟩

/-- A loop over the first numbers reports the failure of the first one that fails. -/
theorem forM_range_eq_error_iff {ε : Type} {n : Nat} {f : Nat → Except ε Unit} {error : ε} :
    (List.range n).forM f = .error error ↔
      ∃ i < n, (∀ j < i, f j = .ok ()) ∧ f i = .error error := by
  induction n with
  | zero => exact ⟨fun h => (by cases h), fun ⟨_, hi, _⟩ => absurd hi (Nat.not_lt_zero _)⟩
  | succ n ih =>
    have hlast : [n].forM f = .error error ↔ f n = .error error := by
      rw [show [n].forM f = (f n >>= fun _ => .ok ()) from rfl, bind_eq_error]
      exact ⟨fun h => h.elim id fun ⟨_, _, hok⟩ => (by cases hok), .inl⟩
    have hsplit : (List.range (n + 1)).forM f = ((List.range n).forM f >>= fun _ => [n].forM f) := by
      rw [List.range_succ]
      exact List.forM_append
    rw [hsplit, bind_eq_error, ih]
    constructor
    · rintro (⟨i, hi, hbefore, herror⟩ | ⟨_, hok, herror⟩)
      · exact ⟨i, by omega, hbefore, herror⟩
      · refine ⟨n, Nat.lt_succ_self n, fun j hj => ?_, hlast.mp herror⟩
        exact forM_eq_ok_iff.mp hok j (List.mem_range.mpr hj)
    · rintro ⟨i, hi, hbefore, herror⟩
      rcases Nat.lt_succ_iff_lt_or_eq.mp hi with hlt | rfl
      · exact .inl ⟨i, hlt, hbefore, herror⟩
      · refine .inr ⟨(), forM_eq_ok_iff.mpr fun j hj => ?_, hlast.mpr herror⟩
        exact hbefore j (List.mem_range.mp hj)

/-- A list of results is that of the items, one by one. -/
theorem mapM_eq_ok_iff {ε α β : Type} {f : α → Except ε β} {xs : List α} {ys : List β} :
    xs.mapM f = .ok ys ↔ List.Forall₂ (fun x y => f x = .ok y) xs ys := by
  induction xs generalizing ys with
  | nil =>
    rw [List.mapM_nil, List.forall₂_nil_left_iff]
    exact ⟨fun h => (by cases h; rfl), fun h => h ▸ rfl⟩
  | cons x rest ih =>
    rw [List.mapM_cons, bind_eq_ok]
    constructor
    · rintro ⟨y, hy, h⟩
      obtain ⟨others, hothers, h⟩ := bind_eq_ok.mp h
      cases h
      exact .cons hy (ih.mp hothers)
    · rintro (_ | ⟨hy, hrest⟩)
      exact ⟨_, hy, bind_eq_ok.mpr ⟨_, ih.mpr hrest, rfl⟩⟩

/-! ## Failures of a kind -/

/-- If this fails, it is with a failure of this kind. -/
def FailsOnly {ε α : Type} (kind : ε → Prop) (x : Except ε α) : Prop :=
  ∀ error, x = .error error → kind error

namespace FailsOnly

variable {ε δ α β : Type} {kind : ε → Prop}

theorem ok (a : α) : FailsOnly kind (.ok a) := by
  intro error h
  cases h

theorem error {e : ε} (h : kind e) : FailsOnly kind (.error e : Except ε α) := by
  rintro _ ⟨⟩
  exact h

/-- One computation after another; the second one may rely on what the first one found. -/
theorem bind {x : Except ε α} {f : α → Except ε β} (hx : FailsOnly kind x)
    (hf : ∀ a, x = .ok a → FailsOnly kind (f a)) : FailsOnly kind (x >>= f) := by
  intro error h
  cases x with
  | error _ =>
    cases h
    exact hx _ rfl
  | ok a => exact hf a rfl error h

theorem map {x : Except ε α} (hx : FailsOnly kind x) (f : α → β) : FailsOnly kind (x.map f) := by
  intro error h
  cases x with
  | error _ =>
    cases h
    exact hx _ rfl
  | ok a => cases h

/-- Where the failures are replaced, it is the new ones that count. -/
theorem mapError {x : Except ε α} {wrap : ε → δ} {kind' : δ → Prop} (hx : FailsOnly kind x)
    (hwrap : ∀ e, kind e → kind' (wrap e)) : FailsOnly kind' (x.mapError wrap) := by
  intro error h
  cases x with
  | error e =>
    cases h
    exact hwrap e (hx e rfl)
  | ok a => cases h

theorem forM {xs : List α} {f : α → Except ε Unit} (h : ∀ x ∈ xs, FailsOnly kind (f x)) :
    FailsOnly kind (xs.forM f) := by
  induction xs with
  | nil => exact ok ()
  | cons x rest ih =>
    have hrest := ih fun y hy => h y (List.mem_cons_of_mem _ hy)
    exact bind (h x List.mem_cons_self) fun _ _ => hrest

theorem mapM {xs : List α} {f : α → Except ε β} (h : ∀ x ∈ xs, FailsOnly kind (f x)) :
    FailsOnly kind (xs.mapM f) := by
  induction xs with
  | nil => exact ok []
  | cons x rest ih =>
    have hrest := ih fun y hy => h y (List.mem_cons_of_mem _ hy)
    rw [List.mapM_cons]
    exact bind (h x List.mem_cons_self) fun _ _ => bind hrest fun _ _ => ok _

end FailsOnly

/-! ## Errors and panics -/

namespace Stop

variable {α : Type} {kind : Error → Prop}

/-- If this is an error, it is one of the kind. -/
def Only (kind : Error → Prop) (stop : Stop) : Prop := ∀ error, stop = .failed error → kind error

theorem only_failed {error : Error} (h : kind error) : Only kind (.failed error) := by
  rintro _ ⟨⟩
  exact h

theorem only_capacityOverflow : Only kind .capacityOverflow := nofun

/-- What fails with errors of a kind does so among computations that may panic. -/
theorem failsOnly_mapError {x : Except Error α} (h : FailsOnly kind x) :
    FailsOnly (Only kind) (x.mapError .failed) :=
  h.mapError fun _ => only_failed

theorem returned?_eq_none_iff {x : Except Stop α} :
    returned? x = none ↔ x = .error .capacityOverflow := by
  cases x with
  | ok a => simp [returned?]
  | error stop =>
    cases stop with
    | failed error => simp [returned?]
    | capacityOverflow => simp [returned?]

theorem eq_of_returned? {x : Except Stop α} {r : Except Error α} (h : returned? x = some r) :
    x = r.mapError .failed := by
  cases x with
  | ok a =>
    cases h
    rfl
  | error stop =>
    cases stop with
    | failed error =>
      cases h
      rfl
    | capacityOverflow => cases h

end Stop

end RegionPooling
