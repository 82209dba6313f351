import RegionPooling.Operation
import RegionPooling.Proofs.Binary.Single
import RegionPooling.Proofs.Pooling.Extents

/-!
# Usable parameters

`Params.Usable` says in terms of numbers what `Params.validate` checks with comparisons: a grid
with cells, and a scale that is a positive number. A not-a-number compares false with zero and
infinity compares true, so the check of the scale rests on both of its halves.

A parameter that is replaced by name leaves the other three alone. Where the others were usable
before, all that can be wrong afterwards is the one that was named.

Main results:

* `Params.validate_cases`, `Params.validate_eq_ok_iff` — the check passes exactly for usable
  parameters, and otherwise names one that is not.
* `Params.agreeExcept_of_replace` — what a replacement by name does not touch.
* `Params.replace_eq_error`, `Params.name_of_validate_replace` — a replacement that is refused,
  before or after it is made, is reported with the name that was given.
-/

namespace RegionPooling

namespace Params

/-- The grid has cells, and the scale is a positive number. -/
structure Usable (p : Params) : Prop where
  outputHeight_ne_zero : p.outputHeight ≠ 0
  outputWidth_ne_zero : p.outputWidth ≠ 0
  scale_isFinite : p.spatialScale.isFinite = true
  scale_pos : 0 < p.spatialScale.value

/-- The test of the scale, which asks for the contrary. -/
theorem scale_refused_iff (scale : Single) :
    (!scale.isFinite || decide (scale ≤ .zero false)) = true ↔
      ¬ (scale.isFinite = true ∧ 0 < scale.value) := by
  by_cases hfinite : scale.isFinite = true
  · have hle : scale ≤ .zero false ↔ scale.value ≤ 0 := by
      rw [Binary.le_iff_value_le (Binary.ne_nan_of_isFinite hfinite) (Binary.zero_ne_nan _),
        Binary.value_zero]
    simp [hfinite, hle]
  · simp [hfinite]

/-- The parameter with this name is not usable. -/
inductive Spoils (p : Params) : String → Prop where
  | outputHeight (h : p.outputHeight = 0) : Spoils p "output_height"
  | outputWidth (h : p.outputWidth = 0) : Spoils p "output_width"
  | spatialScale (h : ¬ (p.spatialScale.isFinite = true ∧ 0 < p.spatialScale.value)) :
    Spoils p "spatial_scale"

/-- The outcomes of the check. A refusal names a parameter that is not usable. -/
theorem validate_cases (p : Params) : (p.validate = .ok () ∧ p.Usable) ∨
    ∃ name reason, p.validate = .error (.invalidParameter name reason) ∧ p.Spoils name := by
  unfold validate
  split
  · rename_i hheight
    exact .inr ⟨_, _, rfl, .outputHeight hheight⟩
  · rename_i hheight
    split
    · rename_i hwidth
      exact .inr ⟨_, _, rfl, .outputWidth hwidth⟩
    · rename_i hwidth
      split
      · rename_i hscale
        exact .inr ⟨_, _, rfl, .spatialScale ((scale_refused_iff _).mp hscale)⟩
      · rename_i hscale
        rw [scale_refused_iff, not_not] at hscale
        exact .inl ⟨rfl, hheight, hwidth, hscale.1, hscale.2⟩

theorem Usable.not_spoils {p : Params} (h : p.Usable) (name : String) : ¬ p.Spoils name := by
  intro hspoils
  cases hspoils with
  | outputHeight hzero => exact h.outputHeight_ne_zero hzero
  | outputWidth hzero => exact h.outputWidth_ne_zero hzero
  | spatialScale hscale => exact hscale ⟨h.scale_isFinite, h.scale_pos⟩

theorem validate_eq_ok_iff {p : Params} : p.validate = .ok () ↔ p.Usable := by
  rcases validate_cases p with ⟨hok, husable⟩ | ⟨name, reason, herror, hspoils⟩
  · exact ⟨fun _ => husable, fun _ => hok⟩
  · rw [herror]
    exact ⟨fun h => (by cases h), fun husable => absurd hspoils (husable.not_spoils name)⟩

instance (p : Params) : Decidable p.Usable :=
  match h : p.validate with
  | .ok () => isTrue (validate_eq_ok_iff.mp h)
  | .error _ => isFalse fun usable => by
      rw [validate_eq_ok_iff.mpr usable] at h
      cases h

/-- Unit scale is a scale, so any grid with cells will do. -/
theorem usable_ofGrid {outputHeight outputWidth : UInt32} (hheight : outputHeight ≠ 0)
    (hwidth : outputWidth ≠ 0) : (ofGrid outputHeight outputWidth).Usable := by
  obtain ⟨hfinite, hvalue⟩ := Single.one_exact
  refine ⟨hheight, hwidth, hfinite, ?_⟩
  show 0 < (Binary.ofNat 1 : Single).value
  rw [hvalue]
  norm_num

/-! ## Replacing by name -/

/-- The parameters agree, but for the one with this name. -/
structure AgreeExcept (name : String) (p q : Params) : Prop where
  outputHeight : name ≠ "output_height" → q.outputHeight = p.outputHeight
  outputWidth : name ≠ "output_width" → q.outputWidth = p.outputWidth
  spatialScale : name ≠ "spatial_scale" → q.spatialScale = p.spatialScale
  samplingRatio : name ≠ "sampling_ratio" → q.samplingRatio = p.samplingRatio

/-- The ways in which a replacement by name goes through, one for each parameter. -/
theorem replace_cases {p q : Params} {name : String} {v : Value} (h : p.replace name v = .ok q) :
    (name = "output_height" ∧ ∃ n, q = { p with outputHeight := n }) ∨
    (name = "output_width" ∧ ∃ n, q = { p with outputWidth := n }) ∨
    (name = "spatial_scale" ∧ ∃ x, q = { p with spatialScale := x }) ∨
    (name = "sampling_ratio" ∧ ∃ n, q = { p with samplingRatio := n }) := by
  unfold replace at h
  split at h
  · obtain ⟨n, -, rfl⟩ := map_eq_ok.mp h
    exact .inl ⟨rfl, n, rfl⟩
  · obtain ⟨n, -, rfl⟩ := map_eq_ok.mp h
    exact .inr (.inl ⟨rfl, n, rfl⟩)
  · obtain ⟨x, -, rfl⟩ := map_eq_ok.mp h
    exact .inr (.inr (.inl ⟨rfl, x, rfl⟩))
  · obtain ⟨n, -, rfl⟩ := map_eq_ok.mp h
    exact .inr (.inr (.inr ⟨rfl, n, rfl⟩))
  · cases h

theorem agreeExcept_of_replace {p q : Params} {name : String} {v : Value}
    (h : p.replace name v = .ok q) : AgreeExcept name p q := by
  rcases replace_cases h with ⟨rfl, n, rfl⟩ | ⟨rfl, n, rfl⟩ | ⟨rfl, x, rfl⟩ | ⟨rfl, n, rfl⟩
  · exact ⟨fun hne => absurd rfl hne, fun _ => rfl, fun _ => rfl, fun _ => rfl⟩
  · exact ⟨fun _ => rfl, fun hne => absurd rfl hne, fun _ => rfl, fun _ => rfl⟩
  · exact ⟨fun _ => rfl, fun _ => rfl, fun hne => absurd rfl hne, fun _ => rfl⟩
  · exact ⟨fun _ => rfl, fun _ => rfl, fun _ => rfl, fun hne => absurd rfl hne⟩

theorem gridSize_eq_error {name : String} {v : Value} {error : Error}
    (h : gridSize name v = .error error) : ∃ reason, error = .invalidParameter name reason := by
  unfold gridSize at h
  split at h
  · cases h
  · cases h
    exact ⟨_, rfl⟩

theorem scale_eq_error {name : String} {v : Value} {error : Error}
    (h : scale name v = .error error) : ∃ reason, error = .invalidParameter name reason := by
  unfold scale at h
  split at h
  · cases h
  · cases h
  · cases h
    exact ⟨_, rfl⟩

theorem ratio_eq_error {name : String} {v : Value} {error : Error}
    (h : ratio name v = .error error) : ∃ reason, error = .invalidParameter name reason := by
  unfold ratio at h
  split at h
  · cases h
  · cases h
    exact ⟨_, rfl⟩

/-- What cannot be put in is reported with the name it was meant for. -/
theorem replace_eq_error {p : Params} {name : String} {v : Value} {error : Error}
    (h : p.replace name v = .error error) : ∃ reason, error = .invalidParameter name reason := by
  unfold replace at h
  split at h
  · exact gridSize_eq_error (map_eq_error.mp h)
  · exact gridSize_eq_error (map_eq_error.mp h)
  · exact scale_eq_error (map_eq_error.mp h)
  · exact ratio_eq_error (map_eq_error.mp h)
  · cases h
    exact ⟨_, rfl⟩

/-- A parameter other than the one replaced is as usable as it was. -/
theorem AgreeExcept.spoils {p q : Params} {name other : String} (h : AgreeExcept name p q)
    (hne : name ≠ other) (hspoils : q.Spoils other) : p.Spoils other := by
  cases hspoils with
  | outputHeight hzero => exact .outputHeight (h.outputHeight hne ▸ hzero)
  | outputWidth hzero => exact .outputWidth (h.outputWidth hne ▸ hzero)
  | spatialScale hscale => exact .spatialScale (h.spatialScale hne ▸ hscale)

/-- Of usable parameters, one that is replaced is the only one that can be refused after. -/
theorem name_of_validate_replace {p q : Params} {name : String} {v : Value} {error : Error}
    (hp : p.Usable) (h : p.replace name v = .ok q) (herror : q.validate = .error error) :
    ∃ reason, error = .invalidParameter name reason := by
  have hagree := agreeExcept_of_replace h
  rcases validate_cases q with ⟨hok, -⟩ | ⟨refused, reason, hrefused, hspoils⟩
  · rw [herror] at hok
    cases hok
  · rw [herror] at hrefused
    cases hrefused
    -- Nothing else was spoiled before, so the refused parameter is the named one.
    by_cases hname : name = refused
    · exact ⟨reason, by rw [hname]⟩
    · exact absurd (hagree.spoils hname hspoils) (hp.not_spoils refused)

end Params

/-! ## Making operations -/

namespace Operation

theorem ofParams_eq_ok {p : Params} (h : p.validate = .ok ()) : ofParams p = .ok ⟨p, h⟩ := by
  unfold ofParams
  split
  · rename_i herror
    rw [h] at herror
    cases herror
  · rfl

theorem params_of_ofParams {p : Params} {op : Operation} (h : ofParams p = .ok op) :
    op.params = p := by
  unfold ofParams at h
  split at h
  · cases h
  · cases h
    rfl

theorem validate_of_ofParams {p : Params} {error : Error} (h : ofParams p = .error error) :
    p.validate = .error error := by
  unfold ofParams at h
  split at h
  · rename_i herror
    cases h
    exact herror
  · cases h

theorem usable (op : Operation) : op.params.Usable :=
  Params.validate_eq_ok_iff.mp op.valid

end Operation

end RegionPooling
