import Mathlib.Logic.Function.Basic
import RegionPooling.Proofs.Pooling.Extents
import RegionPooling.Proofs.Tensor.Making
import RegionPooling.Tensor.Slots

/-!
# Tensors as their shape and their data

A tensor carries the proof that its data fit its shape. Here this proof is left out: what remains is
a `View`, which can have any data. Every way to make a tensor, and every step on a collection of
them, is written down once more on views, with the checks that the source of the data calls for and
no others. Data that are given are compared with the shape, whether they come as they are or in a
document; data that are computed are as many as the shape counts, unless a buffer cannot have so
many, and nothing is compared then; a write into the data keeps their number.

That the views fit is then something to prove: of each source by what it checks or counts, of a step
for every collection that fits, and of a run by induction along its steps. Tensors and views give
the same answers, errors and panics throughout, so it holds of tensors by more than their type.

Main results:

* `Tensor.Source.make_map_view`, `Tensor.Source.fits` — making tensors.
* `Slots.step_views`, `Slots.run_views` — steps on tensors are steps on views.
* `Slots.onViews_fits`, `Slots.allFit_runViews` — one step, and any number of them.
* `Slots.step_of_error` — a step that fails changes nothing.
-/

namespace RegionPooling

/-! ## Texts -/

namespace Document

variable {α β : Type} {decoder : Document → Except Failure α} {text : String}

/-- What is decoded of a text is decoded of its document. -/
theorem decode_eq_ok {a : α} (h : decode decoder text = .ok a) :
    decoder (read text).1 = .ok a := by
  obtain ⟨value, hvalue, h⟩ := bind_eq_ok.mp h
  split at h
  · cases h
    exact hvalue
  · cases h

theorem decode_map (decoder : Document → Except Failure α) (f : α → β) (text : String) :
    (decode decoder text).map f = decode (fun d => (decoder d).map f) text := by
  unfold decode
  cases read text with
  | mk d rest =>
    simp only [bind, Except.bind]
    cases decoder d with
    | error failure => rfl
    | ok value =>
      show Except.map f (if rest = [] then _ else _) = if rest = [] then _ else _
      split
      · rfl
      · rfl

end Document

/-! ## Views -/

/-- The shape has a number of elements, and the data are as many. -/
def View.Fits (v : View) : Prop := v.shape.count = .ok v.data.size

/-- Compares given data with their shape. -/
def View.checked (v : View) : Except Error View := do
  Extents.checkBuffer "tensor" v
  return v

theorem View.fits_of_checked {v w : View} (h : v.checked = .ok w) : w.Fits := by
  obtain ⟨_, hcheck, ⟨⟩⟩ := bind_eq_ok.mp h
  exact Shape.count_eq_ok_iff.mpr (Extents.checkBuffer_eq_ok hcheck)

namespace Tensor

/-! ## Making -/

/-- The shape and the data of a tensor. -/
def view (t : Tensor) : View := ⟨t.shape, t.data⟩

/-- As many elements as the shape counts, computed from their places. -/
def computed (shape : Shape) (element : Nat → Single) : Except Stop View := do
  let count ← shape.count.mapError .failed
  if count ≤ maxElements then return ⟨shape, ((List.range count).map element).toArray⟩
  else throw .capacityOverflow

/-- The shape and the data in a document, whether they fit or not. -/
def rawOfDocument (d : Document) : Except Failure View := do
  let fields ← schema.read Document.unclosed d
  let shape ← fields.get "shape" Shape.ofDocument
  let data ← fields.get "data" dataOfDocument
  return ⟨shape, data⟩

def viewOfDocument (d : Document) : Except Failure View := do
  let raw ← rawOfDocument d
  raw.checked.mapError fun e => .mismatched (.refused e.message)

/-- What is made of a source, without a proof. -/
def Source.view : Source → Except Stop View
  | data shape numbers => (View.checked ⟨shape, numbers⟩).mapError .failed
  | zeros shape => computed shape fun _ => .zero false
  | tabulate shape element => computed shape element
  | json text => ((Document.decode viewOfDocument text).mapError .unreadable).mapError .failed

theorem fits_of_computed {shape : Shape} {element : Nat → Single} {v : View}
    (h : computed shape element = .ok v) : v.Fits := by
  obtain ⟨count, hcount, h⟩ := bind_eq_ok.mp h
  split at h
  · cases h
    rw [View.Fits, List.size_toArray, List.length_map, List.length_range]
    exact mapError_eq_ok.mp hcount
  · cases h

theorem fits_of_viewOfDocument {d : Document} {v : View} (h : viewOfDocument d = .ok v) :
    v.Fits := by
  obtain ⟨raw, -, hchecked⟩ := bind_eq_ok.mp h
  exact View.fits_of_checked (mapError_eq_ok.mp hchecked)

/-- What is made of any source fits. -/
theorem Source.fits {source : Source} {v : View} (h : source.view = .ok v) : v.Fits := by
  cases source with
  | data shape numbers => exact View.fits_of_checked (mapError_eq_ok.mp h)
  | zeros shape => exact fits_of_computed h
  | tabulate shape element => exact fits_of_computed h
  | json text =>
    have hread := mapError_eq_ok.mp (mapError_eq_ok.mp h)
    exact fits_of_viewOfDocument (Document.decode_eq_ok hread)

/-! ## Tensors and views -/

theorem ofData_map_view (shape : Shape) (data : Array Single) :
    (ofData shape data).map view = View.checked ⟨shape, data⟩ := by
  unfold ofData View.checked Extents.checkBuffer Shape.count
  split
  · rename_i hcount
    simp only [hcount]
    rfl
  · rename_i expected hcount
    simp only [hcount]
    by_cases hsize : data.size = expected
    · rw [dif_pos hsize]
      simp [hsize, bind, Except.bind, pure, Except.pure, Except.map, view]
    · rw [dif_neg hsize]
      simp [hsize, bind, Except.bind, throw, throwThe, MonadExceptOf.throw, Except.map]

theorem tabulate_map_view (shape : Shape) (element : Nat → Single) :
    (tabulate shape element).map view = computed shape element := by
  unfold computed Shape.count
  cases hcount : shape.count? with
  | none =>
    rw [tabulate_eq_error hcount]
    rfl
  | some count =>
    rw [tabulate_eq hcount]
    show Except.map view (if count ≤ maxElements then _ else _) =
      if count ≤ maxElements then _ else _
    split
    · refine congrArg (fun data => Except.ok (View.mk shape data)) ?_
      apply Array.ext
      · simp
      · intro i _ _
        simp
    · rfl

theorem ofDocument_map_view (d : Document) : (ofDocument d).map view = viewOfDocument d := by
  unfold ofDocument viewOfDocument rawOfDocument
  cases schema.read Document.unclosed d with
  | error failure => rfl
  | ok fields =>
    cases hshape : fields.get "shape" Shape.ofDocument with
    | error failure => simp only [bind, Except.bind, hshape, Except.map]
    | ok shape =>
      cases hdata : fields.get "data" dataOfDocument with
      | error failure => simp only [bind, Except.bind, hshape, hdata, Except.map]
      | ok data =>
        simp only [bind, Except.bind, hshape, hdata, pure, Except.pure, ← ofData_map_view]
        cases ofData shape data with
        | error error => rfl
        | ok t => rfl

/-- Every source makes the same of a tensor as of its view, or stops for the same reason. -/
theorem Source.make_map_view (source : Source) :
    source.make.map Tensor.view = source.view := by
  cases source with
  | data shape numbers =>
    show ((ofData shape numbers).mapError Stop.failed).map Tensor.view = _
    rw [map_mapError, ofData_map_view]
    rfl
  | zeros shape => exact tabulate_map_view shape fun _ => .zero false
  | tabulate shape element => exact tabulate_map_view shape element
  | json text =>
    show (((Document.decode ofDocument text).mapError Error.unreadable).mapError
      Stop.failed).map Tensor.view = _
    rw [map_mapError, map_mapError, Document.decode_map]
    simp only [ofDocument_map_view]
    rfl

end Tensor

namespace Slots

/-! ## Collections -/

/-- Shapes and data under names. -/
abbrev Views := String → Option View

def views (slots : Slots) : Views := fun name => (slots.get? name).map Tensor.view

theorem lookup_filter {entries : List (String × Tensor)} (keep : String → Bool) (name : String) :
    (entries.filter fun entry => keep entry.1).lookup name =
      if keep name then entries.lookup name else none := by
  induction entries with
  | nil => simp
  | cons entry rest ih =>
    obtain ⟨other, t⟩ := entry
    by_cases hname : name = other
    · subst hname
      cases hkeep : keep name with
      | true => simp [hkeep]
      | false => simpa [hkeep] using ih
    · have hne : (name == other) = false := beq_false_of_ne hname
      cases hkeep : keep other with
      | true => simp [hkeep, List.lookup_cons, hne, ih]
      | false => simp [hkeep, List.lookup_cons, hne, ih]

theorem views_remove (slots : Slots) (name : String) :
    (slots.remove name).views = Function.update slots.views name none := by
  funext other
  rw [views, get?, remove, lookup_filter fun key => key != name, Function.update_apply]
  by_cases hother : other = name
  · simp [hother]
  · simp [hother, views, get?]

theorem views_put (slots : Slots) (name : String) (t : Tensor) :
    (slots.put name t).views = Function.update slots.views name (some t.view) := by
  funext other
  rw [Function.update_apply]
  by_cases hother : other = name
  · simp [hother, put, views, get?]
  · have hremove := congrFun (slots.views_remove name) other
    rw [Function.update_apply, if_neg hother] at hremove
    have hne : (other == name) = false := beq_false_of_ne hother
    rw [if_neg hother, ← hremove]
    simp [put, views, get?, List.lookup_cons, hne]

/-! ## Steps -/

/-- What a step makes, changes or takes out, and what there is after it, all of it without proofs. -/
def Step.onViews (views : Views) : Step → Except Refusal View × Views
  | .make name source =>
    match source.view with
    | .ok v => (.ok v, Function.update views name (some v))
    | .error stop => (.error (.stopped stop), views)
  | .set name place value =>
    match views name with
    | none => (.error .emptySlot, views)
    | some v =>
      if place < v.data.size then
        let changed : View := { v with data := v.data.setIfInBounds place value }
        (.ok changed, Function.update views name (some changed))
      else (.error .noElement, views)
  | .take name =>
    match views name with
    | none => (.error .emptySlot, views)
    | some v => (.ok v, Function.update views name none)

/-- Steps on tensors are steps on views, with the same answers. -/
theorem step_views (slots : Slots) (s : Step) :
    ((slots.step s).1.map Tensor.view, (slots.step s).2.views) = s.onViews slots.views := by
  cases s with
  | make name source =>
    simp only [step, Step.onViews, ← source.make_map_view]
    cases source.make with
    | error stop => rfl
    | ok t => simp [Except.map, views_put]
  | set name place value =>
    simp only [step, Step.onViews, views]
    cases slots.get? name with
    | none => rfl
    | some t =>
      simp only [Option.map_some, Tensor.set?, Tensor.view]
      by_cases hplace : place < t.data.size
      · simp only [if_pos hplace, Except.map, views_put, Tensor.view]
      · simp only [if_neg hplace, Except.map]
  | take name =>
    simp only [step, Step.onViews, views]
    cases slots.get? name with
    | none => rfl
    | some t => simp only [Option.map_some, Except.map, views_remove]

/-- A step that fails changes nothing. -/
theorem step_of_error {slots : Slots} {s : Step} {refusal : Refusal}
    (h : (slots.step s).1 = .error refusal) : (slots.step s).2 = slots := by
  cases s with
  | make name source =>
    simp only [step] at h ⊢
    cases hmade : source.make with
    | error stop => rfl
    | ok t =>
      rw [hmade] at h
      cases h
  | set name place value =>
    simp only [step] at h ⊢
    cases hfound : slots.get? name with
    | none => rfl
    | some t =>
      cases hset : t.set? place value with
      | none => simp only [hset]
      | some changed =>
        simp only [hfound, hset] at h
        cases h
  | take name =>
    simp only [step] at h ⊢
    cases hfound : slots.get? name with
    | none => rfl
    | some t =>
      rw [hfound] at h
      cases h

/-- Everything in the collection fits. -/
def AllFit (views : Views) : Prop := ∀ name v, views name = some v → v.Fits

variable {views : Views} {name : String} {v : View}

theorem allFit_none : AllFit fun _ => none := by
  intro name v h
  cases h

theorem AllFit.update (h : AllFit views) (hv : v.Fits) :
    AllFit (Function.update views name (some v)) := by
  intro other w hw
  rw [Function.update_apply] at hw
  split at hw
  · obtain rfl := Option.some.inj hw
    exact hv
  · exact h other w hw

theorem AllFit.remove (h : AllFit views) : AllFit (Function.update views name none) := by
  intro other w hw
  rw [Function.update_apply] at hw
  split at hw
  · cases hw
  · exact h other w hw

/-- A step keeps a collection in which everything fits, and what it answers fits too. -/
theorem onViews_fits (h : AllFit views) (s : Step) :
    (∀ w, (s.onViews views).1 = .ok w → w.Fits) ∧ AllFit (s.onViews views).2 := by
  cases s with
  | make name source =>
    simp only [Step.onViews]
    cases hmade : source.view with
    | error stop => exact ⟨nofun, h⟩
    | ok made =>
      have hfits := Tensor.Source.fits hmade
      refine ⟨?_, h.update hfits⟩
      rintro _ ⟨⟩
      exact hfits
  | set name place value =>
    simp only [Step.onViews]
    cases hfound : views name with
    | none => exact ⟨nofun, h⟩
    | some v =>
      dsimp only
      split
      · -- The data are as many as before, and the shape is the same.
        have hfits : View.Fits { v with data := v.data.setIfInBounds place value } := by
          rw [View.Fits, Array.size_setIfInBounds]
          exact h name v hfound
        refine ⟨?_, h.update hfits⟩
        rintro _ ⟨⟩
        exact hfits
      · exact ⟨nofun, h⟩
  | take name =>
    simp only [Step.onViews]
    cases hfound : views name with
    | none => exact ⟨nofun, h⟩
    | some v =>
      refine ⟨?_, h.remove⟩
      rintro _ ⟨⟩
      exact h name v hfound

/-! ## Runs -/

/-- What there is after a sequence of steps. -/
def runViews (views : Views) (steps : List Step) : Views :=
  steps.foldl (fun views s => (s.onViews views).2) views

/-- By induction along the steps, from any collection. -/
theorem run_views (slots : Slots) (steps : List Step) :
    (slots.run steps).views = runViews slots.views steps := by
  induction steps generalizing slots with
  | nil => rfl
  | cons s rest ih =>
    have hstep : (slots.step s).2.views = (s.onViews slots.views).2 :=
      congrArg Prod.snd (slots.step_views s)
    exact (ih (slots.step s).2).trans (by rw [hstep]; rfl)

/-- By induction along the steps, from any collection in which everything fits. -/
theorem allFit_runViews (h : AllFit views) (steps : List Step) : AllFit (runViews views steps) := by
  induction steps generalizing views with
  | nil => exact h
  | cons s rest ih => exact ih (onViews_fits h s).2

theorem run_concat (slots : Slots) (steps : List Step) (s : Step) :
    slots.run (steps ++ [s]) = ((slots.run steps).step s).2 := by
  simp [run]

end Slots

end RegionPooling
