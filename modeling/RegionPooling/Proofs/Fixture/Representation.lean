import RegionPooling.Proofs.Fixture.Recording
import RegionPooling.Proofs.Tensor.Representation

/-!
# Every tensor fits its shape

Beside the steps on a collection there are two more places that tensors come from. Pooling writes
into a tensor of zeros, of whatever map and regions it is given; it stops or leaves as many
numbers as there were zeros. Loading takes the tensors of a fixture from the members of a document,
and compares each of them with its shape. Both are written down on views here, as the steps are, and
the views are shown to fit without the proofs that tensors carry.

Main results:

* `Operation.execute_map_view`, `Operation.fits_of_executeOnViews` — pooling.
* `Fixture.runOnViews_of_record` — recording.
* `Fixture.viewsOfDocument_of_ofFile`, `Fixture.fits_of_viewsOfDocument` — loading.
* `every_tensor_fits` — all of these, and every sequence of steps.
-/

namespace RegionPooling

/-! ## Pooling -/

namespace Operation

variable {op : Operation} {input regions v : View}

/-- Pools the regions of a map, with nothing known of either. -/
def executeOnViews (op : Operation) (input regions : View) : Except Stop View := do
  let shape ← (op.prepare input.shape regions.shape).mapError .failed
  let output ← Tensor.computed shape fun _ => .zero false
  let job : Job :=
    { input, regions, sampling := ⟨op.params.spatialScale, op.params.samplingRatio⟩
      output := output.shape }
  let run := job.align output.data
  run.1.mapError .failed
  return { output with data := run.2 }

/-- Pooling tensors is pooling views, with the same errors and panics. -/
theorem execute_map_view (op : Operation) (input regions : Tensor) :
    (op.execute input regions).map Tensor.view = op.executeOnViews input.view regions.view := by
  unfold execute executeOnViews
  show Except.map _ ((op.prepare input.shape regions.shape).mapError _ >>= _) =
    (op.prepare input.shape regions.shape).mapError _ >>= _
  cases op.prepare input.shape regions.shape with
  | error error => rfl
  | ok shape =>
    simp only [bind, Except.bind, Except.mapError, Tensor.zeros, ← Tensor.tabulate_map_view]
    cases Tensor.tabulate shape fun _ => .zero false with
    | error stop => rfl
    | ok zeros =>
      show Except.map _ (((op.job input regions zeros.shape).align zeros.data).1.mapError _ >>= _) =
        ((op.job input regions zeros.shape).align zeros.data).1.mapError _ >>= _
      cases ((op.job input regions zeros.shape).align zeros.data).1 with
      | error error => rfl
      | ok _ => rfl

/-- What is pooled fits its shape, even if the map or the regions do not. -/
theorem fits_of_executeOnViews (h : op.executeOnViews input regions = .ok v) : v.Fits := by
  obtain ⟨shape, -, h⟩ := bind_eq_ok.mp h
  obtain ⟨output, houtput, h⟩ := bind_eq_ok.mp h
  obtain ⟨_, -, ⟨⟩⟩ := bind_eq_ok.mp h
  -- The zeros are as many as the shape counts, and a run never changes their number.
  rw [View.Fits, Job.align, Job.size_alignIn]
  exact Tensor.fits_of_computed houtput

end Operation

/-! ## Members of documents -/

section Members

variable {α β : Type} {fields : Fields} {name : String} {decode : Document → Except Failure α}

theorem Fields.get_map (f : α → β) :
    (fields.get name decode).map f = fields.get name fun d => (decode d).map f := by
  unfold Fields.get
  cases fields.lookup name with
  | none => rfl
  | some d => rfl

theorem Fields.getD_map (default : α) (f : α → β) : (fields.getD name decode default).map f =
    fields.getD name (fun d => (decode d).map f) (f default) := by
  unfold Fields.getD
  cases fields.lookup name with
  | none => rfl
  | some d => rfl

theorem Fields.exists_of_get {a : α} (h : fields.get name decode = .ok a) :
    ∃ d, decode d = .ok a := by
  unfold Fields.get at h
  split at h
  · exact ⟨_, h⟩
  · cases h

theorem Fields.exists_of_getD {a default : α} (h : fields.getD name decode default = .ok a) :
    a = default ∨ ∃ d, decode d = .ok a := by
  unfold Fields.getD at h
  split at h
  · exact .inr ⟨_, h⟩
  · exact .inl (Except.ok.inj h).symm

theorem Document.asOption_map (f : α → β) (d : Document) :
    (d.asOption decode).map (Option.map f) = d.asOption fun d => (decode d).map f := by
  cases d with
  | null => rfl
  | _ =>
    show ((decode _).map some).map _ = ((decode _).map f).map some
    cases decode _ with
    | error failure => rfl
    | ok a => rfl

theorem Document.eq_ok_of_asOption {a : α} {d : Document} (h : d.asOption decode = .ok (some a)) :
    decode d = .ok a := by
  cases d with
  | null => cases h
  | _ =>
    obtain ⟨b, hb, hsome⟩ := map_eq_ok.mp h
    rw [hb, Option.some.inj hsome]

end Members

/-! ## Fixtures -/

namespace Fixture

variable {f g : Fixture}

/-- The views of all tensors of a fixture. -/
def views (f : Fixture) : List View :=
  f.input.view :: f.regions.view :: (f.expected.map Tensor.view).toList

def runOnViews (f : Fixture) : Except Stop View := do
  let op ← (Operation.ofParams f.params).mapError .failed
  op.executeOnViews f.input.view f.regions.view

theorem run_map_view (f : Fixture) : f.run.map Tensor.view = f.runOnViews := by
  unfold run runOnViews
  cases Operation.ofParams f.params with
  | error error => rfl
  | ok op => exact op.execute_map_view f.input f.regions

theorem fits_of_runOnViews {v : View} (h : f.runOnViews = .ok v) : v.Fits := by
  obtain ⟨op, -, h⟩ := bind_eq_ok.mp h
  exact Operation.fits_of_executeOnViews h

/-- What is recorded is the output of a run, next to the map and the regions that there were. -/
theorem runOnViews_of_record (h : f.record = .ok g) : ∃ v, f.runOnViews = .ok v ∧
    g.views = [f.input.view, f.regions.view, v] := by
  obtain ⟨output, hrun, rfl⟩ := record_eq_ok_iff.mp h
  refine ⟨output.view, ?_, rfl⟩
  rw [← run_map_view, hrun]
  rfl

/-- The tensors in a document, each compared with its shape. -/
def viewsOfDocument (d : Document) : Except Failure (List View) := do
  let fields ← schema.read Document.unclosed d
  let input ← fields.get "input" Tensor.viewOfDocument
  let regions ← fields.get "rois" Tensor.viewOfDocument
  let expected ← fields.getD "expected" (Document.asOption Tensor.viewOfDocument) none
  return input :: regions :: expected.toList

theorem fits_of_viewsOfDocument {d : Document} {vs : List View} (h : viewsOfDocument d = .ok vs) :
    ∀ v ∈ vs, v.Fits := by
  obtain ⟨fields, -, h⟩ := bind_eq_ok.mp h
  obtain ⟨input, hinput, h⟩ := bind_eq_ok.mp h
  obtain ⟨regions, hregions, h⟩ := bind_eq_ok.mp h
  obtain ⟨expected, hexpected, ⟨⟩⟩ := bind_eq_ok.mp h
  intro v hv
  rcases List.mem_cons.mp hv with rfl | hv
  · obtain ⟨_, hread⟩ := Fields.exists_of_get hinput
    exact Tensor.fits_of_viewOfDocument hread
  rcases List.mem_cons.mp hv with rfl | hv
  · obtain ⟨_, hread⟩ := Fields.exists_of_get hregions
    exact Tensor.fits_of_viewOfDocument hread
  -- What is expected may be left out, or may be written as nothing.
  obtain rfl := Option.mem_toList.mp hv
  rcases Fields.exists_of_getD hexpected with hnone | ⟨_, hread⟩
  · cases hnone
  · exact Tensor.fits_of_viewOfDocument (Document.eq_ok_of_asOption hread)

/-- The tensors of a fixture are those in its document. -/
theorem viewsOfDocument_of_ofDocument {d : Document} (h : ofDocument d = .ok f) :
    viewsOfDocument d = .ok f.views := by
  obtain ⟨fields, hfields, h⟩ := bind_eq_ok.mp h
  obtain ⟨_, -, h⟩ := bind_eq_ok.mp h
  obtain ⟨_, -, h⟩ := bind_eq_ok.mp h
  obtain ⟨_, -, h⟩ := bind_eq_ok.mp h
  obtain ⟨input, hinput, h⟩ := bind_eq_ok.mp h
  obtain ⟨regions, hregions, h⟩ := bind_eq_ok.mp h
  obtain ⟨expected, hexpected, h⟩ := bind_eq_ok.mp h
  obtain ⟨_, -, ⟨⟩⟩ := bind_eq_ok.mp h
  have hview : (fun d => (Tensor.ofDocument d).map Tensor.view) = Tensor.viewOfDocument :=
    funext Tensor.ofDocument_map_view
  have hinput : fields.get "input" Tensor.viewOfDocument = .ok input.view := by
    rw [← hview, ← Fields.get_map, hinput]
    rfl
  have hregions : fields.get "rois" Tensor.viewOfDocument = .ok regions.view := by
    rw [← hview, ← Fields.get_map, hregions]
    rfl
  have hexpected : fields.getD "expected" (Document.asOption Tensor.viewOfDocument) none =
      .ok (expected.map Tensor.view) := by
    have hoption : (fun d => (d.asOption Tensor.ofDocument).map (Option.map Tensor.view)) =
        Document.asOption Tensor.viewOfDocument := by
      funext d
      rw [Document.asOption_map, hview]
    rw [← hoption]
    refine (Fields.getD_map none (Option.map Tensor.view)).symm.trans ?_
    rw [hexpected]
    rfl
  exact bind_eq_ok.mpr ⟨fields, hfields, bind_eq_ok.mpr ⟨_, hinput, bind_eq_ok.mpr ⟨_, hregions,
    bind_eq_ok.mpr ⟨_, hexpected, rfl⟩⟩⟩⟩

/-- The tensors of a fixture that is loaded are those in the text of the file. -/
theorem viewsOfDocument_of_ofFile {contents : Except FileError ByteArray}
    (h : ofFile contents = .ok f) : ∃ bytes text, contents = .ok bytes ∧
      String.fromUTF8? bytes = some text ∧
        viewsOfDocument (Document.read text).1 = .ok f.views := by
  cases contents with
  | error error => cases h
  | ok bytes =>
    simp only [ofFile] at h
    split at h
    · cases h
    · rename_i text htext
      refine ⟨bytes, text, rfl, htext, viewsOfDocument_of_ofDocument ?_⟩
      exact Document.decode_eq_ok (mapError_eq_ok.mp h)

end Fixture

/-! ## All tensors -/

/--
Wherever a tensor comes from, the number of elements of its shape is the length of its data. After
any steps from an empty collection, it is so of everything in the collection, and of what one more
step makes, changes or takes out; a step that fails changes nothing. It is so of every output that
is pooled, run or recorded, and of the map, the regions and the expected output of every fixture
that is loaded. All of this is said of the shapes and data alone, as the sources give them.
-/
theorem every_tensor_fits :
    (∀ steps : List Slots.Step,
      let views := Slots.runViews (fun _ => none) steps
      (Slots.empty.run steps).views = views ∧ Slots.AllFit views ∧
      ∀ s : Slots.Step,
        ((Slots.empty.run steps).step s).1.map Tensor.view = (s.onViews views).1 ∧
        (∀ v, (s.onViews views).1 = .ok v → v.Fits) ∧
        ∀ refusal, (s.onViews views).1 = .error refusal →
          Slots.empty.run (steps ++ [s]) = Slots.empty.run steps) ∧
    (∀ (op : Operation) (input regions : Tensor),
      (op.execute input regions).map Tensor.view = op.executeOnViews input.view regions.view ∧
      ∀ v, op.executeOnViews input.view regions.view = .ok v → v.Fits) ∧
    (∀ f : Fixture, f.run.map Tensor.view = f.runOnViews ∧ ∀ v, f.runOnViews = .ok v → v.Fits) ∧
    (∀ f g : Fixture, f.record = .ok g → ∃ v, f.runOnViews = .ok v ∧ v.Fits ∧
      g.views = [f.input.view, f.regions.view, v]) ∧
    ∀ contents f, Fixture.ofFile contents = .ok f → ∃ bytes text, contents = .ok bytes ∧
      String.fromUTF8? bytes = some text ∧
      Fixture.viewsOfDocument (Document.read text).1 = .ok f.views ∧ ∀ v ∈ f.views, v.Fits := by
  refine ⟨?steps, ?executed, ?run, ?recorded, ?loaded⟩
  case steps =>
    intro steps views
    have hviews : (Slots.empty.run steps).views = views := Slots.run_views Slots.empty steps
    have hfit : Slots.AllFit views := Slots.allFit_runViews Slots.allFit_none steps
    refine ⟨hviews, hfit, fun s => ?_⟩
    have hanswer : ((Slots.empty.run steps).step s).1.map Tensor.view = (s.onViews views).1 := by
      rw [← hviews]
      exact congrArg Prod.fst (Slots.step_views _ s)
    refine ⟨hanswer, (Slots.onViews_fits hfit s).1, fun refusal hrefusal => ?_⟩
    rw [Slots.run_concat]
    exact Slots.step_of_error (map_eq_error.mp (hanswer.trans hrefusal))
  case executed =>
    intro op input regions
    exact ⟨op.execute_map_view input regions, fun _ => Operation.fits_of_executeOnViews⟩
  case run =>
    intro f
    exact ⟨f.run_map_view, fun _ => Fixture.fits_of_runOnViews⟩
  case recorded =>
    intro f g hrecord
    obtain ⟨v, hrun, hviews⟩ := Fixture.runOnViews_of_record hrecord
    exact ⟨v, hrun, Fixture.fits_of_runOnViews hrun, hviews⟩
  case loaded =>
    intro contents f hload
    obtain ⟨bytes, text, hbytes, htext, hread⟩ := Fixture.viewsOfDocument_of_ofFile hload
    exact ⟨bytes, text, hbytes, htext, hread, Fixture.fits_of_viewsOfDocument hread⟩

/-- Two zeros, of which the second one is replaced. -/
def twoZeros : List Slots.Step := [.make "pair" (.zeros ⟨[2]⟩), .set "pair" 1 .nan]

/-- Asks for three elements of two numbers. -/
def tooFew : Slots.Step := .make "pair" (.data ⟨[3]⟩ #[.nan, .nan])

theorem twoZeros_fits :
    (∃ v, (Slots.empty.run twoZeros).views "pair" = some v ∧ v.data = #[.zero false, .nan] ∧
      v.Fits ∧ Slots.empty.run (twoZeros ++ [tooFew]) = Slots.empty.run twoZeros) ∧
    (∃ g v, Fixture.overflowing.record = .ok g ∧ v ∈ g.views ∧ v.Fits) ∧
    ∃ f, Fixture.ofFile (.ok Fixture.minusZero.page.toUTF8) = .ok f ∧ ∀ v ∈ f.views, v.Fits := by
  obtain ⟨hsteps, -, -, hrecorded, hloaded⟩ := every_tensor_fits
  refine ⟨?_, ?_, ?_⟩
  · obtain ⟨hviews, hfit, hstep⟩ := hsteps twoZeros
    obtain ⟨-, -, hrefused⟩ := hstep tooFew
    have hzeros : (Tensor.Source.zeros ⟨[2]⟩).view =
        .ok ⟨⟨[2]⟩, #[.zero false, .zero false]⟩ := rfl
    have hpair : Slots.runViews (fun _ => none) twoZeros "pair" =
        some ⟨⟨[2]⟩, #[.zero false, .nan]⟩ := by
      simp [Slots.runViews, twoZeros, Slots.Step.onViews, hzeros]
    rw [hviews]
    exact ⟨_, hpair, rfl, hfit "pair" _ hpair, hrefused _ rfl⟩
  · obtain ⟨output, hrun, -⟩ := Fixture.run_overflowing
    have hrecord := Fixture.record_eq_ok_iff.mpr ⟨output, hrun, rfl⟩
    obtain ⟨v, -, hfits, hviews⟩ := hrecorded _ _ hrecord
    exact ⟨_, v, hrecord, by simp [hviews], hfits⟩
  · have hfinite : Fixture.minusZero.IsFinite := by decide +kernel
    have hload := (Fixture.ofFile_toUTF8 _).trans (Fixture.ofJson_page hfinite)
    obtain ⟨_, _, -, -, -, hfits⟩ := hloaded _ _ hload
    exact ⟨_, hload, hfits⟩

end RegionPooling
