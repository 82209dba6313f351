import RegionPooling.Proofs.Fixture.Recording
import RegionPooling.Proofs.Json.Refusal
import RegionPooling.Proofs.Operation.Preparation
import RegionPooling.Proofs.Pooling.Finiteness

/-!
# Which saved fixtures are loaded again

Saving always succeeds, but a number that is not finite is written as nothing, and loading refuses
nothing where it expects a number. So a saved fixture is loaded again if and only if its numbers are
finite. This is no matter of the text alone: a fixture that was loaded with finite numbers can be
recorded with an output that is infinite, and then what is saved cannot be loaded
(`Fixture.overflowing_not_reloaded`). It takes a map with pixels beyond `2 ^ 96`.

Main results:

* `Tensor.ofDocument_reading_of_not_isFinite`, `Params.ofDocument_reading_of_not_isFinite` — the
  records inside of a fixture.
* `Fixture.ofFile_saved` — a fixture is loaded, or refused for a number that is not there.
* `Fixture.recordTimes_eq_ok_iff` — recording any number of times.
* `Fixture.reloads_iff_isFinite` — which fixtures are loaded after they were recorded and saved.
-/

namespace RegionPooling

open Document (reading)

/-! ## Parameters and tensors -/

theorem Params.ofDocument_reading_of_not_isFinite (excess : Nat → Failure) {p : Params}
    (h : ¬ p.spatialScale.isFinite = true) :
    Params.ofDocument excess (reading Literal.text p.written) = .error .noNumber := by
  have hscale := Document.asSingle_reading_of_not_isFinite h
  -- The sizes and the ratio are whole numbers, which are always written.
  have hread : schema.read excess (reading Literal.text p.written) = .error .noNumber := by
    refine Schema.read_object_eq_error excess p.members p.nodup_names ?_ ?_
    · simp only [members, List.forall_mem_cons, List.not_mem_nil, false_implies, implies_true,
        and_true]
      exact ⟨.inl (Schema.accepts_of_ok rfl (Document.asUInt32_reading p.outputHeight)),
        .inl (Schema.accepts_of_ok rfl (Document.asUInt32_reading p.outputWidth)),
        .inr (Schema.rejects_of_error rfl hscale),
        .inl (Schema.accepts_of_ok rfl (Document.asInt32_reading p.samplingRatio))⟩
    · exact ⟨("spatial_scale", .number (.single p.spatialScale)), by simp [members],
        Schema.rejects_of_error rfl hscale⟩
  rw [ofDocument, hread]
  rfl

namespace Tensor

theorem dataOfDocument_reading_of_not_isFinite {data : Array Single}
    (h : ¬ data.all Binary.isFinite = true) :
    dataOfDocument (reading Literal.text (.array (data.toList.map fun x => .number (.single x)))) =
      .error .noNumber := by
  rw [Array.all_eq_true_iff_forall_mem] at h
  push Not at h
  obtain ⟨x, hx, hinfinite⟩ := h
  have hall : ∀ x ∈ data.toList,
      (reading Literal.text (.number (.single x))).asSingle = .ok x ∨
        (reading Literal.text (.number (.single x))).asSingle = .error .noNumber := by
    intro x _
    by_cases hfinite : x.isFinite = true
    · exact .inl (Document.asSingle_reading hfinite)
    · exact .inr (Document.asSingle_reading_of_not_isFinite hfinite)
  rw [dataOfDocument, Document.asList_reading_eq_error hall
    ⟨x, Array.mem_toList_iff.mpr hx, Document.asSingle_reading_of_not_isFinite hinfinite⟩]
  rfl

theorem ofDocument_reading_of_not_isFinite {t : Tensor} (h : ¬ t.isFinite = true) :
    ofDocument (reading Literal.text t.written) = .error .noNumber := by
  have hdata := dataOfDocument_reading_of_not_isFinite h
  have hread : schema.read Document.unclosed (reading Literal.text t.written) =
      .error .noNumber := by
    refine Schema.read_object_eq_error Document.unclosed t.members t.nodup_names ?_ ?_
    · simp only [members, List.forall_mem_cons, List.not_mem_nil, false_implies, implies_true,
        and_true]
      exact ⟨.inl (Schema.accepts_of_ok rfl (Shape.ofDocument_reading t.shape)),
        .inr (Schema.rejects_of_error rfl hdata)⟩
    · exact ⟨("data", .array (t.data.toList.map fun x => .number (.single x))), by simp [members],
        Schema.rejects_of_error rfl hdata⟩
  rw [ofDocument, hread]
  rfl

end Tensor

/-! ## Fixtures -/

namespace Fixture

variable {f g : Fixture}

theorem expected_reading_of_not_isFinite {t : Tensor} (h : ¬ t.isFinite = true) :
    (reading Literal.text t.written).asOption Tensor.ofDocument = .error .noNumber :=
  Document.asOption_eq_error nofun (Tensor.ofDocument_reading_of_not_isFinite h)

/-- Every member of the written form is accepted, or rejected for a number that is not there. -/
theorem accepts_or_rejects_members (f : Fixture) : ∀ member ∈ f.members,
    schema.Accepts (member.1, reading Literal.text member.2) ∨
      schema.Rejects .noNumber (member.1, reading Literal.text member.2) := by
  -- Texts are accepted. For each other member it depends on the numbers in it alone.
  apply forall_mem_members
  case hname => exact .inl (Schema.accepts_of_ok (x := f.name) rfl rfl)
  case hdescription =>
    intro text _
    exact .inl (Schema.accepts_of_ok rfl (description_reading text))
  case hparams =>
    exact Schema.accepts_or_rejects rfl (Params.ofDocument_reading _)
      (Params.ofDocument_reading_of_not_isFinite _)
  case hinput =>
    exact Schema.accepts_or_rejects rfl Tensor.ofDocument_reading
      Tensor.ofDocument_reading_of_not_isFinite
  case hregions =>
    exact Schema.accepts_or_rejects rfl Tensor.ofDocument_reading
      Tensor.ofDocument_reading_of_not_isFinite
  case hexpected =>
    intro t _
    exact Schema.accepts_or_rejects rfl expected_reading expected_reading_of_not_isFinite
  case htolerance =>
    exact Schema.accepts_or_rejects rfl Document.asSingle_reading
      Document.asSingle_reading_of_not_isFinite

/-- Where a number is not finite, the member that has it is rejected. -/
theorem exists_rejected (h : ¬ f.IsFinite) : ∃ member ∈ f.members,
    schema.Rejects .noNumber (member.1, reading Literal.text member.2) := by
  by_contra hnone
  push Not at hnone
  -- If no member is rejected, then there is no such number in any of them.
  refine h { spatialScale := ?_, input := ?_, regions := ?_, expected := ?_, tolerance := ?_ }
  · by_contra hscale
    exact hnone ("params", f.params.written) (by simp [members])
      (Schema.rejects_of_error rfl (Params.ofDocument_reading_of_not_isFinite _ hscale))
  · by_contra hinput
    exact hnone ("input", f.input.written) (by simp [members])
      (Schema.rejects_of_error rfl (Tensor.ofDocument_reading_of_not_isFinite hinput))
  · by_contra hregions
    exact hnone ("rois", f.regions.written) (by simp [members])
      (Schema.rejects_of_error rfl (Tensor.ofDocument_reading_of_not_isFinite hregions))
  · intro t ht
    by_contra hexpected
    exact hnone ("expected", t.written) (by simp [members, ht, optionalMember])
      (Schema.rejects_of_error rfl (expected_reading_of_not_isFinite hexpected))
  · by_contra htolerance
    exact hnone ("tolerance", .number (.single f.tolerance)) (by simp [members])
      (Schema.rejects_of_error rfl (Document.asSingle_reading_of_not_isFinite htolerance))

/-- The decoder refuses the written form of a fixture with a number that is not finite. -/
theorem ofDocument_reading_of_not_isFinite (h : ¬ f.IsFinite) :
    ofDocument (reading Literal.text f.written) = .error .noNumber := by
  have hread : schema.read Document.unclosed (reading Literal.text f.written) = .error .noNumber :=
    Schema.read_object_eq_error Document.unclosed f.members f.nodup_names
      f.accepts_or_rejects_members (exists_rejected h)
  rw [ofDocument, hread]
  rfl

/-- What there is after saving and loading. -/
theorem ofFile_saved (f : Fixture) :
    ofFile (.ok f.page.toUTF8) = if f.IsFinite then .ok f else .error (.unreadable .noNumber) := by
  rw [ofFile_toUTF8]
  split
  · rename_i hfinite
    exact ofJson_page hfinite
  · rename_i hinfinite
    have hread : Document.read f.page = (reading Literal.text f.written, []) :=
      Document.read_page f.written
    rw [ofJson, Document.decode, hread]
    simp only [ofDocument_reading_of_not_isFinite hinfinite]
    rfl

/-! ## Recording -/

/-- Recording a number of times in a row. -/
def recordTimes (f : Fixture) : Nat → Except Stop Fixture
  | 0 => .ok f
  | n + 1 => do (← f.recordTimes n).record

/-- Recording any number of times is recording once, or not at all. -/
theorem recordTimes_eq_ok_iff {n : Nat} : f.recordTimes n = .ok g ↔
    (n = 0 ∧ g = f) ∨ (0 < n ∧ f.record = .ok g) := by
  -- The step is the last record, after which the fixture is the one of the first.
  induction n generalizing g with
  | zero => simp [recordTimes, eq_comm]
  | succ n ih =>
    rw [recordTimes, bind_eq_ok]
    constructor
    · rintro ⟨g', htimes, hrecord⟩
      rcases ih.mp htimes with ⟨-, rfl⟩ | ⟨-, hfirst⟩
      · exact .inr ⟨n.succ_pos, hrecord⟩
      · -- It has been recorded before, so nothing changes.
        obtain rfl := Except.ok.inj ((record_recorded hfirst).symm.trans hrecord)
        exact .inr ⟨n.succ_pos, hfirst⟩
    · rintro (⟨⟨⟩, -⟩ | ⟨-, hrecord⟩)
      rcases n.eq_zero_or_pos with rfl | hpos
      · exact ⟨f, rfl, hrecord⟩
      · exact ⟨g, ih.mpr (.inr ⟨hpos, hrecord⟩), record_recorded hrecord⟩

/-- A map within bounds has a finite output, whatever the regions. -/
theorem isFinite_of_run {output : Tensor} (h : f.run = .ok output)
    (hmap : Job.MapBounded f.input.data) : output.isFinite = true := by
  obtain ⟨op, -, hexecute⟩ := bind_eq_ok.mp h
  obtain ⟨zeros, hrun, hdata⟩ := Operation.align_of_execute hexecute
  obtain ⟨e, hcheck⟩ := Job.align_eq_ok_iff.mp hrun
  rw [Tensor.isFinite, hdata, Array.all_eq_true_iff_forall_mem]
  intro x hx
  obtain ⟨site, hsite, rfl⟩ := Job.exists_site_of_mem hcheck hx
  exact (Job.abs_valueAt_le hcheck hsite hmap).1

/-- What makes a fixture finite once it has been recorded. -/
theorem isFinite_recorded_iff (h : f.record = .ok g) : g.IsFinite ↔
    f.input.isFinite = true ∧ f.regions.isFinite = true ∧ f.tolerance.isFinite = true ∧
      ∃ output, f.run = .ok output ∧ output.isFinite = true := by
  obtain ⟨output, hrun, rfl⟩ := record_eq_ok_iff.mp h
  constructor
  · intro hfinite
    exact ⟨hfinite.input, hfinite.regions, hfinite.tolerance, output, hrun,
      hfinite.expected output rfl⟩
  · rintro ⟨hinput, hregions, htolerance, output', hrun', houtput⟩
    obtain rfl := Except.ok.inj (hrun.symm.trans hrun')
    -- The run has checked the scale, so nothing has to be asked of it.
    obtain ⟨op, hop, -⟩ := bind_eq_ok.mp hrun
    have hscale : f.params.spatialScale.isFinite = true :=
      Operation.params_of_ofParams (mapError_eq_ok.mp hop) ▸ op.usable.scale_isFinite
    have hexpected : ∀ t, some output = some t → t.isFinite = true := by
      rintro t ⟨⟩
      exact houtput
    exact ⟨hscale, hinput, hregions, hexpected, htolerance⟩

/-! ## Loading what was recorded -/

/-- A finite fixture stays finite over a map within bounds, however often it is recorded. -/
theorem isFinite_of_recordTimes {n : Nat} (h : f.recordTimes n = .ok g) (hfinite : f.IsFinite)
    (hmap : Job.MapBounded f.input.data) : g.IsFinite := by
  rcases recordTimes_eq_ok_iff.mp h with ⟨-, rfl⟩ | ⟨-, hrecord⟩
  · exact hfinite
  · obtain ⟨output, hrun, -⟩ := record_eq_ok_iff.mp hrecord
    exact (isFinite_recorded_iff hrecord).mpr ⟨hfinite.input, hfinite.regions, hfinite.tolerance,
      output, hrun, isFinite_of_run hrun hmap⟩

/--
A fixture is recorded any number of times and saved. It is loaded again, as the same fixture, if its
numbers are finite, and otherwise refused because a number is not there. Once it has been recorded,
its numbers are finite if and only if those it runs on are, the tolerance is, and the output is. Over
a map within bounds, a finite fixture stays finite.
-/
theorem reloads_iff_isFinite (f : Fixture) (n : Nat) (h : f.recordTimes n = .ok g) :
    (ofFile (.ok g.page.toUTF8) = if g.IsFinite then .ok g else .error (.unreadable .noNumber)) ∧
    (0 < n → (g.IsFinite ↔ f.input.isFinite = true ∧ f.regions.isFinite = true ∧
      f.tolerance.isFinite = true ∧ ∃ output, f.run = .ok output ∧ output.isFinite = true)) ∧
    (f.IsFinite → Job.MapBounded f.input.data → g.IsFinite) := by
  refine ⟨g.ofFile_saved, ?_, isFinite_of_recordTimes h⟩
  intro hpos
  rcases recordTimes_eq_ok_iff.mp h with ⟨rfl, -⟩ | ⟨-, hrecord⟩
  · exact absurd hpos (Nat.lt_irrefl 0)
  · exact isFinite_recorded_iff hrecord

/-- The map of `minusZero` is within bounds. -/
theorem minusZero_reloads : ∃ g, minusZero.recordTimes 2 = .ok g ∧ g.IsFinite ∧
    ofFile (.ok g.page.toUTF8) = .ok g := by
  have hrun : ∃ output, minusZero.run = .ok output ∧ output.isFinite = true :=
    exists_ok_of_toOption_map (by decide +kernel)
  obtain ⟨output, hrun, -⟩ := hrun
  have htimes := recordTimes_eq_ok_iff.mpr
    (.inr ⟨Nat.two_pos, record_eq_ok_iff.mpr ⟨output, hrun, rfl⟩⟩)
  have hmap : Job.MapBounded minusZero.input.data := by
    intro x hx
    obtain rfl := Array.mem_singleton.mp hx
    refine ⟨by decide, ?_⟩
    rw [Binary.value_zero, abs_zero]
    positivity
  obtain ⟨hloaded, -, hbounded⟩ := reloads_iff_isFinite minusZero 2 htimes
  have hfinite := hbounded (by decide +kernel) hmap
  rw [if_pos hfinite] at hloaded
  exact ⟨_, htimes, hfinite, hloaded⟩

/-- The numbers of `overflowing` are finite, so it is loaded. Its output is not, and once it has been
recorded, it is loaded no more. -/
theorem overflowing_not_reloaded : ofFile (.ok overflowing.page.toUTF8) = .ok overflowing ∧
    ∃ g, overflowing.recordTimes 1 = .ok g ∧ ∀ loaded, ofFile (.ok g.page.toUTF8) ≠ .ok loaded := by
  have hfinite : overflowing.IsFinite := by decide +kernel
  -- The infinite output is now what is expected, and this is a number of the fixture.
  obtain ⟨output, hrun, hinfinite⟩ := run_overflowing
  have hrecord := record_eq_ok_iff.mpr ⟨output, hrun, rfl⟩
  have hnot : ¬ Fixture.IsFinite { overflowing with expected := some output } := by
    intro hrecorded
    rw [hrecorded.expected output rfl] at hinfinite
    cases hinfinite
  refine ⟨?_, _, recordTimes_eq_ok_iff.mpr (.inr ⟨Nat.one_pos, hrecord⟩), ?_⟩
  · rw [ofFile_saved, if_pos hfinite]
  · intro loaded hloaded
    rw [ofFile_saved, if_neg hnot] at hloaded
    cases hloaded

end Fixture

end RegionPooling
