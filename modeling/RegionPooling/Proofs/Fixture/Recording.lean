import RegionPooling.Proofs.Fixture.Verification

/-!
# Recording, then verifying

A run depends on the parameters, the feature map and the regions of a fixture, and on nothing else
of it. Recording changes what is expected and nothing else, so a fixture that was recorded runs as
before, and what is expected is what comes out. Verifying therefore compares a tensor with itself:
nothing differs, unless an element is not finite, and then the difference is no number.

Recording changes a fixture in its place (`recordInPlace`). If the run fails, or even panics, it is
left as it was. What there is afterwards is also called `record`, where only this matters.

Main results:

* `Fixture.recordInPlace_eq_ok_iff`, `Fixture.recordInPlace_eq_error_iff` — recording puts the
  output of the run in place, and keeps the old fixture otherwise.
* `Fixture.run_congr` — what a run depends on.
* `Fixture.record_recorded` — recording twice is recording once.
* `Fixture.record_then_verify` — the report on a fixture that has just been recorded.
-/

namespace RegionPooling.Fixture

variable {f g : Fixture} {output : Tensor} {stop : Stop}

/-! ## Recording in place -/

theorem recordInPlace_eq (f : Fixture) : recordInPlace f =
    match f.run with
    | .ok output => .ok () { f with expected := some output }
    | .error stop => .error stop f := by
  show (MonadExcept.ofExcept f.run >>= fun output =>
    set { f with expected := some output } : EStateM Stop Fixture Unit) f = _
  cases f.run with
  | ok output => rfl
  | error stop => rfl

/-- A recorded fixture is the old one with the output of its run in place of what was expected. -/
theorem recordInPlace_eq_ok_iff : recordInPlace f = .ok () g ↔
    ∃ output, f.run = .ok output ∧ g = { f with expected := some output } := by
  rw [recordInPlace_eq]
  cases f.run with
  | ok output => simp [eq_comm]
  | error stop => simp

theorem recordInPlace_eq_error_iff :
    recordInPlace f = .error stop g ↔ f.run = .error stop ∧ g = f := by
  rw [recordInPlace_eq]
  cases f.run with
  | ok output => simp
  | error stop => simp [eq_comm]

theorem recordInPlace_eq_ok_iff_record : recordInPlace f = .ok () g ↔ f.record = .ok g := by
  unfold record
  cases recordInPlace f with
  | ok _ new => simp
  | error stop kept => simp

theorem record_eq_ok_iff : f.record = .ok g ↔
    ∃ output, f.run = .ok output ∧ g = { f with expected := some output } :=
  recordInPlace_eq_ok_iff_record.symm.trans recordInPlace_eq_ok_iff

/-! ## Running again -/

/-- A run takes no notice of the name, of what is expected, or of the tolerance. -/
theorem run_congr (hparams : f.params = g.params) (hinput : f.input = g.input)
    (hregions : f.regions = g.regions) : f.run = g.run := by
  unfold run
  rw [hparams, hinput, hregions]

theorem run_recorded (h : f.run = .ok output) :
    ({ f with expected := some output } : Fixture).run = .ok output :=
  (run_congr rfl rfl rfl).trans h

/-- Recording once more changes nothing. -/
theorem record_recorded (h : f.record = .ok g) : g.record = .ok g := by
  obtain ⟨output, hrun, rfl⟩ := record_eq_ok_iff.mp h
  exact record_eq_ok_iff.mpr ⟨output, run_recorded hrun, rfl⟩

/-- The report on a fixture that expects its own output. -/
theorem verify_recorded (h : f.run = .ok output) :
    ({ f with expected := some output } : Fixture).verify =
      .ok ⟨f.name, if output.isFinite then .zero false else .nan, f.tolerance⟩ :=
  verify_eq_ok_iff.mpr ⟨output, output, rfl, run_recorded h, output.maxAbsDiff_self, rfl, rfl⟩

/-- It passes if there is something to compare it with: zero is within the tolerance, and the
output is finite. -/
theorem passed_recorded_iff {name : String} {tolerance : Single} :
    (Report.mk name (if output.isFinite then .zero false else .nan) tolerance).passed = true ↔
      output.isFinite = true ∧ .zero false ≤ tolerance := by
  rw [Report.passed_iff]
  by_cases hfinite : output.isFinite = true
  · have hzero : (Binary.zero false : Single).isFinite = true := by decide
    simp only [hfinite, if_true, hzero, true_and]
  · have hnan : (Binary.nan : Single).isFinite = false := rfl
    simp only [hfinite, if_false, hnan, Bool.false_eq_true, false_and]

/--
Recording a fixture fails if its run fails, and then leaves the fixture as it was. Otherwise what is
expected is now the output of the run, and all else is as before. Verifying then finds no
difference, or one that is no number if the output is not finite throughout; so the fixture passes
if and only if its output is finite and zero is within its tolerance. Recording it once more changes
nothing.
-/
theorem record_then_verify (f : Fixture) :
    ((∃ g, recordInPlace f = .ok () g) ↔ ∃ output, f.run = .ok output) ∧
    (∀ stop g, recordInPlace f = .error stop g → g = f) ∧
    ∀ g, recordInPlace f = .ok () g → ∃ output, f.run = .ok output ∧
      g = { f with expected := some output } ∧
      (∃ r, g.verify = .ok r ∧
        r.maxAbsDiff = (if output.isFinite then .zero false else .nan) ∧
        (r.passed = true ↔ output.isFinite = true ∧ .zero false ≤ f.tolerance)) ∧
      recordInPlace g = .ok () g := by
  refine ⟨⟨?succeeds, ?runs⟩, ?unchanged, ?recorded⟩
  case succeeds =>
    rintro ⟨g, hg⟩
    obtain ⟨output, hrun, -⟩ := recordInPlace_eq_ok_iff.mp hg
    exact ⟨output, hrun⟩
  case runs =>
    rintro ⟨output, hrun⟩
    exact ⟨_, recordInPlace_eq_ok_iff.mpr ⟨output, hrun, rfl⟩⟩
  case unchanged =>
    intro stop g hg
    exact (recordInPlace_eq_error_iff.mp hg).2
  case recorded =>
    intro g hg
    have hagain := record_recorded (recordInPlace_eq_ok_iff_record.mp hg)
    obtain ⟨output, hrun, rfl⟩ := recordInPlace_eq_ok_iff.mp hg
    exact ⟨output, hrun, rfl, ⟨_, verify_recorded hrun, rfl, passed_recorded_iff⟩,
      recordInPlace_eq_ok_iff_record.mpr hagain⟩

/-- A pixel so bright that two samples of it have no finite sum, pooled in the box of `minusZero`. -/
def overflowing : Fixture where
  name := "overflowing"
  description := none
  params := { Params.ofGrid 1 1 with samplingRatio := 2 }
  input := ⟨⟨[1, 1, 1, 1]⟩, #[Decimal.toBinary false ⟨3, 38⟩], by decide⟩
  regions := minusZero.regions
  expected := none
  tolerance := defaultTolerance

/-- The output is infinite. -/
theorem run_overflowing : ∃ output, overflowing.run = .ok output ∧ output.isFinite = false :=
  exists_ok_of_toOption_map (by decide +kernel)

theorem overflowing_record_then_verify : ∃ g r, recordInPlace overflowing = .ok () g ∧
    g.verify = .ok r ∧ r.maxAbsDiff = .nan ∧ ¬ r.passed = true ∧ recordInPlace g = .ok () g := by
  obtain ⟨output, hrun, hinfinite⟩ := run_overflowing
  obtain ⟨hrecorded, -, hverify⟩ := record_then_verify overflowing
  obtain ⟨g, hg⟩ := hrecorded.mpr ⟨output, hrun⟩
  obtain ⟨output', hrun', -, ⟨r, hr, hdiff, hpassed⟩, hagain⟩ := hverify g hg
  obtain rfl := Except.ok.inj (hrun.symm.trans hrun')
  rw [hinfinite] at hdiff hpassed
  refine ⟨g, r, hg, hr, hdiff, ?_, hagain⟩
  simp [hpassed]

end RegionPooling.Fixture
