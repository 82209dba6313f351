import RegionPooling.Command.Execute
import RegionPooling.Proofs.Operation.Params
import RegionPooling.Proofs.Pooling.Outcome
import RegionPooling.Proofs.Tensor.Making

/-!
# Preparing agrees with the checks of a run

An operation looks at shapes twice. `Operation.prepare` infers the shape of the output before
there is a buffer for it; `Extents.resolve` checks shapes and buffers when the run begins. The two
make different checks: only the run looks at buffers and at the rank and the sizes of the
output, and only preparing has to make up the output. Both come down to one description of the
sizes, `Operation.Prepares`, and a tensor has a buffer of the right length by its type. So a
run finds nothing that preparing has let pass, except for batch indices, which stand in the
records and not in a shape. In turn preparing refuses nothing for which there is a run.

Between the two an output has to be made, and this is where they part. Preparing accepts every
output with an `addressable` number of elements, but an element has four bytes, and a buffer has no
more than `Tensor.maxElements` of them. Beyond this bound pooling panics, whatever the regions are
(`Operation.largestGrid_panics`). That there is less memory than the bound is left out.

Main results:

* `Operation.prepare_eq_ok_iff` — what preparing accepts, and the shape it infers.
* `Operation.Prepares.fits`, `Operation.prepares_of_fits` — it is what fits, with the grid of the
  operation.
* `Operation.execute_of_prepare`, `Operation.execute_eq_capacityOverflow_iff` — pooling what was
  prepared for, up to the bound and beyond it.
* `Operation.prepare_agrees` — the two agree up to the bound and no further, and the command that
  prints a shape prints this one.
-/

namespace RegionPooling

/-! ## After the shapes -/

theorem Extents.checkBatchIndices_eq_error {e : Extents} {regions : Array Single} {error : Error}
    (h : e.checkBatchIndices regions = .error error) : ∃ region < e.regions,
      error = .batchIndexOutOfRange region (e.entry regions region 0) (UInt32.ofNat e.batches) := by
  unfold checkBatchIndices at h
  split at h
  · obtain ⟨region, hregion, h⟩ := forM_eq_error h
    refine ⟨region, List.mem_range.mp hregion, ?_⟩
    dsimp only at h
    split at h
    · cases h
      rfl
    · cases h
  · cases h

/-- A run whose sizes are resolved can only go wrong at a batch index. -/
theorem Job.eq_batchIndex_of_align {job : Job} {output : Array Single} {e : Extents} {error : Error}
    (hresolve : Extents.resolve job.input job.regions ⟨job.output, output⟩ = .ok e)
    (h : (job.align output).1 = .error error) : ∃ region < e.regions,
      error = .batchIndexOutOfRange region (e.entry job.regions.data region 0)
        (UInt32.ofNat e.batches) := by
  obtain ⟨hcheck, -⟩ := alignIn_eq_error h
  rcases bind_eq_error.mp hcheck with hrefused | ⟨resolved, hresolved, hcheck⟩
  · rw [hresolve] at hrefused
    cases hrefused
  · obtain rfl : e = resolved := Except.ok.inj (hresolve.symm.trans hresolved)
    rcases bind_eq_error.mp hcheck with hbatches | ⟨_, _, hreturn⟩
    · exact Extents.checkBatchIndices_eq_error hbatches
    · cases hreturn

namespace Operation

variable {op : Operation}

/-! ## What preparing accepts -/

/--
The sizes of a run of the operation, as far as they can be told from shapes. The grid is the
operation's own; every other size of the output is taken from what comes in.
-/
structure Prepares (op : Operation) (input regions output : Shape) (e : Extents) : Prop where
  input_sizes : input.sizes.map UInt32.toNat = [e.batches, e.height, e.width, e.depth]
  regions_sizes : regions.sizes.map UInt32.toNat = [e.regions, e.recordLength]
  output_sizes : output.sizes.map UInt32.toNat = [e.regions, e.rows, e.columns, e.depth]
  rows : e.rows = op.params.outputHeight.toNat
  columns : e.columns = op.params.outputWidth.toNat
  recordLength : e.recordLength = 4 ∨ e.recordLength = 5
  batches_pos : 0 < e.batches
  height_pos : 0 < e.height
  width_pos : 0 < e.width
  input_count : ∃ n, input.count? = some n
  output_count : ∃ n, output.count? = some n

theorem prepares_of_prepare {input regions output : Shape}
    (h : op.prepare input regions = .ok output) : ∃ e, op.Prepares input regions output e := by
  -- One step for each check, in the order of the checks.
  obtain ⟨_, hinputRank, h⟩ := bind_eq_ok.mp h
  obtain ⟨_, hregionsRank, h⟩ := bind_eq_ok.mp h
  obtain ⟨recordLength, hrecordLength, h⟩ := bind_eq_ok.mp h
  obtain ⟨_, hcheckLength, h⟩ := bind_eq_ok.mp h
  obtain ⟨_, hnotEmpty, h⟩ := bind_eq_ok.mp h
  obtain ⟨count, hcount, h⟩ := bind_eq_ok.mp h
  obtain ⟨depth, hdepth, h⟩ := bind_eq_ok.mp h
  obtain ⟨inputCount, hinputCount, h⟩ := bind_eq_ok.mp h
  obtain ⟨outputCount, houtputCount, h⟩ := bind_eq_ok.mp h
  cases h
  rw [Shape.size_eq_ok_iff] at hrecordLength hcount hdepth
  rw [Shape.expectRank_eq_ok_iff] at hinputRank hregionsRank
  rw [Shape.count_eq_ok_iff] at hinputCount houtputCount
  have hnotEmpty := Extents.checkNotEmpty_eq_ok hnotEmpty
  obtain ⟨batches, hbatches, hbatchesPos⟩ := hnotEmpty 0 (by decide)
  obtain ⟨height, hheight, hheightPos⟩ := hnotEmpty 1 (by decide)
  obtain ⟨width, hwidth, hwidthPos⟩ := hnotEmpty 2 (by decide)
  have hinput : input.sizes = [batches, height, width, depth] :=
    Extents.quadruple_eq_of_getElem? hinputRank hbatches hheight hwidth hdepth
  have hregions : regions.sizes = [count, recordLength] :=
    Extents.pair_eq_of_getElem? hregionsRank hcount hrecordLength
  refine ⟨⟨batches.toNat, height.toNat, width.toNat, depth.toNat, op.params.outputHeight.toNat,
    op.params.outputWidth.toNat, count.toNat, recordLength.toNat⟩, ?_⟩
  exact {
    input_sizes := by rw [hinput]; rfl
    regions_sizes := by rw [hregions]; rfl
    output_sizes := rfl
    rows := rfl
    columns := rfl
    recordLength := Extents.checkRecordLength_eq_ok_iff.mp hcheckLength
    batches_pos := hbatchesPos
    height_pos := hheightPos
    width_pos := hwidthPos
    input_count := ⟨inputCount, hinputCount⟩
    output_count := ⟨outputCount, houtputCount⟩ }

theorem prepare_of_prepares {input regions output : Shape} {e : Extents}
    (h : op.Prepares input regions output e) : op.prepare input regions = .ok output := by
  obtain ⟨inputSizes⟩ := input
  obtain ⟨regionsSizes⟩ := regions
  obtain ⟨outputSizes⟩ := output
  obtain ⟨hinput, hregions, houtput, hrows, hcolumns, hlength, hbatches, hheight, hwidth,
    ⟨inputCount, hinputCount⟩, ⟨outputCount, houtputCount⟩⟩ := h
  obtain ⟨batches, height, width, depth, rfl, hbatches', hheight', hwidth', hdepth'⟩ :=
    Extents.exists_quadruple hinput
  obtain ⟨count, recordLength, rfl, hcount', hlength'⟩ := Extents.exists_pair hregions
  obtain ⟨regions, rows, columns, channels, rfl, hregions', hrows', hcolumns', hchannels'⟩ :=
    Extents.exists_quadruple houtput
  -- The sizes of the output are those that preparing puts together.
  obtain rfl : regions = count := UInt32.toNat_inj.mp (by omega)
  obtain rfl : channels = depth := UInt32.toNat_inj.mp (by omega)
  obtain rfl : rows = op.params.outputHeight := UInt32.toNat_inj.mp (by omega)
  obtain rfl : columns = op.params.outputWidth := UInt32.toNat_inj.mp (by omega)
  refine bind_eq_ok.mpr ⟨(), rfl, bind_eq_ok.mpr ⟨(), rfl, bind_eq_ok.mpr ⟨recordLength, rfl, ?_⟩⟩⟩
  refine bind_eq_ok.mpr ⟨(), Extents.checkRecordLength_eq_ok_iff.mpr (by omega), ?_⟩
  refine bind_eq_ok.mpr ⟨(), ?_, ?_⟩
  · exact Extents.checkNotEmpty_eq_ok_of (by omega) (by omega) (by omega)
  refine bind_eq_ok.mpr ⟨regions, rfl, bind_eq_ok.mpr ⟨channels, rfl, ?_⟩⟩
  refine bind_eq_ok.mpr ⟨inputCount, Shape.count_eq_ok_iff.mpr hinputCount, ?_⟩
  exact bind_eq_ok.mpr ⟨outputCount, Shape.count_eq_ok_iff.mpr houtputCount, rfl⟩

/-- Preparing accepts exactly the shapes that sizes are described for, and infers the output. -/
theorem prepare_eq_ok_iff {input regions output : Shape} :
    op.prepare input regions = .ok output ↔ ∃ e, op.Prepares input regions output e :=
  ⟨prepares_of_prepare, fun ⟨_, h⟩ => prepare_of_prepares h⟩

/-- Of what it is given, preparing refuses what violates a precondition, never a parameter. -/
theorem refuses_prepare (op : Operation) (input regions : Shape) :
    Refuses (op.prepare input regions) := by
  refine Refuses.bind (Shape.refuses_expectRank _ _ _) fun _ hinput => ?_
  refine Refuses.bind (Shape.refuses_expectRank _ _ _) fun _ hregions => ?_
  -- With the ranks known, every size is found.
  rw [Shape.expectRank_eq_ok_iff] at hinput hregions
  refine Refuses.bind (Shape.refuses_size (by omega)) fun _ _ => ?_
  refine Refuses.bind (Extents.refuses_checkRecordLength _) fun _ _ => ?_
  refine Refuses.bind (Extents.refuses_checkNotEmpty hinput) fun _ _ => ?_
  refine Refuses.bind (Shape.refuses_size (by omega)) fun _ _ => ?_
  refine Refuses.bind (Shape.refuses_size (by omega)) fun _ _ => ?_
  refine Refuses.bind (Shape.refuses_count _) fun _ _ => ?_
  refine Refuses.bind (Shape.refuses_count _) fun _ _ => ?_
  exact Refuses.ok _

/-! ## What fits -/

/-- Tensors have as many elements as their shapes, so nothing is left to fit. -/
theorem Prepares.fits {input regions output : Tensor} {e : Extents}
    (h : op.Prepares input.shape regions.shape output.shape e) :
    e.Fits ⟨input.shape, input.data⟩ ⟨regions.shape, regions.data⟩ ⟨output.shape, output.data⟩ :=
  { input_sizes := h.input_sizes
    regions_sizes := h.regions_sizes
    output_sizes := h.output_sizes
    recordLength := h.recordLength
    batches_pos := h.batches_pos
    height_pos := h.height_pos
    width_pos := h.width_pos
    input_count := input.count_eq
    regions_count := regions.count_eq
    output_count := output.count_eq }

/-- Sizes that fit an output with the grid of the operation are sizes that it prepares for. -/
theorem prepares_of_fits {input regions output : View} {e : Extents}
    (h : e.Fits input regions output)
    (hheight : output.shape.sizes[1]? = some op.params.outputHeight)
    (hwidth : output.shape.sizes[2]? = some op.params.outputWidth) :
    op.Prepares input.shape regions.shape output.shape e := by
  obtain ⟨count, rows, columns, depth, hsizes, -, hrows, hcolumns, -⟩ :=
    Extents.exists_quadruple h.output_sizes
  rw [hsizes] at hheight hwidth
  obtain rfl : rows = op.params.outputHeight := Option.some.inj hheight
  obtain rfl : columns = op.params.outputWidth := Option.some.inj hwidth
  exact {
    input_sizes := h.input_sizes
    regions_sizes := h.regions_sizes
    output_sizes := h.output_sizes
    rows := hrows.symm
    columns := hcolumns.symm
    recordLength := h.recordLength
    batches_pos := h.batches_pos
    height_pos := h.height_pos
    width_pos := h.width_pos
    input_count := ⟨_, h.input_count⟩
    output_count := ⟨_, h.output_count⟩ }

/-- The output that was prepared for has a number of elements. -/
theorem exists_count_of_prepare {input regions shape : Shape}
    (h : op.prepare input regions = .ok shape) : ∃ count, shape.count? = some count := by
  obtain ⟨_, hprepares⟩ := prepares_of_prepare h
  exact hprepares.output_count

/-- What is prepared for is resolved, with a buffer of zeros as the output. -/
theorem resolve_zeros_of_prepare {input regions : Tensor} {shape : Shape} {count : Nat}
    (h : op.prepare input.shape regions.shape = .ok shape) (hcount : shape.count? = some count)
    (hmax : count ≤ Tensor.maxElements) :
    ∃ zeros e, Tensor.zeros shape = .ok zeros ∧ zeros.shape = shape ∧
      Extents.resolve ⟨input.shape, input.data⟩ ⟨regions.shape, regions.data⟩
        ⟨shape, zeros.data⟩ = .ok e := by
  obtain ⟨e, hprepares⟩ := prepares_of_prepare h
  obtain ⟨zeros, hzeros, rfl⟩ := Tensor.tabulate_eq_ok hcount hmax
  exact ⟨zeros, e, hzeros, rfl, Extents.resolve_of_fits hprepares.fits⟩

/-- There is no run on an output with the grid of the operation that preparing refuses. -/
theorem align_fails_of_prepare {input regions : View} {error : Error}
    (h : op.prepare input.shape regions.shape = .error error) (sampling : Sampling) (output : Shape)
    (buffer : Array Single) (hheight : output.sizes[1]? = some op.params.outputHeight)
    (hwidth : output.sizes[2]? = some op.params.outputWidth) :
    ∃ failure, (Job.align ⟨input, regions, sampling, output⟩ buffer).1 = .error failure := by
  cases hrun : (Job.align ⟨input, regions, sampling, output⟩ buffer).1 with
  | error failure => exact ⟨failure, rfl⟩
  | ok _ =>
    exfalso
    obtain ⟨e, hcheck⟩ := Job.align_eq_ok_iff.mp hrun
    have hprepares := prepares_of_fits (Job.fits_of_check hcheck) hheight hwidth
    have hprepare := prepare_of_prepares hprepares
    rw [h] at hprepare
    cases hprepare

/-! ## Executing -/

/-- Up to the bound on buffers, only a batch index can be wrong with what is prepared for. -/
theorem execute_of_prepare {input regions : Tensor} {shape : Shape} {count : Nat}
    (h : op.prepare input.shape regions.shape = .ok shape) (hcount : shape.count? = some count)
    (hmax : count ≤ Tensor.maxElements) :
    (∃ pooled, op.execute input regions = .ok pooled ∧ pooled.shape = shape) ∨
      ∃ region index batches, op.execute input regions =
        .error (.failed (.batchIndexOutOfRange region index batches)) := by
  obtain ⟨zeros, e, hzeros, rfl, hresolve⟩ := resolve_zeros_of_prepare h hcount hmax
  have hshape : (op.prepare input.shape regions.shape).mapError Stop.failed = .ok zeros.shape :=
    mapError_eq_ok.mpr h
  cases hrun : ((op.job input regions zeros.shape).align zeros.data).1 with
  | ok _ =>
    left
    exact ⟨_, bind_eq_ok.mpr ⟨zeros.shape, hshape, bind_eq_ok.mpr ⟨zeros, hzeros,
      bind_eq_ok.mpr ⟨(), mapError_eq_ok.mpr hrun, rfl⟩⟩⟩, rfl⟩
  | error error =>
    right
    obtain ⟨region, -, rfl⟩ := Job.eq_batchIndex_of_align hresolve hrun
    exact ⟨region, _, _, bind_eq_error.mpr (.inr ⟨zeros.shape, hshape,
      bind_eq_error.mpr (.inr ⟨zeros, hzeros,
        bind_eq_error.mpr (.inl (mapError_eq_error.mpr ⟨_, hrun, rfl⟩))⟩)⟩)⟩

/-- What preparing refuses is refused with the same error when it is executed. -/
theorem execute_of_refused {input regions : Tensor} {error : Error}
    (h : op.prepare input.shape regions.shape = .error error) :
    op.execute input regions = .error (.failed error) :=
  bind_eq_error.mpr (.inl (mapError_eq_error.mpr ⟨error, h, rfl⟩))

/-- Beyond the bound on buffers there is no output to write to. -/
theorem execute_eq_capacityOverflow {input regions : Tensor} {shape : Shape} {count : Nat}
    (h : op.prepare input.shape regions.shape = .ok shape) (hcount : shape.count? = some count)
    (hmax : Tensor.maxElements < count) :
    op.execute input regions = .error .capacityOverflow :=
  bind_eq_error.mpr (.inr ⟨shape, mapError_eq_ok.mpr h,
    bind_eq_error.mpr (.inl (Tensor.tabulate_eq_capacityOverflow hcount hmax))⟩)

/-- The inferred output has more elements than a buffer can have. -/
def Oversized (op : Operation) (input regions : Shape) : Prop :=
  ∃ shape count, op.prepare input regions = .ok shape ∧ shape.count? = some count ∧
    Tensor.maxElements < count

/-- Pooling panics for the size of its output, and for nothing else. -/
theorem execute_eq_capacityOverflow_iff {input regions : Tensor} :
    op.execute input regions = .error .capacityOverflow ↔
      op.Oversized input.shape regions.shape := by
  constructor
  · intro h
    cases hprepare : op.prepare input.shape regions.shape with
    | error error =>
      rw [execute_of_refused hprepare] at h
      cases h
    | ok shape =>
      obtain ⟨count, hcount⟩ := exists_count_of_prepare hprepare
      refine ⟨shape, count, hprepare, hcount, Nat.lt_of_not_le fun hmax => ?_⟩
      rcases execute_of_prepare hprepare hcount hmax with ⟨_, hok, -⟩ | ⟨_, _, _, hfailed⟩
      · rw [h] at hok
        cases hok
      · rw [h] at hfailed
        cases hfailed
  · rintro ⟨shape, count, hprepare, hcount, hmax⟩
    exact execute_eq_capacityOverflow hprepare hcount hmax

/-- What is pooled is the buffer of a run that went through. -/
theorem align_of_execute {input regions pooled : Tensor}
    (h : op.execute input regions = .ok pooled) : ∃ zeros : Tensor,
      ((op.job input regions zeros.shape).align zeros.data).1 = .ok () ∧
        pooled.data = ((op.job input regions zeros.shape).align zeros.data).2 := by
  obtain ⟨_, -, h⟩ := bind_eq_ok.mp h
  obtain ⟨zeros, -, h⟩ := bind_eq_ok.mp h
  obtain ⟨_, hrun, ⟨⟩⟩ := bind_eq_ok.mp h
  exact ⟨zeros, mapError_eq_ok.mp hrun, rfl⟩

theorem refuses_execute (op : Operation) (input regions : Tensor) :
    FailsOnly (Stop.Only Error.IsRefusal) (op.execute input regions) := by
  refine .bind (Stop.failsOnly_mapError (refuses_prepare op _ _)) fun shape _ => ?_
  refine .bind (Tensor.failsOnly_tabulate ⟨rfl, nofun, nofun⟩) fun output _ => ?_
  refine .bind (Stop.failsOnly_mapError ?_) fun _ _ => .ok _
  intro error h
  exact Job.refuses_check _ _ error (Job.alignIn_eq_error h).1

/-! ## Printing the shape -/

/-- Of its operation the command only knows the grid, and no more is needed to prepare. -/
theorem printShape_eq (op : Operation) (input regions : Shape) :
    Command.printShape input regions op.params.outputHeight op.params.outputWidth =
      match op.prepare input regions with
      | .ok shape => .printed (shape.text ++ "\n")
      | .error error => .failed "failed to infer output shape" error "" := by
  have hvalid := Params.validate_eq_ok_iff.mpr
    (Params.usable_ofGrid op.usable.outputHeight_ne_zero op.usable.outputWidth_ne_zero)
  unfold Command.printShape
  rw [ofParams_eq_ok hvalid]
  rfl

/-! ## Both ways -/

/--
What is prepared for has a number of elements. If a buffer can have as many, the shapes are resolved
with a buffer of zeros, and executing gives a tensor of the inferred shape or reports a batch index;
if not, executing panics. What preparing refuses has no run on an output with the grid of the
operation, and executing reports the same refusal. The command prints what is inferred.
-/
theorem prepare_agrees (op : Operation) (input regions : Tensor) :
    (∀ shape, op.prepare input.shape regions.shape = .ok shape →
      ∃ count, shape.count? = some count ∧
        (count ≤ Tensor.maxElements →
          (∃ zeros e, Tensor.zeros shape = .ok zeros ∧ zeros.shape = shape ∧
            Extents.resolve ⟨input.shape, input.data⟩ ⟨regions.shape, regions.data⟩
              ⟨shape, zeros.data⟩ = .ok e) ∧
          ((∃ pooled, op.execute input regions = .ok pooled ∧ pooled.shape = shape) ∨
            ∃ region index batches, op.execute input regions =
              .error (.failed (.batchIndexOutOfRange region index batches)))) ∧
        (Tensor.maxElements < count → op.execute input regions = .error .capacityOverflow)) ∧
    (∀ error, op.prepare input.shape regions.shape = .error error →
      (∀ (sampling : Sampling) (output : Shape) (buffer : Array Single),
        output.sizes[1]? = some op.params.outputHeight →
        output.sizes[2]? = some op.params.outputWidth →
        ∃ failure, (Job.align ⟨⟨input.shape, input.data⟩, ⟨regions.shape, regions.data⟩, sampling,
          output⟩ buffer).1 = .error failure) ∧
      op.execute input regions = .error (.failed error)) ∧
    ∀ (m : Type → Type) [Monad m] (disk : Disk m) (remarks : Command.Remarks) (s t : Shape),
      Command.execute disk remarks (.shape s t op.params.outputHeight op.params.outputWidth) =
        pure (match op.prepare s t with
          | .ok shape => .printed (shape.text ++ "\n")
          | .error error => .failed "failed to infer output shape" error "") := by
  refine ⟨?prepared, ?refused, ?printed⟩
  case prepared =>
    intro shape h
    obtain ⟨count, hcount⟩ := exists_count_of_prepare h
    refine ⟨count, hcount, fun hmax => ?_, execute_eq_capacityOverflow h hcount⟩
    exact ⟨resolve_zeros_of_prepare h hcount hmax, execute_of_prepare h hcount hmax⟩
  case refused =>
    intro error h
    refine ⟨?_, execute_of_refused h⟩
    intro sampling output buffer hheight hwidth
    exact align_fails_of_prepare h sampling output buffer hheight hwidth
  case printed =>
    intro m _ disk remarks s t
    exact congrArg pure (printShape_eq op s t)

/-- Four cells for each region, at unit scale. -/
def twoByTwo : Operation where
  params := .ofGrid 2 2
  valid := Params.validate_eq_ok_iff.mpr (Params.usable_ofGrid (by decide) (by decide))

/-- Two batches of four pixels. -/
def twoSquares : Tensor := ⟨⟨[2, 2, 2, 1]⟩, ((List.range 8).map Binary.ofNat).toArray, rfl⟩

/-- A box for each of two batches. -/
def twoBoxes : Tensor := ⟨⟨[2, 5]⟩, ([0, 0, 0, 2, 2, 1, 0, 0, 2, 2].map Binary.ofNat).toArray, rfl⟩

/-- A record that is too short to be a box. -/
def corner : Tensor := ⟨⟨[1, 3]⟩, ([0, 0, 2].map Binary.ofNat).toArray, rfl⟩

/-- The boxes are prepared for and the corner is refused, and so it goes when they are pooled. -/
theorem twoByTwo_prepare_agrees :
    twoByTwo.prepare twoSquares.shape twoBoxes.shape = .ok ⟨[2, 2, 2, 1]⟩ ∧
      ((∃ pooled, twoByTwo.execute twoSquares twoBoxes = .ok pooled ∧
          pooled.shape = ⟨[2, 2, 2, 1]⟩) ∨
        ∃ region index batches, twoByTwo.execute twoSquares twoBoxes =
          .error (.failed (.batchIndexOutOfRange region index batches))) ∧
      twoByTwo.prepare twoSquares.shape corner.shape = .error (.wrongRecordLength 3) ∧
      twoByTwo.execute twoSquares corner = .error (.failed (.wrongRecordLength 3)) ∧
      ∃ failure, (Job.align ⟨⟨twoSquares.shape, twoSquares.data⟩, ⟨corner.shape, corner.data⟩,
        ⟨Binary.ofNat 1, 0⟩, ⟨[1, 2, 2, 1]⟩⟩ (Array.replicate 4 .nan)).1 = .error failure := by
  have hboxes : twoByTwo.prepare twoSquares.shape twoBoxes.shape = .ok ⟨[2, 2, 2, 1]⟩ := rfl
  have hcorner : twoByTwo.prepare twoSquares.shape corner.shape =
      .error (.wrongRecordLength 3) := rfl
  obtain ⟨count, hcount, hpooled, -⟩ := (prepare_agrees twoByTwo twoSquares twoBoxes).1 _ hboxes
  obtain rfl : 8 = count := Option.some.inj hcount
  obtain ⟨hfails, hrefused⟩ := (prepare_agrees twoByTwo twoSquares corner).2.1 _ hcorner
  exact ⟨hboxes, (hpooled (by decide)).2, hcorner, hrefused, hfails _ _ _ rfl rfl⟩

/-- As many cells as the sizes of a shape can say, at unit scale. -/
def largestGrid : Operation where
  params := .ofGrid 0xFFFFFFFF 0xFFFFFFFF
  valid := Params.validate_eq_ok_iff.mpr (Params.usable_ofGrid (by decide) (by decide))

/-- One pixel. -/
def lonePixel : Tensor := ⟨⟨[1, 1, 1, 1]⟩, #[Binary.ofNat 1], rfl⟩

/-- A box around it. -/
def loneBox : Tensor := ⟨⟨[1, 4]⟩, ([0, 0, 1, 1].map Binary.ofNat).toArray, rfl⟩

/-- The output is prepared for, but neither is there a tensor of its shape nor is a batch index out
of range. -/
theorem largestGrid_panics :
    largestGrid.prepare lonePixel.shape loneBox.shape = .ok ⟨[1, 0xFFFFFFFF, 0xFFFFFFFF, 1]⟩ ∧
      largestGrid.execute lonePixel loneBox = .error .capacityOverflow ∧
      ¬ ((∃ pooled, largestGrid.execute lonePixel loneBox = .ok pooled ∧
          pooled.shape = ⟨[1, 0xFFFFFFFF, 0xFFFFFFFF, 1]⟩) ∨
        ∃ region index batches, largestGrid.execute lonePixel loneBox =
          .error (.failed (.batchIndexOutOfRange region index batches))) := by
  have hprepare : largestGrid.prepare lonePixel.shape loneBox.shape =
      .ok ⟨[1, 0xFFFFFFFF, 0xFFFFFFFF, 1]⟩ := rfl
  have hcount : Shape.count? ⟨[1, 0xFFFFFFFF, 0xFFFFFFFF, 1]⟩ = some (0xFFFFFFFF * 0xFFFFFFFF) := by
    decide
  have hpanics := execute_eq_capacityOverflow hprepare hcount (by decide)
  refine ⟨hprepare, hpanics, ?_⟩
  rw [hpanics]
  rintro (⟨_, hok, -⟩ | ⟨_, _, _, hfailed⟩)
  · cases hok
  · cases hfailed

end Operation

end RegionPooling
