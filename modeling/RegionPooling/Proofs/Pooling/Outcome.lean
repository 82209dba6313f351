import RegionPooling.Proofs.Failures
import RegionPooling.Proofs.Pooling.Schedule

/-!
# A run does everything or nothing

A run ends in one of two ways. It refuses what it is given, and then the output buffer is as
it was. Or it goes through, and then the buffer holds nothing of what it was: every element
is that of a site, and a site's number does not depend on the buffer.

What a run refuses is a violated precondition. Of these it never reports an axis that a shape
does not have, although every size is looked up by its axis, because the ranks are checked
first; and it knows no parameters. `Refuses` says this of a single check, and a run is put
together from checks by `Refuses.bind`.

Main results:

* `Job.refuses_check` — what the checks of a run can report.
* `Job.alignIn_of_size_eq` — after the checks, the buffer that comes in does not matter.
* `Job.all_or_nothing` — both, for every schedule of the regions.
-/

namespace RegionPooling

/-- A violated precondition of a run: neither a wrong axis nor a wrong parameter. -/
structure Error.IsRefusal (error : Error) : Prop where
  precondition : error.isPrecondition = true
  not_axis : ∀ axis rank, error ≠ .axisOutOfRange axis rank
  not_parameter : ∀ name reason, error ≠ .invalidParameter name reason

/-- If this fails, it is with a refusal. -/
def Refuses {α : Type} (x : Except Error α) : Prop := ∀ error, x = .error error → error.IsRefusal

namespace Refuses

variable {α β : Type}

theorem ok (a : α) : Refuses (.ok a) := FailsOnly.ok a

theorem error {e : Error} (h : e.IsRefusal) : Refuses (.error e : Except Error α) :=
  FailsOnly.error h

/-- One check after another; the second one may rely on what the first one found. -/
theorem bind {x : Except Error α} {f : α → Except Error β} (hx : Refuses x)
    (hf : ∀ a, x = .ok a → Refuses (f a)) : Refuses (x >>= f) :=
  FailsOnly.bind hx hf

theorem forM {xs : List α} {f : α → Except Error Unit} (h : ∀ x ∈ xs, Refuses (f x)) :
    Refuses (xs.forM f) :=
  FailsOnly.forM h

end Refuses

/-! ## The checks -/

namespace Shape

/-- Below the rank of a shape every axis has a size. -/
theorem refuses_size {s : Shape} {axis : Nat} (h : axis < s.sizes.length) :
    Refuses (s.size axis) := by
  rw [Shape.size, List.getElem?_eq_getElem h]
  exact Refuses.ok _

theorem refuses_expectRank (s : Shape) (tensor : String) (rank : Nat) :
    Refuses (s.expectRank tensor rank) := by
  unfold expectRank
  split
  · exact Refuses.ok ()
  · exact Refuses.error ⟨rfl, nofun, nofun⟩

theorem refuses_count (s : Shape) : Refuses s.count := by
  unfold count
  split
  · exact Refuses.ok _
  · exact Refuses.error ⟨rfl, nofun, nofun⟩

end Shape

namespace Extents

theorem refuses_checkRecordLength (length : UInt32) : Refuses (checkRecordLength length) := by
  unfold checkRecordLength
  split
  · exact Refuses.ok ()
  · exact Refuses.error ⟨rfl, nofun, nofun⟩

theorem refuses_checkNotEmpty {input : Shape} (h : input.sizes.length = 4) :
    Refuses (checkNotEmpty input) := by
  refine Refuses.forM fun axis haxis => ?_
  have hlt : axis < input.sizes.length := by
    simp only [List.mem_cons, List.not_mem_nil, or_false] at haxis
    omega
  refine Refuses.bind (Shape.refuses_size hlt) fun size _ => ?_
  split
  · exact Refuses.error ⟨rfl, nofun, nofun⟩
  · exact Refuses.ok ()

theorem refuses_checkDimension (what : String) (expected : UInt32) {s : Shape} {axis : Nat}
    (h : axis < s.sizes.length) : Refuses (checkDimension what expected s axis) := by
  refine Refuses.bind (Shape.refuses_size h) fun actual _ => ?_
  split
  · exact Refuses.error ⟨rfl, nofun, nofun⟩
  · exact Refuses.ok ()

theorem refuses_checkBuffer (tensor : String) (v : View) : Refuses (checkBuffer tensor v) := by
  refine Refuses.bind (Shape.refuses_count v.shape) fun expected _ => ?_
  split
  · exact Refuses.error ⟨rfl, nofun, nofun⟩
  · exact Refuses.ok ()

/-- With the ranks known, every size is found. -/
theorem refuses_resolve (input regions output : View) :
    Refuses (resolve input regions output) := by
  refine Refuses.bind (Shape.refuses_expectRank _ _ _) fun _ hinput => ?_
  refine Refuses.bind (Shape.refuses_expectRank _ _ _) fun _ hregions => ?_
  refine Refuses.bind (Shape.refuses_expectRank _ _ _) fun _ houtput => ?_
  rw [Shape.expectRank_eq_ok_iff] at hinput hregions houtput
  refine Refuses.bind (Shape.refuses_size (by omega)) fun _ _ => ?_
  refine Refuses.bind (refuses_checkRecordLength _) fun _ _ => ?_
  refine Refuses.bind (refuses_checkNotEmpty hinput) fun _ _ => ?_
  refine Refuses.bind (Shape.refuses_size (by omega)) fun _ _ => ?_
  refine Refuses.bind (Shape.refuses_size (by omega)) fun _ _ => ?_
  refine Refuses.bind (refuses_checkDimension _ _ (by omega)) fun _ _ => ?_
  refine Refuses.bind (refuses_checkDimension _ _ (by omega)) fun _ _ => ?_
  refine Refuses.bind (refuses_checkBuffer _ _) fun _ _ => ?_
  refine Refuses.bind (refuses_checkBuffer _ _) fun _ _ => ?_
  refine Refuses.bind (refuses_checkBuffer _ _) fun _ _ => ?_
  refine Refuses.bind (Shape.refuses_size (by omega)) fun _ _ => ?_
  refine Refuses.bind (Shape.refuses_size (by omega)) fun _ _ => ?_
  refine Refuses.bind (Shape.refuses_size (by omega)) fun _ _ => ?_
  refine Refuses.bind (Shape.refuses_size (by omega)) fun _ _ => ?_
  refine Refuses.bind (Shape.refuses_size (by omega)) fun _ _ => ?_
  exact Refuses.ok _

theorem refuses_checkBatchIndices (e : Extents) (regions : Array Single) :
    Refuses (e.checkBatchIndices regions) := by
  unfold checkBatchIndices
  split
  · refine Refuses.forM fun region _ => ?_
    dsimp only
    split
    · exact Refuses.error ⟨rfl, nofun, nofun⟩
    · exact Refuses.ok ()
  · exact Refuses.ok ()

/-- Of the output, only the size of the buffer is looked at. -/
theorem resolve_of_size_eq (input regions : View) (shape : Shape) {a b : Array Single}
    (h : a.size = b.size) : resolve input regions ⟨shape, a⟩ = resolve input regions ⟨shape, b⟩ := by
  have hbuffer : checkBuffer "output" ⟨shape, a⟩ = checkBuffer "output" ⟨shape, b⟩ := by
    simp only [checkBuffer, h]
  simp only [resolve, hbuffer]

end Extents

/-! ## Runs -/

namespace Job

theorem refuses_check (job : Job) (output : Array Single) : Refuses (job.check output) := by
  refine Refuses.bind (Extents.refuses_resolve _ _ _) fun e _ => ?_
  refine Refuses.bind (Extents.refuses_checkBatchIndices _ _) fun _ _ => ?_
  exact Refuses.ok e

theorem check_of_size_eq (job : Job) {a b : Array Single} (h : a.size = b.size) :
    job.check a = job.check b := by
  rw [check, check, Extents.resolve_of_size_eq _ _ _ h]

/-- A run that refuses leaves the buffer alone. -/
theorem alignIn_eq_error {job : Job} {schedule : Nat → List Nat} {output : Array Single}
    {error : Error} (h : (job.alignIn schedule output).1 = .error error) :
    job.check output = .error error ∧ (job.alignIn schedule output).2 = output := by
  unfold alignIn at h ⊢
  cases hcheck : job.check output with
  | error other =>
    rw [hcheck] at h
    cases h
    exact ⟨rfl, rfl⟩
  | ok e =>
    rw [hcheck] at h
    dsimp only at h
    split at h
    · cases h
    · cases h

/-- Of buffers of one size a run that goes through makes the same. -/
theorem align_of_size_eq {job : Job} {a b : Array Single} (hok : (job.align a).1 = .ok ())
    (h : a.size = b.size) : job.align a = job.align b := by
  obtain ⟨e, hcheck⟩ := align_eq_ok_iff.mp hok
  have hcheck' : job.check b = .ok e := check_of_size_eq job h ▸ hcheck
  refine Prod.ext ?_ ?_
  · rw [align_of_check hcheck, align_of_check hcheck']
  · have ha : (job.align a).2.size = e.regions * e.slabSize :=
      (size_alignIn ..).trans (fits_of_check hcheck).output_size
    have hb : (job.align b).2.size = e.regions * e.slabSize :=
      (size_alignIn ..).trans (fits_of_check hcheck').output_size
    exact ext_of_sites ha hb fun site hsite =>
      (getElem?_align hcheck hsite).trans (getElem?_align hcheck' hsite).symm

/--
A run that fails leaves the buffer as it was and reports a violated precondition, which is
neither a wrong axis nor a wrong parameter. A run that goes through leaves a buffer in which
nothing depends on what it held before. Both hold in whatever order the regions are pooled,
and so of the run in turn.
-/
theorem all_or_nothing (job : Job) (schedule : Nat → List Nat)
    (hschedule : ∀ count, (schedule count).Perm (List.range count)) (output : Array Single) :
    (∀ error, (job.alignIn schedule output).1 = .error error →
      (job.alignIn schedule output).2 = output ∧ error.isPrecondition = true ∧
        (∀ axis rank, error ≠ .axisOutOfRange axis rank) ∧
        ∀ name reason, error ≠ .invalidParameter name reason) ∧
    ((job.alignIn schedule output).1 = .ok () → ∀ other : Array Single,
      other.size = output.size → job.alignIn schedule other = job.alignIn schedule output) := by
  refine ⟨fun error herror => ?_, fun hok other hsize => ?_⟩
  · obtain ⟨hcheck, hbuffer⟩ := alignIn_eq_error herror
    have hrefusal := refuses_check job output error hcheck
    exact ⟨hbuffer, hrefusal.precondition, hrefusal.not_axis, hrefusal.not_parameter⟩
  · rw [alignIn_eq_align job hschedule] at hok ⊢
    rw [alignIn_eq_align job hschedule]
    exact (align_of_size_eq hok hsize.symm).symm

/-- The boxes of `nestedBoxes` with batch indices, of which the second one is no batch. -/
def strayBox : Job :=
  { nestedBoxes with
    regions := ⟨⟨[2, 5]⟩, ([0, 0, 0, 4, 4, 1, 1, 1, 3, 3].map Binary.ofNat).toArray⟩ }

-- The checks are evaluated as far as the batch index of the second record.
set_option maxRecDepth 4000 in
/-- The stray box leaves the buffer as it was, and the nested ones replace all that was in it. -/
theorem nestedBoxes_all_or_nothing :
    (∀ count, (List.range count).reverse.Perm (List.range count)) ∧
      (strayBox.alignIn (fun count => (List.range count).reverse) nestedMaps).1 =
        .error (.batchIndexOutOfRange 1 (Binary.ofNat 1) 1) ∧
      (strayBox.alignIn (fun count => (List.range count).reverse) nestedMaps).2 = nestedMaps ∧
      (nestedBoxes.alignIn (fun count => (List.range count).reverse) nestedMaps).1 = .ok () ∧
      nestedBoxes.alignIn (fun count => (List.range count).reverse) (Array.replicate 8 .nan) =
        nestedBoxes.alignIn (fun count => (List.range count).reverse) nestedMaps := by
  have hperm (count : Nat) : (List.range count).reverse.Perm (List.range count) :=
    List.reverse_perm _
  have herror : (strayBox.alignIn (fun count => (List.range count).reverse) nestedMaps).1 =
      .error (.batchIndexOutOfRange 1 (Binary.ofNat 1) 1) := rfl
  have hok : (nestedBoxes.alignIn (fun count => (List.range count).reverse) nestedMaps).1 =
      .ok () := rfl
  have hsize : (Array.replicate 8 .nan : Array Single).size = nestedMaps.size := by
    simp [nestedMaps]
  exact ⟨hperm, herror, ((all_or_nothing strayBox _ hperm nestedMaps).1 _ herror).1, hok,
    (all_or_nothing nestedBoxes _ hperm nestedMaps).2 hok _ hsize⟩

end Job

end RegionPooling
