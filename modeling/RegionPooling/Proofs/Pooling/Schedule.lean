import RegionPooling.Proofs.Pooling.Layout

/-!
# Every schedule pools the same

Regions may be pooled in any order, and by several workers at once. A worker does not
compute a pooled map aside and store it: it clears the channels of a cell in the shared
output buffer, adds the samples to them one after the other and divides. So this module takes
the pooling of a region apart into its accesses. An `Update` reads one element of the buffer
and writes it back changed, and `Job.task` lists the updates of a region.

Whatever a task does happens in the pooled map of its own region (`Job.place_mem_task`), and
an element forgets what it held before, since the first update there clears it
(`Job.effect_task`). Hence only the order within a task counts. A trace is an *interleaving*
of the tasks if it keeps that order; whole tasks in some order are the coarsest such traces.

Main results:

* `Job.run_task` — a task leaves what `Job.poolInto` leaves.
* `Job.run_interleaving` — every interleaving of the tasks ends with the same buffer.
* `Job.every_schedule_eq_align` — pooling in any order, down to single accesses, is `Job.align`.
-/

namespace RegionPooling

/-! ## Accesses to a shared buffer -/

/-- An access to a shared buffer: one element is read, changed and written back. -/
structure Update where
  place : Nat
  change : Single → Single

namespace Update

/-- The buffer after an access. -/
def apply (buffer : Array Single) (u : Update) : Array Single := buffer.modify u.place u.change

/-- The buffer after a sequence of accesses. -/
def run (updates : List Update) (buffer : Array Single) : Array Single := updates.foldl apply buffer

/-- What a sequence of accesses makes of the element at a place. -/
def effect (place : Nat) (updates : List Update) (x : Single) : Single :=
  updates.foldl (fun x u => if u.place = place then u.change x else x) x

theorem size_run (updates : List Update) (buffer : Array Single) :
    (run updates buffer).size = buffer.size := by
  induction updates generalizing buffer with
  | nil => rfl
  | cons u rest ih => rw [run, List.foldl_cons, ← run, ih, apply, Array.size_modify]

/-- An element sees the accesses to its own place and no others. -/
theorem getElem?_run (updates : List Update) (buffer : Array Single) (i : Nat) :
    (run updates buffer)[i]? = buffer[i]?.map (effect i updates) := by
  induction updates generalizing buffer with
  | nil => exact (congrFun Option.map_id _).symm
  | cons u rest ih =>
    rw [run, List.foldl_cons, ← run, ih, apply, Array.getElem?_modify]
    by_cases h : u.place = i
    · rw [if_pos h, Option.map_map]
      congr 1
      funext x
      simp [effect, h]
    · rw [if_neg h]
      congr 1
      funext x
      simp [effect, h]

theorem effect_append (place : Nat) (updates others : List Update) (x : Single) :
    effect place (updates ++ others) x = effect place others (effect place updates x) :=
  List.foldl_append ..

/-- Accesses elsewhere do nothing to an element. -/
theorem effect_eq_self {place : Nat} {updates : List Update}
    (h : ∀ u ∈ updates, u.place ≠ place) (x : Single) : effect place updates x = x := by
  induction updates with
  | nil => rfl
  | cons u rest ih =>
    rw [effect, List.foldl_cons, if_neg (h u (List.mem_cons_self ..))]
    exact ih fun v hv => h v (List.mem_cons_of_mem _ hv)

/-- Of accesses to neighbouring places, one each, an element sees the one to its place. -/
theorem effect_range (first count : Nat) (change : Nat → Single → Single) {offset : Nat}
    (h : offset < count) (x : Single) :
    effect (first + offset) ((List.range count).map fun k => ⟨first + k, change k⟩) x =
      change offset x := by
  obtain ⟨rest, rfl⟩ : ∃ rest, count = offset + 1 + rest := ⟨count - (offset + 1), by omega⟩
  let update (k : Nat) : Update := ⟨first + k, change k⟩
  have hbefore : ∀ u ∈ (List.range offset).map update, u.place ≠ first + offset := by
    intro u hu
    obtain ⟨k, hk, rfl⟩ := List.mem_map.mp hu
    have := List.mem_range.mp hk
    dsimp only [update]
    omega
  have hafter : ∀ u ∈ ((List.range rest).map (offset + 1 + ·)).map update,
      u.place ≠ first + offset := by
    intro u hu
    obtain ⟨k, hk, rfl⟩ := List.mem_map.mp hu
    obtain ⟨j, -, rfl⟩ := List.mem_map.mp hk
    dsimp only [update]
    omega
  rw [List.range_add, List.range_succ, List.map_append, List.map_append, effect_append,
    effect_append, effect_eq_self hafter, effect_eq_self hbefore]
  exact if_pos rfl

end Update

/-! ## The accesses of a task -/

namespace Region

open Update (effect effect_append effect_eq_self effect_range)

/-- One access to each channel of the cell that begins at a place. -/
def channelUpdates (e : Extents) (first : Nat) (change : Nat → Single → Single) : List Update :=
  (List.range e.depth).map fun channel => ⟨first + channel, change channel⟩

/-- The accesses to a cell: it is cleared, the samples are added to it one after the other,
and it is divided by their announced number. -/
def cellUpdates (e : Extents) (input : Array Single) (r : Region) (first row column : Nat) :
    List Update :=
  channelUpdates e first (fun _ _ => .zero false)
    ++ (grid e r row column).flatMap (fun s =>
      channelUpdates e first fun channel sum => sum + s.value input channel)
    ++ channelUpdates e first (fun _ sum => sum / r.samples)

/-- The accesses to the pooled map that begins at a place, cell after cell. -/
def updates (e : Extents) (input : Array Single) (r : Region) (first : Nat) : List Update :=
  (List.range (e.rows * e.columns)).flatMap fun place =>
    cellUpdates e input r (first + place * e.depth) (place / e.columns) (place % e.columns)

variable {e : Extents} {input : Array Single} {r : Region}

theorem place_mem_channelUpdates {first : Nat} {change : Nat → Single → Single} {u : Update}
    (h : u ∈ channelUpdates e first change) : first ≤ u.place ∧ u.place < first + e.depth := by
  obtain ⟨channel, hchannel, rfl⟩ := List.mem_map.mp h
  have := List.mem_range.mp hchannel
  dsimp only
  omega

theorem place_mem_cellUpdates {first row column : Nat} {u : Update}
    (h : u ∈ cellUpdates e input r first row column) :
    first ≤ u.place ∧ u.place < first + e.depth := by
  rcases List.mem_append.mp h with h | h
  · rcases List.mem_append.mp h with h | h
    · exact place_mem_channelUpdates h
    · obtain ⟨s, -, h⟩ := List.mem_flatMap.mp h
      exact place_mem_channelUpdates h
  · exact place_mem_channelUpdates h

/-- The accesses of a pooled map stay within it. -/
theorem place_mem_updates {first : Nat} {u : Update} (h : u ∈ updates e input r first) :
    first ≤ u.place ∧ u.place < first + e.slabSize := by
  obtain ⟨place, hplace, h⟩ := List.mem_flatMap.mp h
  have hcell := place_mem_cellUpdates h
  have hnext : (place + 1) * e.depth ≤ e.slabSize :=
    Nat.mul_le_mul_right _ (List.mem_range.mp hplace)
  rw [Nat.succ_mul] at hnext
  omega

/-- The samples are added to each channel in their order. -/
theorem effect_samples (first : Nat) (samples : List Sample) {channel : Nat}
    (h : channel < e.depth) (x : Single) :
    effect (first + channel) (samples.flatMap fun s =>
      channelUpdates e first fun channel sum => sum + s.value input channel) x =
      samples.foldl (fun sum s => sum + s.value input channel) x := by
  induction samples generalizing x with
  | nil => rfl
  | cons s rest ih =>
    rw [List.flatMap_cons, effect_append, ih, channelUpdates, effect_range _ _ _ h,
      List.foldl_cons]

/-- A channel of a cell ends with its number, whatever it held before. -/
theorem effect_cellUpdates (first row column : Nat) {channel : Nat} (h : channel < e.depth)
    (x : Single) :
    some (effect (first + channel) (cellUpdates e input r first row column) x) =
      (cell e input r row column)[channel]? := by
  rw [getElem?_cell _ _ _ _ _ h, cellUpdates, effect_append, effect_append, effect_samples _ _ h]
  simp only [channelUpdates, effect_range _ _ _ h]

/-- A place of a pooled map sees the accesses of its cell only. -/
theorem effect_updates (first : Nat) {place channel : Nat} (hp : place < e.rows * e.columns)
    (hc : channel < e.depth) (x : Single) :
    some (effect (first + (place * e.depth + channel)) (updates e input r first) x) =
      (slab e input r)[place * e.depth + channel]? := by
  obtain ⟨rest, hrest⟩ : ∃ rest, e.rows * e.columns = place + 1 + rest :=
    ⟨e.rows * e.columns - (place + 1), by omega⟩
  let updatesOf (place : Nat) : List Update :=
    cellUpdates e input r (first + place * e.depth) (place / e.columns) (place % e.columns)
  -- Cells before this one end where it begins at the latest.
  have hbefore : ∀ u ∈ (List.range place).flatMap updatesOf,
      u.place ≠ first + (place * e.depth + channel) := by
    intro u hu
    obtain ⟨other, hother, hu⟩ := List.mem_flatMap.mp hu
    have hcell := place_mem_cellUpdates hu
    have hnext : (other + 1) * e.depth ≤ place * e.depth :=
      Nat.mul_le_mul_right _ (List.mem_range.mp hother)
    rw [Nat.succ_mul] at hnext
    omega
  -- Cells after this one begin where it ends at the earliest.
  have hafter : ∀ u ∈ ((List.range rest).map (place + 1 + ·)).flatMap updatesOf,
      u.place ≠ first + (place * e.depth + channel) := by
    intro u hu
    obtain ⟨other, hother, hu⟩ := List.mem_flatMap.mp hu
    obtain ⟨k, -, rfl⟩ := List.mem_map.mp hother
    have hcell := place_mem_cellUpdates hu
    have hnext : (place + 1) * e.depth ≤ (place + 1 + k) * e.depth :=
      Nat.mul_le_mul_right _ (by omega)
    rw [Nat.succ_mul place] at hnext
    omega
  rw [getElem?_slab _ _ _ hp hc, updates, hrest, List.range_add, List.range_succ,
    List.flatMap_append, List.flatMap_append, effect_append, effect_append,
    effect_eq_self hafter, effect_eq_self hbefore, List.flatMap_singleton, ← Nat.add_assoc]
  exact effect_cellUpdates _ _ _ hc x

end Region

namespace Job

open Update (run effect getElem?_run size_run effect_eq_self)

/-- The accesses of the task that pools a region into its part of the output. -/
def task (job : Job) (e : Extents) (index : Nat) : List Update :=
  (job.region e index).updates e job.input.data (index * e.slabSize)

/-- A task touches no element of the pooled map of another region. -/
theorem place_mem_task {job : Job} {e : Extents} {index : Nat} {u : Update}
    (h : u ∈ job.task e index) :
    index * e.slabSize ≤ u.place ∧ u.place < (index + 1) * e.slabSize := by
  rw [Nat.succ_mul]
  exact Region.place_mem_updates h

/-- Pooled maps do not overlap. -/
theorem region_eq_of_place {e : Extents} {i j place : Nat}
    (hi : i * e.slabSize ≤ place ∧ place < (i + 1) * e.slabSize)
    (hj : j * e.slabSize ≤ place ∧ place < (j + 1) * e.slabSize) : i = j := by
  by_contra hne
  rcases Nat.lt_or_gt_of_ne hne with hlt | hgt
  · have : (i + 1) * e.slabSize ≤ j * e.slabSize := Nat.mul_le_mul_right _ hlt
    omega
  · have : (j + 1) * e.slabSize ≤ i * e.slabSize := Nat.mul_le_mul_right _ hgt
    omega

/-- At a site of its region a task leaves the number of the site; it leaves others alone. -/
theorem effect_task (job : Job) {e : Extents} (index : Nat) {site : Site} (h : site.Within e)
    (x : Single) :
    effect (site.index e) (job.task e index) x =
      if index = site.region then job.valueAt e site else x := by
  by_cases hindex : index = site.region
  · subst hindex
    have heffect := @Region.effect_updates e job.input.data (job.region e site.region)
      (site.region * e.slabSize) _ _ (Site.cell_lt h) h.channel x
    rw [Region.getElem?_slab _ _ _ (Site.cell_lt h) h.channel, Site.cell_div_columns h,
      Site.cell_mod_columns h, getElem?_cell_eq_valueAt _ _ h, Option.some.injEq] at heffect
    rw [if_pos rfl, Site.index_eq]
    exact heffect
  · rw [if_neg hindex]
    refine effect_eq_self (fun u hu hplace => hindex ?_) x
    have hsite : site.region * e.slabSize ≤ site.index e ∧
        site.index e < (site.region + 1) * e.slabSize := by
      have hoffset := Site.offset_lt h
      rw [Site.index_eq, Nat.succ_mul]
      omega
    exact region_eq_of_place (hplace ▸ place_mem_task hu) hsite

/-- Buffers of the size of the output agree if they do at every site. -/
theorem ext_of_sites {e : Extents} {a b : Array Single} (ha : a.size = e.regions * e.slabSize)
    (hb : b.size = e.regions * e.slabSize)
    (h : ∀ site : Site, site.Within e → a[site.index e]? = b[site.index e]?) : a = b := by
  refine Array.ext_getElem? fun i => ?_
  by_cases hi : i < e.regions * e.slabSize
  · obtain ⟨site, ⟨hsite, rfl⟩, -⟩ := Site.existsUnique_of_lt hi
    exact h site hsite
  · rw [Array.getElem?_eq_none (by omega), Array.getElem?_eq_none (by omega)]

/-- A task that runs alone pools its region. -/
theorem run_task (job : Job) {e : Extents} (index : Nat) {buffer : Array Single}
    (hsize : buffer.size = e.regions * e.slabSize) :
    run (job.task e index) buffer = job.poolInto e buffer index := by
  refine ext_of_sites (by rw [size_run, hsize]) (by rw [size_poolInto, hsize]) fun site hsite => ?_
  have hi : site.index e < buffer.size := hsize ▸ Site.index_lt hsite
  rw [getElem?_run, getElem?_poolInto _ _ _ _ hsite hsize, getElem?_cell_eq_valueAt _ _ hsite,
    Array.getElem?_eq_getElem hi, Option.map_some, effect_task _ _ hsite]
  split
  · rfl
  · rfl

/-! ## Interleavings -/

/-- The part of a trace that belongs to a region. -/
def ownUpdates (trace : List (Nat × Update)) (index : Nat) : List Update :=
  (trace.filter fun entry => entry.1 = index).map Prod.snd

/-- A trace of accesses, each with the region it belongs to, that consists of the tasks of all
regions and keeps the order within each of them. -/
def IsInterleaving (job : Job) (e : Extents) (trace : List (Nat × Update)) : Prop :=
  ∀ index, ownUpdates trace index = if index < e.regions then job.task e index else []

theorem ownUpdates_append (trace other : List (Nat × Update)) (index : Nat) :
    ownUpdates (trace ++ other) index = ownUpdates trace index ++ ownUpdates other index := by
  rw [ownUpdates, List.filter_append, List.map_append]
  rfl

/-- A stretch of a trace in which only one region is at work. -/
theorem ownUpdates_map (updates : List Update) (region index : Nat) :
    ownUpdates (updates.map (region, ·)) index = if region = index then updates else [] := by
  split
  · rename_i h
    subst h
    simp [ownUpdates, List.filter_map, Function.comp_def]
  · rename_i h
    simp [ownUpdates, List.filter_map, Function.comp_def, h]

/-- Where all accesses to a place belong to one region, the others do not count. -/
theorem effect_eq_effect_ownUpdates {trace : List (Nat × Update)} {place index : Nat}
    (h : ∀ entry ∈ trace, entry.2.place = place → entry.1 = index) (x : Single) :
    effect place (trace.map Prod.snd) x = effect place (ownUpdates trace index) x := by
  induction trace generalizing x with
  | nil => rfl
  | cons entry rest ih =>
    have hrest := ih fun other hother => h other (List.mem_cons_of_mem _ hother)
    by_cases hindex : entry.1 = index
    · simp only [ownUpdates, effect, List.filter_cons, hindex, decide_true, if_true, List.map_cons,
        List.foldl_cons] at hrest ⊢
      exact hrest _
    · have hplace : entry.2.place ≠ place := fun hplace =>
        hindex (h entry (List.mem_cons_self ..) hplace)
      simp only [ownUpdates, effect, List.filter_cons, hindex, decide_false, Bool.false_eq_true,
        if_false, List.map_cons, List.foldl_cons, hplace] at hrest ⊢
      exact hrest _

/-- However the tasks are interleaved, every site ends with its number. -/
theorem run_interleaving {job : Job} {e : Extents} {trace : List (Nat × Update)}
    (h : job.IsInterleaving e trace) {output : Array Single}
    (hsize : output.size = e.regions * e.slabSize) :
    run (trace.map Prod.snd) output = (List.range e.regions).foldl (job.poolInto e) output := by
  refine ext_of_sites (by rw [size_run, hsize]) (by rw [size_foldl_poolInto, hsize])
    fun site hsite => ?_
  have hi : site.index e < output.size := hsize ▸ Site.index_lt hsite
  have hsiteTask : site.region * e.slabSize ≤ site.index e ∧
      site.index e < (site.region + 1) * e.slabSize := by
    have hoffset := Site.offset_lt hsite
    rw [Site.index_eq, Nat.succ_mul]
    omega
  -- An entry of the trace is an access of the task of its region.
  have hown : ∀ entry ∈ trace, entry.2.place = site.index e → entry.1 = site.region := by
    intro entry hentry hplace
    have hmem : entry.2 ∈ ownUpdates trace entry.1 :=
      List.mem_map.mpr ⟨entry, List.mem_filter.mpr ⟨hentry, by simp⟩, rfl⟩
    rw [h entry.1] at hmem
    split at hmem
    · exact region_eq_of_place (hplace ▸ place_mem_task hmem) hsiteTask
    · exact absurd hmem List.not_mem_nil
  rw [getElem?_run, getElem?_foldl_poolInto _ _ _ _ hsite hsize,
    if_pos (List.mem_range.mpr hsite.region), getElem?_cell_eq_valueAt _ _ hsite,
    Array.getElem?_eq_getElem hi, Option.map_some, effect_eq_effect_ownUpdates hown, h,
    if_pos hsite.region, effect_task _ _ hsite, if_pos rfl]

/-! ## Schedules -/

/-- Pooling in any order of the regions leaves what pooling them in turn leaves. -/
theorem alignIn_eq_align {schedule : Nat → List Nat} (job : Job)
    (h : ∀ count, (schedule count).Perm (List.range count)) (output : Array Single) :
    job.alignIn schedule output = job.align output := by
  unfold align alignIn
  cases hcheck : job.check output with
  | error error => rfl
  | ok e =>
    have hsize : output.size = e.regions * e.slabSize := (fits_of_check hcheck).output_size
    have hbuffer : (schedule e.regions).foldl (job.poolInto e) output =
        (List.range e.regions).foldl (job.poolInto e) output := by
      refine ext_of_sites (by rw [size_foldl_poolInto, hsize])
        (by rw [size_foldl_poolInto, hsize]) fun site hsite => ?_
      rw [getElem?_foldl_poolInto _ _ _ _ hsite hsize, getElem?_foldl_poolInto _ _ _ _ hsite hsize]
      simp only [(h e.regions).mem_iff]
    simp only [hbuffer]

/--
Pooling does not depend on the schedule. The regions taken in any order give the result and
the buffer of the run in turn. So do their tasks in any interleaving of single accesses to
the output, where each task alone pools its region and none reads or writes an element of
the pooled map of another one.
-/
theorem every_schedule_eq_align (job : Job) (output : Array Single) :
    (∀ schedule : Nat → List Nat, (∀ count, (schedule count).Perm (List.range count)) →
      job.alignIn schedule output = job.align output) ∧
    ∀ e, job.check output = .ok e →
      (∀ index < e.regions,
        (∀ buffer : Array Single, buffer.size = output.size →
          run (job.task e index) buffer = job.poolInto e buffer index) ∧
        ∀ u ∈ job.task e index, ∀ other < e.regions,
          other * e.slabSize ≤ u.place ∧ u.place < (other + 1) * e.slabSize ↔ other = index) ∧
      ∀ trace, job.IsInterleaving e trace →
        job.align output = (.ok (), run (trace.map Prod.snd) output) := by
  refine ⟨fun schedule h => alignIn_eq_align job h output, fun e hcheck => ?_⟩
  have hsize : output.size = e.regions * e.slabSize := (fits_of_check hcheck).output_size
  refine ⟨fun index hindex => ⟨fun buffer hbuffer => run_task job index (hbuffer.trans hsize),
    fun u hu other _ => ⟨fun hother => region_eq_of_place hother (place_mem_task hu), ?_⟩⟩, ?_⟩
  · rintro rfl
    exact place_mem_task hu
  · intro trace htrace
    rw [align_of_check hcheck, run_interleaving htrace hsize]
    split
    · -- Without cells or channels the buffer is empty, and nothing can be written.
      rename_i hslab
      have hempty : output.size = 0 := by rw [hsize, hslab, Nat.mul_zero]
      rw [Array.eq_empty_of_size_eq_zero ((size_foldl_poolInto ..).trans hempty),
        Array.eq_empty_of_size_eq_zero hempty]
    · rfl

/-- The map of `quadrants` with two regions: all of it, and the pixels in the middle. -/
def nestedBoxes : Job :=
  { quadrants with
    regions := ⟨⟨[2, 4]⟩, ([0, 0, 4, 4, 1, 1, 3, 3].map Binary.ofNat).toArray⟩
    output := ⟨[2, 2, 2, 1]⟩ }

/-- A buffer for the two pooled maps of `nestedBoxes`. -/
def nestedMaps : Array Single := Array.replicate 8 (.zero false)

/-- The inner box is begun first, and finished after the outer one has been pooled. -/
def nestedTrace : List (Nat × Update) :=
  let outer := nestedBoxes.task { quadrantExtents with regions := 2 } 0
  let inner := nestedBoxes.task { quadrantExtents with regions := 2 } 1
  (inner.take 3).map (1, ·) ++ outer.map (0, ·) ++ (inner.drop 3).map (1, ·)

/-- Two overlapping regions, pooled in reverse order and with their tasks interleaved. -/
theorem nestedBoxes_every_schedule :
    (∀ count, (List.range count).reverse.Perm (List.range count)) ∧
      nestedBoxes.alignIn (fun count => (List.range count).reverse) nestedMaps =
        nestedBoxes.align nestedMaps ∧
      nestedBoxes.check nestedMaps = .ok { quadrantExtents with regions := 2 } ∧
      run (nestedBoxes.task { quadrantExtents with regions := 2 } 1) nestedMaps =
        nestedBoxes.poolInto { quadrantExtents with regions := 2 } nestedMaps 1 ∧
      nestedBoxes.IsInterleaving { quadrantExtents with regions := 2 } nestedTrace ∧
      nestedBoxes.align nestedMaps = (.ok (), run (nestedTrace.map Prod.snd) nestedMaps) := by
  have hperm (count : Nat) : (List.range count).reverse.Perm (List.range count) :=
    List.reverse_perm _
  have hcheck : nestedBoxes.check nestedMaps = .ok { quadrantExtents with regions := 2 } := rfl
  have htrace : nestedBoxes.IsInterleaving { quadrantExtents with regions := 2 } nestedTrace := by
    intro index
    simp only [nestedTrace, ownUpdates_append, ownUpdates_map]
    rcases index with _ | _ | index
    · simp
    · simp
    · simp
  obtain ⟨horder, htasks⟩ := every_schedule_eq_align nestedBoxes nestedMaps
  obtain ⟨hregions, htraces⟩ := htasks _ hcheck
  exact ⟨hperm, horder _ hperm, hcheck, (hregions 1 (by decide)).1 nestedMaps rfl, htrace,
    htraces nestedTrace htrace⟩

end Job

end RegionPooling
