import RegionPooling.Proofs.Binary.Order
import RegionPooling.Proofs.Pooling.Mean
import RegionPooling.Proofs.Pooling.Outcome

/-!
# Pooling keeps the order of feature maps

Two runs that differ in their feature maps only go through the same positions with the same
weights, so one computation on pairs of numbers describes both. The weights are not negative, and
each operation of the computation keeps the order of its operands: the rounded products, the sums of
four, the sum over the samples and the quotient. Hence a larger map has larger means.

Sums may overflow. A sample is a number in any case, as it is made of finite summands, but the sum
over the samples is none where an infinity meets the opposite one. Once it is no number it stays so,
and then nothing is said about the site.

Main results:

* `Job.interpolated_le` — a sample of the larger map is not smaller.
* `Single.foldl_add_le` — nor is a sum, if both sums are numbers at the end.
* `Job.align_mono` — the outputs of two runs over maps in order are in order.
-/

namespace RegionPooling

namespace Single

/-! ## Weighted sums -/

variable {x x' y y' w : Single} {a ε : ℚ}

/-- What is weighted is finite, and in the same order as before. -/
theorem IsWeight.mul_le (hw : IsWeight w a ε) (hy : y.isFinite = true) (hy' : y'.isFinite = true)
    (h : y ≤ y') : (w * y).isFinite = true ∧ (w * y').isFinite = true ∧ w * y ≤ w * y' := by
  have hfinite {z : Single} (hz : z.isFinite = true) : (w * z).isFinite = true := by
    refine (Binary.isRounding_mul hw.isFinite hz).isFinite_of_abs_le hz ?_
    rw [abs_mul, abs_of_nonneg hw.nonneg]
    exact mul_le_of_le_one_left (abs_nonneg _) hw.le_one
  obtain ⟨-, -, hvalue⟩ := Binary.le_iff.mp h
  have hproduct := (Binary.isRounding_mul hw.isFinite hy).mono
    (Binary.isRounding_mul hw.isFinite hy') (mul_le_mul_of_nonneg_left hvalue hw.nonneg)
  exact ⟨hfinite hy, hfinite hy', Binary.le_iff.mpr ⟨Binary.ne_nan_of_isFinite (hfinite hy),
    Binary.ne_nan_of_isFinite (hfinite hy'), hproduct⟩⟩

/-- Sums that are numbers are in the order of their summands. -/
theorem add_le_add (hx : x ≤ x') (hy : y ≤ y') (hsum : x + y ≠ .nan) (hsum' : x' + y' ≠ .nan) :
    x + y ≤ x' + y' :=
  Binary.le_iff.mpr ⟨hsum, hsum',
    Binary.add_value_le hsum hsum' (Binary.le_iff.mp hx).2.2 (Binary.le_iff.mp hy).2.2⟩

/-- With a finite summand the sums are numbers. -/
theorem add_le_add_of_isFinite (hx : x ≤ x')
    (hy : y.isFinite = true ∧ y'.isFinite = true ∧ y ≤ y') : x + y ≤ x' + y' := by
  obtain ⟨hxnan, hxnan', -⟩ := Binary.le_iff.mp hx
  exact add_le_add hx hy.2.2 (Binary.add_ne_nan hxnan hy.1) (Binary.add_ne_nan hxnan' hy.2.1)

/-! ## Sums of many numbers -/

/-- A sum that is a number was one from the start. -/
theorem ne_nan_of_foldl_add (numbers : List Single) (h : numbers.foldl (· + ·) x ≠ .nan) :
    x ≠ .nan := by
  induction numbers generalizing x with
  | nil => exact h
  | cons y rest ih => exact (Binary.ne_nan_of_add (ih h)).1

/-- The induction goes along both lists, from any two sums in order on. The last sums are numbers,
and so are all sums before them. -/
theorem foldl_add_le {numbers numbers' : List Single}
    (h : List.Forall₂ (· ≤ ·) numbers numbers') (hx : x ≤ x')
    (hsum : numbers.foldl (· + ·) x ≠ .nan) (hsum' : numbers'.foldl (· + ·) x' ≠ .nan) :
    numbers.foldl (· + ·) x ≤ numbers'.foldl (· + ·) x' := by
  induction h generalizing x x' with
  | nil => exact hx
  | @cons y y' rest rest' hy _ ih =>
    have hnext : x + y ≠ .nan := ne_nan_of_foldl_add rest hsum
    have hnext' : x' + y' ≠ .nan := ne_nan_of_foldl_add rest' hsum'
    exact ih (add_le_add hx hy hnext hnext') hsum hsum'

end Single

namespace Job

/-! ## One site -/

/-- The numbers at one place of two maps: both are finite, and the second one is not smaller. -/
def InOrder (x y : Single) : Prop := x.isFinite = true ∧ y.isFinite = true ∧ x ≤ y

variable {job : Job} {output : Array Single} {e : Extents} {site : Site} {data : Array Single}

theorem size_eq_of_inOrder (hdata : List.Forall₂ InOrder job.input.data.toList data.toList) :
    data.size = job.input.data.size := by
  rw [← Array.length_toList, ← Array.length_toList, hdata.length_eq]

/-- The pixels of a sample are in order. -/
theorem inOrder_pixel (h : job.check output = .ok e)
    (hdata : List.Forall₂ InOrder job.input.data.toList data.toList)
    {batch row column channel : Nat} (hbatch : batch < e.batches) (hrow : row < e.height)
    (hcolumn : column < e.width) (hchannel : channel < e.depth) :
    InOrder (job.pixel e batch row column channel)
      ((job.withMap data).pixel e batch row column channel) := by
  have hplace := pixel_place_lt h hbatch hrow hcolumn hchannel
  have hplace' : _ < data.size := (size_eq_of_inOrder hdata).symm ▸ hplace
  have hpair := hdata.get (by simpa using hplace) (by simpa using hplace')
  rw [pixel, pixel, Array.getD_eq_getD_getElem?, Array.getD_eq_getD_getElem?,
    Array.getElem?_eq_getElem hplace]
  show InOrder _ (data[_]?.getD _)
  rw [Array.getElem?_eq_getElem hplace']
  simpa using hpair

/-- A sample of the larger map is not smaller. The four products are in order, and the sum begins
with two of them; with finite summands it is a number to its end. -/
theorem interpolated_le (h : job.check output = .ok e) (hsite : site.Within e)
    (hdata : List.Forall₂ InOrder job.input.data.toList data.toList) {y x : Single}
    (hy : y ≠ .nan) (hx : x ≠ .nan) :
    job.interpolated e (job.batchOf e site.region) (.around y e.height) (.around x e.width)
        site.channel ≤
      (job.withMap data).interpolated e (job.batchOf e site.region) (.around y e.height)
        (.around x e.width) site.channel := by
  have hsizes := addressed_of_within h hsite
  have hbatch := batchOf_lt h hsite.region
  obtain ⟨hlower, hupper⟩ := Corners.around_lt y hsizes.height_pos
  obtain ⟨hleft, hright⟩ := Corners.around_lt x hsizes.width_pos
  have hfx := Corners.isWeight_fraction hx hsizes.width_lt
  have hfy := Corners.isWeight_fraction hy hsizes.height_lt
  have hx' : Single.IsWeight _ _ (1 / 2 ^ 24) := hfx.mono (by positivity)
  have hy' : Single.IsWeight _ _ (1 / 2 ^ 24) := hfy.mono (by positivity)
  have hpixel {row column : Nat} (hrow : row < e.height) (hcolumn : column < e.width) {w : Single}
      {a ε : ℚ} (hw : Single.IsWeight w a ε) :
      (w * job.pixel e (job.batchOf e site.region) row column site.channel).isFinite = true ∧
        (w * (job.withMap data).pixel e (job.batchOf e site.region) row column
          site.channel).isFinite = true ∧
        w * job.pixel e (job.batchOf e site.region) row column site.channel ≤
          w * (job.withMap data).pixel e (job.batchOf e site.region) row column site.channel := by
    obtain ⟨hfinite, hfinite', hle⟩ := inOrder_pixel h hdata hbatch hrow hcolumn hsite.channel
    exact hw.mul_le hfinite hfinite' hle
  have htopLeft := hpixel hlower hleft (hfx.complement.mul hfy.complement)
  have htopRight := hpixel hlower hright (hx'.mul hfy.complement)
  have hbottomLeft := hpixel hupper hleft (hfx.complement.mul hy')
  have hbottomRight := hpixel hupper hright (hx'.mul hy')
  have htop := Single.add_le_add_of_isFinite htopLeft.2.2 htopRight
  have hthree := Single.add_le_add_of_isFinite htop hbottomLeft
  exact Single.add_le_add_of_isFinite hthree hbottomRight

theorem sampleValues_le (h : job.check output = .ok e) (hsite : site.Within e)
    (hdata : List.Forall₂ InOrder job.input.data.toList data.toList) :
    List.Forall₂ (· ≤ ·) (job.sampleValues e site) ((job.withMap data).sampleValues e site) := by
  -- Both lists come from the same positions, and these are numbers.
  have hpositions (start stop step : Single) : List.Forall₂ (fun p q => p = q ∧ p ≠ .nan)
      (walk start stop step) (walk start stop step) :=
    List.forall₂_same.mpr fun p hp => ⟨rfl, ne_nan_of_mem_walk hp⟩
  refine List.rel_flatMap (hpositions ..) ?_
  rintro y _ ⟨rfl, hy⟩
  refine List.rel_map ?_ (hpositions ..)
  rintro x _ ⟨rfl, hx⟩
  exact interpolated_le h hsite hdata hy hx

theorem valueAt_le (h : job.check output = .ok e) (hsite : site.Within e)
    (hdata : List.Forall₂ InOrder job.input.data.toList data.toList)
    (hnan : job.valueAt e site ≠ .nan) (hnan' : (job.withMap data).valueAt e site ≠ .nan) :
    job.valueAt e site ≤ (job.withMap data).valueAt e site := by
  have hsum := Binary.ne_nan_of_div hnan
  have hsum' := Binary.ne_nan_of_div hnan'
  have hle : job.sumAt e site ≤ (job.withMap data).sumAt e site := by
    rw [sumAt_eq_sum] at hsum hsum' ⊢
    rw [sumAt_eq_sum]
    exact Single.foldl_add_le (sampleValues_le h hsite hdata) (by decide) hsum hsum'
  -- The divisors are the same.
  obtain ⟨hdivisor, hone⟩ := one_le_divisor job (addressed_of_within h hsite) site
  exact Binary.le_iff.mpr ⟨hnan, hnan',
    Binary.div_value_le hsum hsum' hdivisor (zero_lt_one.trans_le hone) (Binary.le_iff.mp hle).2.2⟩

/-! ## The whole output -/

/-- What holds at every site holds all along the outputs of two runs. -/
theorem forall₂_align {other : Job} {buffer : Array Single} {R : Single → Single → Prop}
    (h : job.check output = .ok e) (h' : other.check buffer = .ok e)
    (hsites : ∀ site : Site, site.Within e → R (job.valueAt e site) (other.valueAt e site)) :
    List.Forall₂ R (job.align output).2.toList (other.align buffer).2.toList := by
  have hsize : (job.align output).2.size = e.regions * e.slabSize :=
    (size_alignIn ..).trans (fits_of_check h).output_size
  have hsize' : (other.align buffer).2.size = e.regions * e.slabSize :=
    (size_alignIn ..).trans (fits_of_check h').output_size
  refine List.forall₂_iff_get.mpr ⟨by simp [hsize, hsize'], fun i hi hi' => ?_⟩
  rw [Array.length_toList] at hi hi'
  obtain ⟨site, ⟨hsite, hplace⟩, -⟩ := Site.existsUnique_of_lt (hsize ▸ hi)
  have hvalue := getElem?_align h hsite
  have hvalue' := getElem?_align h' hsite
  rw [hplace, Array.getElem?_eq_getElem (by assumption), Option.some.injEq] at hvalue hvalue'
  simpa [hvalue, hvalue'] using hsites site hsite

/--
Pooling is monotone in the feature map. Over two maps of finite numbers, of which the second one is
nowhere smaller, both runs go through, and each number of the second output is at least that of the
first one, unless one of the two is not a number. What the output buffers held before plays no part.
-/
theorem align_mono (job : Job) (output buffer data : Array Single)
    (hok : (job.align output).1 = .ok ()) (hbuffer : buffer.size = output.size)
    (hdata : List.Forall₂ InOrder job.input.data.toList data.toList) :
    ((job.withMap data).align buffer).1 = .ok () ∧
      List.Forall₂ (fun x y => x ≠ .nan → y ≠ .nan → x ≤ y) (job.align output).2.toList
        ((job.withMap data).align buffer).2.toList := by
  obtain ⟨e, hcheck⟩ := align_eq_ok_iff.mp hok
  have hother : (job.withMap data).check buffer = .ok e := by
    rw [check_of_size_eq _ hbuffer, check_withMap job output (size_eq_of_inOrder hdata), hcheck]
  refine ⟨align_eq_ok_iff.mpr ⟨e, hother⟩, forall₂_align hcheck hother ?_⟩
  intro site hsite hnan hnan'
  exact valueAt_le hcheck hsite hdata hnan hnan'

/-- The map of `quadrants`, with one more in every pixel. -/
def raised : Array Single := ((List.range 16).map fun place => Binary.ofNat (place + 1)).toArray

theorem quadrants_mono :
    (quadrants.align quadrantMeans).1 = .ok () ∧
      (Array.replicate 4 .nan : Array Single).size = quadrantMeans.size ∧
      List.Forall₂ InOrder quadrants.input.data.toList raised.toList ∧
      List.Forall₂ (fun x y => x ≠ .nan → y ≠ .nan → x ≤ y) (quadrants.align quadrantMeans).2.toList
        ((quadrants.withMap raised).align (Array.replicate 4 .nan)).2.toList := by
  have hok : (quadrants.align quadrantMeans).1 = .ok () := rfl
  have hsize : (Array.replicate 4 .nan : Array Single).size = quadrantMeans.size := rfl
  have hdata : List.Forall₂ InOrder quadrants.input.data.toList raised.toList := by
    refine List.rel_map (R := fun n m => n = m ∧ n < 16) ?_
      (List.forall₂_same.mpr fun n hn => ⟨rfl, List.mem_range.mp hn⟩)
    rintro n _ ⟨rfl, hn⟩
    obtain ⟨hfinite, hvalue⟩ := Single.ofNat_exact (n := n) (by omega)
    obtain ⟨hfinite', hvalue'⟩ := Single.ofNat_exact (n := n + 1) (by omega)
    refine ⟨hfinite, hfinite', Binary.le_iff.mpr ⟨Binary.ne_nan_of_isFinite hfinite,
      Binary.ne_nan_of_isFinite hfinite', ?_⟩⟩
    rw [hvalue, hvalue']
    exact_mod_cast Nat.le_succ n
  exact ⟨hok, hsize, hdata,
    (align_mono quadrants quadrantMeans (Array.replicate 4 .nan) raised hok hsize hdata).2⟩

end Job

end RegionPooling
