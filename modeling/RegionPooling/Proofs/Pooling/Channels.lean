import RegionPooling.Proofs.Pooling.Decomposition

/-!
# Channels are pooled apart

The feature map and the pooled maps hold the channels of a pixel next to each other, so every
distance in a buffer is a multiple of the depth. `Job.onChannel` is the run on one channel: its
feature map keeps one number of each pixel, and all distances are shorter by the factor of the
depth. Both runs walk over the same samples with the same weights, since these come from the
records and from the height and the width of the map.

`channelOf` takes one channel out of a buffer, be it the feature map or the output.

Main results:

* `Job.check_onChannel` — the run on one channel passes its checks.
* `Job.align_onChannel` — its output is that channel of the whole output.
* `Job.align_projects` — both, and what follows for maps that agree in one channel.
-/

namespace RegionPooling

/-- One channel of a buffer that holds `depth` channels side by side. -/
def channelOf (depth channel : Nat) (data : Array Single) : Array Single :=
  Array.ofFn fun place : Fin (data.size / depth) =>
    data.getD (place * depth + channel) (.zero false)

section ChannelOf

variable {depth channel : Nat} {data : Array Single}

theorem size_channelOf (hdepth : 0 < depth) {count : Nat} (hsize : data.size = count * depth) :
    (channelOf depth channel data).size = count := by
  rw [channelOf, Array.size_ofFn, hsize, Nat.mul_div_cancel _ hdepth]

/-- A number of the channel is found in the buffer. -/
theorem getElem?_channelOf (hchannel : channel < depth) {count : Nat}
    (hsize : data.size = count * depth) {place : Nat} (hplace : place < count) :
    (channelOf depth channel data)[place]? = data[place * depth + channel]? := by
  have hcount : data.size / depth = count := by rw [hsize, Nat.mul_div_cancel _ (by omega)]
  have hlt : place * depth + channel < data.size := hsize ▸ block_lt hplace hchannel
  simp [channelOf, hcount, hplace, hlt]

end ChannelOf

/-! ## Shapes of one channel -/

/-- The shape of one channel: the last of its four sizes is one. -/
def Shape.singleChannel (s : Shape) : Shape := ⟨s.sizes.set 3 1⟩

/-- The sizes of a run on one channel. -/
def Extents.singleChannel (e : Extents) : Extents := { e with depth := 1 }

namespace Shape

theorem sizes_singleChannel {s : Shape} {a b c d : Nat}
    (h : s.sizes.map UInt32.toNat = [a, b, c, d]) :
    s.singleChannel.sizes.map UInt32.toNat = [a, b, c, 1] := by
  simp [singleChannel, h]

/-- Where the whole shape can be counted, one channel of it can, also if there is none. -/
theorem count?_singleChannel {s : Shape} {n a b c d : Nat} (hcount : s.count? = some n)
    (h : s.sizes.map UInt32.toNat = [a, b, c, d]) :
    s.singleChannel.count? = some (a * b * c) := by
  have hless := Extents.Fits.count?_eq_of_le hcount h (sizes_singleChannel h)
    (Nat.le_max_right 1 a) (Nat.le_max_right 1 b) (Nat.le_max_right 1 c) (Nat.le_max_left 1 d)
  rw [hless]
  congr 1
  ring

end Shape

/-- Fitting sizes still fit on one channel. -/
theorem Extents.Fits.singleChannel {e : Extents} {input regions output : View}
    (h : e.Fits input regions output) {data buffer : Array Single}
    (hdata : data.size = e.batches * e.height * e.width)
    (hbuffer : buffer.size = e.regions * e.rows * e.columns) :
    e.singleChannel.Fits ⟨input.shape.singleChannel, data⟩ regions
      ⟨output.shape.singleChannel, buffer⟩ :=
  { h with
    input_sizes := Shape.sizes_singleChannel h.input_sizes
    output_sizes := Shape.sizes_singleChannel h.output_sizes
    input_count := by rw [Shape.count?_singleChannel h.input_count h.input_sizes, hdata]
    output_count := by rw [Shape.count?_singleChannel h.output_count h.output_sizes, hbuffer] }

namespace Job

/-- The run on one channel of the feature map, into pooled maps of one channel. -/
def onChannel (job : Job) (e : Extents) (channel : Nat) : Job :=
  { job with
    input := ⟨job.input.shape.singleChannel, channelOf e.depth channel job.input.data⟩
    output := job.output.singleChannel }

section Run

variable {job : Job} {output buffer : Array Single} {e : Extents} {channel : Nat}

/-- A buffer of the sizes of a run is whole pixels or cells. -/
theorem size_input_eq (hcheck : job.check output = .ok e) :
    job.input.data.size = e.batches * e.height * e.width * e.depth := by
  rw [(fits_of_check hcheck).input_size, Extents.batchSize]
  ring

theorem size_align_eq (hcheck : job.check output = .ok e) :
    (job.align output).2.size = e.regions * e.rows * e.columns * e.depth := by
  rw [size_align hcheck, Extents.slabSize]
  ring

theorem check_onChannel (hcheck : job.check output = .ok e) (hchannel : channel < e.depth)
    (hbuffer : buffer.size = e.regions * e.rows * e.columns) :
    (job.onChannel e channel).check buffer = .ok e.singleChannel := by
  have hdata : (channelOf e.depth channel job.input.data).size = e.batches * e.height * e.width :=
    size_channelOf (by omega) (size_input_eq hcheck)
  have hfits := (fits_of_check hcheck).singleChannel hdata hbuffer
  -- The batch indices are checked against the number of batches, which stays the same.
  exact check_eq_ok_iff.mpr ⟨Extents.resolve_of_fits hfits, (check_eq_ok_iff.mp hcheck).2⟩

/-- A pixel of the run on one channel is that channel of the pixel. -/
theorem pixel_onChannel (hcheck : job.check output = .ok e) (hchannel : channel < e.depth)
    {batch row column : Nat} (hbatch : batch < e.batches) (hrow : row < e.height)
    (hcolumn : column < e.width) :
    (job.onChannel e channel).pixel e.singleChannel batch row column 0 =
      job.pixel e batch row column channel := by
  have hplace : (batch * e.height + row) * e.width + column < e.batches * e.height * e.width :=
    block_lt (block_lt hbatch hrow) hcolumn
  show (channelOf e.depth channel job.input.data).getD
    (((batch * e.height + row) * e.width + column) * 1 + 0) _ = _
  rw [pixel, Nat.mul_one, Nat.add_zero, Array.getD_eq_getD_getElem?, Array.getD_eq_getD_getElem?,
    getElem?_channelOf hchannel (size_input_eq hcheck) hplace]

/-- The numbers of a site agree: both runs sample its cell alike, and the pixels are the same. -/
theorem valueAt_onChannel (hcheck : job.check output = .ok e) {site : Site}
    (hsite : site.Within e) :
    (job.onChannel e site.channel).valueAt e.singleChannel { site with channel := 0 } =
      job.valueAt e site := by
  have hfits := fits_of_check hcheck
  refine valueAt_congr rfl rfl hfits.height_pos hfits.width_pos rfl rfl (.of_eq rfl)
    (.of_eq rfl) ?_
  intro row hrow column hcolumn
  exact pixel_onChannel hcheck hsite.channel (batchOf_lt hcheck hsite.region) hrow hcolumn

/-- The output of the run on one channel is that channel of the output. -/
theorem align_onChannel (hcheck : job.check output = .ok e) (hchannel : channel < e.depth)
    (hbuffer : buffer.size = e.regions * e.rows * e.columns) :
    (job.onChannel e channel).align buffer =
      (.ok (), channelOf e.depth channel (job.align output).2) := by
  have hother := check_onChannel hcheck hchannel hbuffer
  have hsize := size_align_eq hcheck
  refine Prod.ext (align_eq_ok_iff.mpr ⟨_, hother⟩) ?_
  refine ext_of_sites (size_align hother) ?_ ?_
  · rw [size_channelOf (by omega) hsize, Extents.slabSize]
    show _ = e.regions * (e.rows * e.columns * 1)
    ring
  · -- A site of depth one has channel zero; the same cell of the whole run has this channel.
    rintro ⟨region, row, column, own⟩ hsite
    obtain rfl : own = 0 := Nat.lt_one_iff.mp hsite.channel
    let whole : Site := ⟨region, row, column, channel⟩
    have hwhole : whole.Within e := ⟨hsite.region, hsite.row, hsite.column, hchannel⟩
    have hindex : Site.index e.singleChannel ⟨region, row, column, 0⟩ =
        (region * e.rows + row) * e.columns + column := Nat.mul_one _
    have hlt : (region * e.rows + row) * e.columns + column < e.regions * e.rows * e.columns :=
      block_lt (block_lt hsite.region hsite.row) hsite.column
    rw [getElem?_align hother hsite, hindex, getElem?_channelOf hchannel hsize hlt]
    show _ = (job.align output).2[whole.index e]?
    rw [getElem?_align hcheck hwhole, ← valueAt_onChannel hcheck hwhole]

/-- Maps that agree in one channel have the same run on this channel. -/
theorem onChannel_withMap {data : Array Single}
    (h : channelOf e.depth channel data = channelOf e.depth channel job.input.data) :
    (job.withMap data).onChannel e channel = job.onChannel e channel := by
  unfold onChannel
  rw [show (job.withMap data).input.data = data from rfl, h]
  rfl

end Run

/-! ## Main result -/

/--
Each channel of the output is what the run makes of this channel alone: of the feature map with
one number for each pixel, with the same records, sampling and grid. So no channel has an
influence on another one, whatever numbers it holds: where two feature maps agree in a channel,
so do the outputs.
-/
theorem align_projects (job : Job) (output : Array Single) (hok : (job.align output).1 = .ok ()) :
    ∃ e, job.check output = .ok e ∧
      (∀ channel < e.depth,
        ∀ buffer : Array Single, buffer.size = e.regions * e.rows * e.columns →
          (job.onChannel e channel).align buffer =
            (.ok (), channelOf e.depth channel (job.align output).2)) ∧
      ∀ data : Array Single, data.size = job.input.data.size →
        ((job.withMap data).align output).1 = .ok () ∧
        ∀ channel < e.depth,
          channelOf e.depth channel data = channelOf e.depth channel job.input.data →
          channelOf e.depth channel ((job.withMap data).align output).2 =
            channelOf e.depth channel (job.align output).2 := by
  obtain ⟨e, hcheck⟩ := align_eq_ok_iff.mp hok
  refine ⟨e, hcheck, ?_, ?_⟩
  · intro channel hchannel buffer hbuffer
    exact align_onChannel hcheck hchannel hbuffer
  · intro data hdata
    have hother : (job.withMap data).check output = .ok e := check_withMap job output hdata ▸ hcheck
    refine ⟨align_eq_ok_iff.mpr ⟨e, hother⟩, ?_⟩
    intro channel hchannel hsame
    -- Both are the output of one and the same run on this channel.
    let buffer : Array Single := Array.replicate (e.regions * e.rows * e.columns) (.zero false)
    have hbuffer : buffer.size = e.regions * e.rows * e.columns := Array.size_replicate
    have hone := align_onChannel hcheck hchannel hbuffer
    have hone' := align_onChannel hother hchannel hbuffer
    rw [onChannel_withMap hsame, hone] at hone'
    exact (congrArg Prod.snd hone').symm

/-- Two by two pixels of two channels. The second channel holds no number, the infinities and a
negative zero. -/
def channelPair : Job where
  input := ⟨⟨[1, 2, 2, 2]⟩, #[.ofNat 1, .nan, .ofNat 2, .infinity false, .ofNat 3, .infinity true,
    .ofNat 4, .zero true]⟩
  regions := ⟨⟨[1, 4]⟩, ([0, 0, 2, 2].map Binary.ofNat).toArray⟩
  sampling := { spatialScale := Binary.ofNat 1, samplingRatio := 1 }
  output := ⟨[1, 1, 2, 2]⟩

/-- The sizes of the run on two channels. -/
def channelPairExtents : Extents where
  batches := 1
  height := 2
  width := 2
  depth := 2
  rows := 1
  columns := 2
  regions := 1
  recordLength := 4

/-- A feature map with the first channel of `channelPair` and nothing but zeros in the second. -/
def firstOfPair : Array Single :=
  #[.ofNat 1, .zero false, .ofNat 2, .zero false, .ofNat 3, .zero false, .ofNat 4, .zero false]

/-- Each channel of the pair on its own, and the first one beside another second one. -/
theorem channelPair_projects :
    (channelPair.align quadrantMeans).1 = .ok () ∧
      channelPair.check quadrantMeans = .ok channelPairExtents ∧
      (channelPair.onChannel channelPairExtents 0).align (Array.replicate 2 .nan) =
        (.ok (), channelOf 2 0 (channelPair.align quadrantMeans).2) ∧
      (channelPair.onChannel channelPairExtents 1).align (Array.replicate 2 .nan) =
        (.ok (), channelOf 2 1 (channelPair.align quadrantMeans).2) ∧
      channelOf 2 0 firstOfPair = channelOf 2 0 channelPair.input.data ∧
      channelOf 2 0 ((channelPair.withMap firstOfPair).align quadrantMeans).2 =
        channelOf 2 0 (channelPair.align quadrantMeans).2 := by
  have hok : (channelPair.align quadrantMeans).1 = .ok () := rfl
  have hcheck : channelPair.check quadrantMeans = .ok channelPairExtents := rfl
  have hsame : channelOf 2 0 firstOfPair = channelOf 2 0 channelPair.input.data := by
    decide +kernel
  obtain ⟨e, he, hchannel, hdata⟩ := align_projects channelPair quadrantMeans hok
  obtain rfl : e = channelPairExtents := Except.ok.inj (he.symm.trans hcheck)
  refine ⟨hok, hcheck, ?_, ?_, hsame, ?_⟩
  · exact hchannel 0 (by decide) _ rfl
  · exact hchannel 1 (by decide) _ rfl
  · exact (hdata firstOfPair rfl).2 0 (by decide) hsame

end Job

end RegionPooling
