import RegionPooling.Fixture
import RegionPooling.Proofs.Json.Decoding

/-!
# Fixtures are loaded as they were saved

A fixture whose numbers are finite is the same after it has been saved and loaded, down to the
sign of each zero (`Fixture.ofFile_page`). The parts of the proof are those of the text: what is
printed is read as the tree that was written, and the decoder of each record takes its tree back to
the record. Members that are left out are the ones whose default is the value that was left out.

Main results:

* `Tensor.ofDocument_reading`, `Params.ofDocument_reading` — the records inside of a fixture.
* `Fixture.ofFile_page` — the whole file.
-/

namespace RegionPooling

open Document (reading)
open Schema (memberDocuments)

/-! ## Shapes and parameters -/

theorem Shape.ofDocument_reading (s : Shape) :
    Shape.ofDocument (reading Literal.text s.written) = .ok s := by
  rw [ofDocument, written, Document.asList_reading fun size _ => Document.asUInt32_reading size]
  rfl

/-- No parameter is written twice. -/
theorem Params.nodup_names (p : Params) : (p.members.map Prod.fst).Nodup := by
  show ["output_height", "output_width", "spatial_scale", "sampling_ratio"].Nodup
  decide

theorem Params.ofDocument_reading (excess : Nat → Failure) {p : Params}
    (h : p.spatialScale.isFinite = true) :
    Params.ofDocument excess (reading Literal.text p.written) = .ok p := by
  have hheight := Document.asUInt32_reading p.outputHeight
  have hwidth := Document.asUInt32_reading p.outputWidth
  have hscale := Document.asSingle_reading h
  have hratio := Document.asInt32_reading p.samplingRatio
  have hread : schema.read excess (reading Literal.text p.written) =
      .ok (memberDocuments Literal.text p.members) := by
    refine schema.read_object excess p.members p.nodup_names ?_
    simp only [members, List.forall_mem_cons, List.not_mem_nil, false_implies, implies_true,
      and_true]
    exact ⟨Schema.accepts_of_ok rfl hheight, Schema.accepts_of_ok rfl hwidth,
      Schema.accepts_of_ok rfl hscale, Schema.accepts_of_ok rfl hratio⟩
  have hheight : (memberDocuments Literal.text p.members).get "output_height" Document.asUInt32 =
      .ok p.outputHeight := Schema.get_of_lookup rfl hheight
  have hwidth : (memberDocuments Literal.text p.members).get "output_width" Document.asUInt32 =
      .ok p.outputWidth := Schema.get_of_lookup rfl hwidth
  have hscale : (memberDocuments Literal.text p.members).get "spatial_scale" Document.asSingle =
      .ok p.spatialScale := Schema.get_of_lookup rfl hscale
  have hratio : (memberDocuments Literal.text p.members).getD "sampling_ratio" Document.asInt32 0 =
      .ok p.samplingRatio := Schema.getD_of_lookup 0 rfl hratio
  rw [ofDocument, hread]
  simp only [bind, Except.bind, hheight, hwidth, hscale, hratio]
  rfl

/-! ## Tensors -/

namespace Tensor

/-- A tensor is what its shape and its data make. -/
theorem ofData_eq (t : Tensor) : ofData t.shape t.data = .ok t := by
  unfold ofData
  split
  · rename_i hnone
    rw [t.count_eq] at hnone
    cases hnone
  · rename_i expected hsome
    have hsize : t.data.size = expected := Option.some.inj (t.count_eq.symm.trans hsome)
    rw [dif_pos hsize]

theorem dataOfDocument_reading {data : Array Single} (h : data.all Binary.isFinite = true) :
    dataOfDocument
      (reading Literal.text (.array (data.toList.map fun x => .number (.single x)))) = .ok data := by
  have hitem : ∀ x ∈ data.toList,
      (reading Literal.text (.number (.single x))).asSingle = .ok x := by
    intro x hx
    have hfinite := Array.all_eq_true_iff_forall_mem.mp h x (Array.mem_toList_iff.mp hx)
    exact Document.asSingle_reading hfinite
  rw [dataOfDocument, Document.asList_reading hitem]
  rfl

/-- The members of the written form. -/
def members (t : Tensor) : List (String × Written) :=
  [("shape", t.shape.written), ("data", .array (t.data.toList.map fun x => .number (.single x)))]

theorem nodup_names (t : Tensor) : (t.members.map Prod.fst).Nodup := by
  show ["shape", "data"].Nodup
  decide

theorem ofDocument_reading {t : Tensor} (h : t.isFinite = true) :
    ofDocument (reading Literal.text t.written) = .ok t := by
  have hshape := Shape.ofDocument_reading t.shape
  have hdata := dataOfDocument_reading h
  have hread : schema.read Document.unclosed (reading Literal.text t.written) =
      .ok (memberDocuments Literal.text t.members) := by
    refine schema.read_object Document.unclosed t.members t.nodup_names ?_
    simp only [members, List.forall_mem_cons, List.not_mem_nil, false_implies, implies_true,
      and_true]
    exact ⟨Schema.accepts_of_ok rfl hshape, Schema.accepts_of_ok rfl hdata⟩
  have hshape : (memberDocuments Literal.text t.members).get "shape" Shape.ofDocument =
      .ok t.shape := Schema.get_of_lookup rfl hshape
  have hdata : (memberDocuments Literal.text t.members).get "data" dataOfDocument =
      .ok t.data := Schema.get_of_lookup rfl hdata
  rw [ofDocument, hread]
  simp only [bind, Except.bind, hshape, hdata, ofData_eq]
  rfl

end Tensor

/-! ## Fixtures -/

namespace Fixture

/-- All numbers of the fixture are finite. -/
structure IsFinite (f : Fixture) : Prop where
  spatialScale : f.params.spatialScale.isFinite = true
  input : f.input.isFinite = true
  regions : f.regions.isFinite = true
  expected : ∀ t, f.expected = some t → t.isFinite = true
  tolerance : f.tolerance.isFinite = true

theorem isFinite_iff {f : Fixture} : f.IsFinite ↔
    f.params.spatialScale.isFinite = true ∧ f.input.isFinite = true ∧ f.regions.isFinite = true ∧
      f.expected.all Tensor.isFinite = true ∧ f.tolerance.isFinite = true := by
  rw [Option.all_eq_true]
  constructor
  · intro h
    exact ⟨h.spatialScale, h.input, h.regions, h.expected, h.tolerance⟩
  · rintro ⟨hscale, hinput, hregions, hexpected, htolerance⟩
    exact ⟨hscale, hinput, hregions, hexpected, htolerance⟩

instance (f : Fixture) : Decidable f.IsFinite := decidable_of_iff _ isFinite_iff.symm

/-- The members of the written form. -/
def members (f : Fixture) : List (String × Written) :=
  [("name", .string f.name)]
    ++ optionalMember "description" (f.description.map .string)
    ++ [("params", f.params.written), ("input", f.input.written), ("rois", f.regions.written)]
    ++ optionalMember "expected" (f.expected.map Tensor.written)
    ++ [("tolerance", .number (.single f.tolerance))]

theorem lookup_optionalMember (name other : String) (written : Option Written) :
    (optionalMember name written).lookup other = if other == name then written else none := by
  cases written with
  | none => simp [optionalMember]
  | some written =>
    by_cases h : other = name
    · simp [optionalMember, h]
    · have hne : (other == name) = false := beq_false_of_ne h
      simp [optionalMember, List.lookup_cons, hne]

theorem names_optionalMember (name : String) (written : Option Written) :
    ((optionalMember name written).map Prod.fst).Sublist [name] := by
  cases written with
  | none => exact List.nil_sublist _
  | some written => exact List.Sublist.refl _

/-- No name is written twice, whichever members are left out. -/
theorem nodup_names (f : Fixture) : (f.members.map Prod.fst).Nodup := by
  have hall : ["name", "description", "params", "input", "rois", "expected", "tolerance"].Nodup := by
    decide
  -- What is written is what is left of all names.
  refine List.Sublist.nodup ?_ hall
  simp only [members, List.map_append]
  exact (((List.Sublist.refl ["name"]).append (names_optionalMember _ _)).append
    (List.Sublist.refl ["params", "input", "rois"])).append (names_optionalMember _ _) |>.append
      (List.Sublist.refl ["tolerance"])

/-- What is asked of an optional member only counts where it is there. -/
theorem forall_mem_optionalMember {α : Type} {name : String} {option : Option α}
    {write : α → Written} {P : String × Written → Prop}
    (h : ∀ x, option = some x → P (name, write x)) :
    ∀ member ∈ optionalMember name (option.map write), P member := by
  cases option with
  | none => nofun
  | some x => exact List.forall_mem_singleton.mpr (h x rfl)

/-- What is true of all members, by what is true of each one that is there. -/
theorem forall_mem_members {f : Fixture} {P : String × Written → Prop}
    (hname : P ("name", .string f.name))
    (hdescription : ∀ text, f.description = some text → P ("description", .string text))
    (hparams : P ("params", f.params.written)) (hinput : P ("input", f.input.written))
    (hregions : P ("rois", f.regions.written))
    (hexpected : ∀ t, f.expected = some t → P ("expected", t.written))
    (htolerance : P ("tolerance", .number (.single f.tolerance))) :
    ∀ member ∈ f.members, P member := by
  simp only [members, List.forall_mem_append, List.forall_mem_cons, List.not_mem_nil,
    false_implies, implies_true, and_true]
  exact ⟨⟨⟨⟨hname, forall_mem_optionalMember hdescription⟩, hparams, hinput, hregions⟩,
    forall_mem_optionalMember hexpected⟩, htolerance⟩

theorem description_reading (text : String) :
    (reading Literal.text (.string text)).asOption Document.asString = .ok (some text) := rfl

theorem expected_reading {t : Tensor} (h : t.isFinite = true) :
    (reading Literal.text t.written).asOption Tensor.ofDocument = .ok (some t) :=
  Document.asOption_of_ok nofun (Tensor.ofDocument_reading h)

/-- Every member of the written form is that of a field and can be decoded. -/
theorem accepts_members {f : Fixture} (h : f.IsFinite) :
    ∀ member ∈ f.members, schema.Accepts (member.1, reading Literal.text member.2) := by
  apply forall_mem_members
  case hname => exact Schema.accepts_of_ok (x := f.name) rfl rfl
  case hdescription =>
    intro text _
    exact Schema.accepts_of_ok rfl (description_reading text)
  case hparams => exact Schema.accepts_of_ok rfl (Params.ofDocument_reading _ h.spatialScale)
  case hinput => exact Schema.accepts_of_ok rfl (Tensor.ofDocument_reading h.input)
  case hregions => exact Schema.accepts_of_ok rfl (Tensor.ofDocument_reading h.regions)
  case hexpected =>
    intro t ht
    exact Schema.accepts_of_ok rfl (expected_reading (h.expected t ht))
  case htolerance => exact Schema.accepts_of_ok rfl (Document.asSingle_reading h.tolerance)

/-- The decoder takes the written form back to the fixture. -/
theorem ofDocument_reading {f : Fixture} (h : f.IsFinite) :
    ofDocument (reading Literal.text f.written) = .ok f := by
  -- All members pass their checks, and then each one is decoded by its name.
  have hread : schema.read Document.unclosed (reading Literal.text f.written) =
      .ok (memberDocuments Literal.text f.members) :=
    schema.read_object Document.unclosed f.members f.nodup_names (accepts_members h)
  have hlookup : f.members.lookup "name" = some (.string f.name) ∧
      f.members.lookup "description" = f.description.map .string ∧
      f.members.lookup "params" = some f.params.written ∧
      f.members.lookup "input" = some f.input.written ∧
      f.members.lookup "rois" = some f.regions.written ∧
      f.members.lookup "expected" = f.expected.map Tensor.written ∧
      f.members.lookup "tolerance" = some (.number (.single f.tolerance)) := by
    simp [members, List.lookup_append, lookup_optionalMember, List.lookup_cons]
  obtain ⟨hname, hdescription, hparams, hinput, hregions, hexpected, htolerance⟩ := hlookup
  have hname : (memberDocuments Literal.text f.members).get "name" Document.asString = .ok f.name :=
    Schema.get_of_lookup hname rfl
  have hdescription := Schema.getD_of_lookup_map hdescription fun text _ => description_reading text
  have hparams := Schema.get_of_lookup hparams
    (Params.ofDocument_reading Document.unclosed h.spatialScale)
  have hinput := Schema.get_of_lookup hinput (Tensor.ofDocument_reading h.input)
  have hregions := Schema.get_of_lookup hregions (Tensor.ofDocument_reading h.regions)
  have hexpected := Schema.getD_of_lookup_map hexpected fun t ht => expected_reading (h.expected t ht)
  have htolerance := Schema.getD_of_lookup defaultTolerance htolerance
    (Document.asSingle_reading h.tolerance)
  rw [ofDocument, hread]
  simp only [bind, Except.bind, paramsOfDocument, hname, hdescription, hparams, hinput, hregions,
    hexpected, htolerance]
  rfl

/-! ## Files -/

/-- The saved text is loaded as the fixture. -/
theorem ofJson_page {f : Fixture} (h : f.IsFinite) : ofJson f.page = .ok f := by
  have hread : Document.read f.page = (reading Literal.text f.written, []) :=
    Document.read_page f.written
  rw [ofJson, Document.decode, hread]
  simp only [ofDocument_reading h]
  rfl

theorem fromUTF8?_toUTF8 (text : String) : String.fromUTF8? text.toUTF8 = some text :=
  dif_pos text.isValidUTF8

/-- A file that was written as a text is read as this text. -/
theorem ofFile_toUTF8 (text : String) : ofFile (.ok text.toUTF8) = ofJson text := by
  simp only [ofFile, fromUTF8?_toUTF8]

/--
A fixture whose numbers are finite, saved to a file and loaded from it, is the same fixture: every
text, every size and every number with its sign, and no member more or less.
-/
theorem ofFile_page {f : Fixture} (h : f.IsFinite) : ofFile (.ok f.page.toUTF8) = .ok f := by
  have htext := fromUTF8?_toUTF8 f.page
  simp only [ofFile, htext]
  exact ofJson_page h

/-- One pixel that is minus zero, pooled with a tolerance of minus zero, with quotes in its text. -/
def minusZero : Fixture where
  name := "-0\t\"zero\""
  description := some "\x01 \\ é"
  params := Params.ofGrid 1 1
  input := ⟨⟨[1, 1, 1, 1]⟩, #[.zero true], by decide⟩
  regions := ⟨⟨[1, 4]⟩, #[.zero false, .zero true, Binary.ofNat 1, Binary.ofNat 1], by decide⟩
  expected := some ⟨⟨[1, 1, 1, 1]⟩, #[.zero true], by decide⟩
  tolerance := .zero true

theorem minusZero_ofFile_page :
    minusZero.IsFinite ∧ ofFile (.ok minusZero.page.toUTF8) = .ok minusZero := by
  have hfinite : minusZero.IsFinite := by
    refine ⟨by decide +kernel, by decide +kernel, by decide +kernel, ?_, by decide +kernel⟩
    rintro t ⟨⟩
    decide +kernel
  exact ⟨hfinite, ofFile_page hfinite⟩

end Fixture

end RegionPooling
