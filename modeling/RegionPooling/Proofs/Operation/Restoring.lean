import RegionPooling.Proofs.Json.Decoding
import RegionPooling.Proofs.Json.Value
import RegionPooling.Proofs.Operation.Replacement

/-!
# Parameters survive a document

The parameters of an operation can be looked at in two forms, of which the second one also says
whether they are adaptive, and an operation takes over parameters from a value. Whatever it was
before, it becomes the operation that was looked at. This is so for either form, and also if the
value is printed on one line and read again in between: whole numbers are read as themselves, and
the scale, which is widened to eight bytes in the value, is narrowed to the scale it was.

Main results:

* `Params.parse_compact_form` — what is read of the text of a form.
* `Operation.restored_from_forms` — any operation becomes any other one by either of its forms.
-/

namespace RegionPooling

namespace Params

/-- The document of four parameters, behind the member that says whether they are adaptive, if it
is there. -/
def form (adaptive : Option Bool) (height width ratio scale : Value) : Value :=
  .object ((adaptive.map fun b => ("adaptive", .bool b)).toList ++
    [("output_height", height), ("output_width", width), ("sampling_ratio", ratio),
      ("spatial_scale", scale)])

section Forms

variable {adaptive : Option Bool} {p : Params}

/-- A form of parameters with a scale of eight bytes. -/
def formOf (p : Params) (adaptive : Option Bool) (scale : Double) : Value :=
  form adaptive (.number (.whole p.outputHeight.toNat)) (.number (.whole p.outputWidth.toNat))
    (.number (.whole p.samplingRatio.toInt)) (.number (.real scale))

theorem toValue_eq_formOf (h : p.spatialScale.isFinite = true) :
    p.toValue = p.formOf none p.spatialScale.convert :=
  toValue_eq h

theorem summary_eq_formOf (h : p.spatialScale.isFinite = true) :
    p.summary = p.formOf (some p.isAdaptive) p.spatialScale.convert := by
  have hscale : Json.ofLiteral (.single p.spatialScale) =
      .number (.real p.spatialScale.convert) := if_pos h
  rw [formOf, ← hscale]
  rfl

/-- Whether the parameters are adaptive is not read. -/
theorem ofValue_form (height width ratio scale : Value) :
    ofValue (form adaptive height width ratio scale) =
      ofValue (object height width ratio scale) := by
  cases adaptive with
  | none => rfl
  | some b => rfl

theorem ofValue_formOf {scale : Double} (h : (scale.convert : Single) = p.spatialScale) :
    ofValue (p.formOf adaptive scale) = .ok p := by
  rw [formOf, ofValue_form, ofValue_object_eq_ok_iff]
  exact ⟨asUInt32_ofValue_whole p.outputHeight, asUInt32_ofValue_whole p.outputWidth,
    asInt32_ofValue_whole p.samplingRatio, congrArg Except.ok h⟩

/-- The text of a form holds the same form, with a scale that may be another eight-byte number. -/
theorem parse_compact_form {scale scale' : Double}
    (h : Document.read (Number.real scale).text = (.number (some (.real scale')), [])) :
    Json.parse (Json.compact (p.formOf adaptive scale)) = .ok (p.formOf adaptive scale') := by
  have hsize (n : UInt32) : Document.read (Number.whole n.toNat).text =
      (.number (some (.whole n.toNat)), []) := by
    have hlt := n.toNat_lt
    exact Document.read_whole (by omega) (by omega)
  have hratio : Document.read (Number.whole p.samplingRatio.toInt).text =
      (.number (some (.whole p.samplingRatio.toInt)), []) := by
    have hlower := p.samplingRatio.le_toInt
    have hupper := p.samplingRatio.toInt_lt
    exact Document.read_whole (by omega) (by omega)
  rw [Json.parse_compact]
  cases adaptive with
  | none =>
    simp only [formOf, form, Option.map_none, Option.toList_none, List.nil_append,
      Document.reading, Document.memberReadings, hsize, hratio, h]
    rfl
  | some b =>
    simp only [formOf, form, Option.map_some, Option.toList_some, List.singleton_append,
      Document.reading, Document.memberReadings, hsize, hratio, h]
    rfl

end Forms

end Params

namespace Operation

/-- An operation takes over the parameters of another one from a value, and also from what is read
of the text of this value. -/
def RestoredFrom (op original : Operation) (v : Value) : Prop :=
  sessionStep (some op) (.replace v) = (.ok .done, some original) ∧
    ∃ v', Json.parse (Json.compact v) = .ok v' ∧
      sessionStep (some op) (.replace v') = (.ok .done, some original)

variable {op original : Operation}

theorem restoredFrom_formOf (op original : Operation) (adaptive : Option Bool) :
    op.RestoredFrom original
      (original.params.formOf adaptive original.params.spatialScale.convert) := by
  have hfinite := original.usable.scale_isFinite
  obtain ⟨scale, hread, hscale⟩ := Single.exists_read_widened hfinite
  -- Widened and narrowed again the scale is the same, and so it is after the text in between.
  refine ⟨sessionStep_replace ?_, original.params.formOf adaptive scale,
    Params.parse_compact_form hread, sessionStep_replace ?_⟩
  · exact ofValue_eq_ok_iff.mpr (Params.ofValue_formOf (Single.convert_convert hfinite))
  · exact ofValue_eq_ok_iff.mpr (Params.ofValue_formOf hscale)

/--
Both forms in which an operation gives its parameters away make any operation the same as it is,
bit by bit, and so does what is read of the text of either form.
-/
theorem restored_from_forms (op original : Operation) :
    (∃ v, sessionStep (some original) .params = (.ok (.value v), some original) ∧
      op.RestoredFrom original v) ∧
    ∃ v, sessionStep (some original) .summarize = (.ok (.value v), some original) ∧
      op.RestoredFrom original v := by
  have hfinite := original.usable.scale_isFinite
  refine ⟨⟨_, rfl, ?_⟩, ⟨_, rfl, ?_⟩⟩
  · rw [Params.toValue_eq_formOf hfinite]
    exact restoredFrom_formOf op original none
  · rw [Params.summary_eq_formOf hfinite]
    exact restoredFrom_formOf op original (some original.params.isAdaptive)

end Operation

end RegionPooling
